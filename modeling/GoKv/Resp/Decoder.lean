import GoKv.Resp.Grammar

/-! Repeated ReadCommand calls over a whole stream. The frames of a byte string, and the
failure that ends them, are the same however the stream is cut into pieces. -/
namespace GoKv.Resp
open GoLib

@[ext] structure Frame (lim : Limits) where
  args : List Bytes
  bytes : Bytes
  valid : IsFrame lim args bytes

namespace Frame

variable {lim : Limits}

theorem bytes_ne_nil (f : Frame lim) : f.bytes ≠ [] := by
  obtain ⟨h, body, ⟨⟨t, rfl, -⟩, -⟩, -, -, hb⟩ := f.valid
  rw [hb]
  simp

def stream (fs : List (Frame lim)) : Bytes := (fs.map Frame.bytes).flatten

@[simp] theorem stream_nil : stream ([] : List (Frame lim)) = [] := rfl

@[simp] theorem stream_cons (f : Frame lim) (fs : List (Frame lim)) :
    stream (f :: fs) = f.bytes ++ stream fs := rfl

theorem stream_append (fs gs : List (Frame lim)) :
    stream (fs ++ gs) = stream fs ++ stream gs := by
  rw [stream, List.map_append, List.flatten_append]
  rfl

end Frame

/-- The reference parse: the frames a byte string begins with, and a tail that begins with
none. -/
structure Splits (lim : Limits) (b : Bytes) (frames : List (Frame lim)) (tail : Bytes) : Prop where
  split : b = Frame.stream frames ++ tail
  stops : ∀ f : Frame lim, ¬ f.bytes <+: tail

private theorem exists_splits (lim : Limits) (b : Bytes) :
    ∃ frames tail, Splits lim b frames tail := by
  induction hn : b.length using Nat.strong_induction_on generalizing b with
  | _ n ih =>
    subst hn
    by_cases hf : ∃ f : Frame lim, f.bytes <+: b
    · obtain ⟨f, x, rfl⟩ := hf
      have hpos := List.length_pos_iff.mpr f.bytes_ne_nil
      obtain ⟨fs, tail, hsplit, hstops⟩ := ih x.length (by simp; omega) x rfl
      exact ⟨f :: fs, tail, by rw [hsplit]; simp, hstops⟩
    · exact ⟨[], b, rfl, not_exists.mp hf⟩

private theorem splits_unique {lim : Limits} {b : Bytes} {fs gs : List (Frame lim)} {u v : Bytes}
    (hf : Splits lim b fs u) (hg : Splits lim b gs v) : fs = gs ∧ u = v := by
  induction fs generalizing b gs with
  | nil =>
    have hb := hf.split
    cases gs with
    | nil => exact ⟨rfl, hb.symm.trans hg.split⟩
    | cons g gs =>
      have hg' := hg.split
      simp only [Frame.stream_nil, List.nil_append, Frame.stream_cons, List.append_assoc] at hb hg'
      exact absurd ⟨_, hg'.symm.trans hb⟩ (hf.stops g)
  | cons f fs ih =>
    have hb := hf.split
    have hg' := hg.split
    cases gs with
    | nil =>
      simp only [Frame.stream_nil, List.nil_append, Frame.stream_cons, List.append_assoc] at hb hg'
      exact absurd ⟨_, hb.symm.trans hg'⟩ (hg.stops f)
    | cons g gs =>
      rw [Frame.stream_cons, List.append_assoc] at hb hg'
      have hparse := parseFrame_append f.valid (Frame.stream fs ++ u)
      rw [← hb, hg', parseFrame_append g.valid] at hparse
      obtain ⟨hargs, hrest⟩ : g.args = f.args ∧ Frame.stream gs ++ v = Frame.stream fs ++ u := by
        simpa using hparse
      have hbytes : f.bytes = g.bytes := by
        rw [hb, ← hrest] at hg'
        exact List.append_cancel_right hg'
      obtain ⟨rfl, rfl⟩ := ih ⟨rfl, hf.stops⟩ ⟨hrest.symm, hg.stops⟩
      exact ⟨by rw [Frame.ext hargs.symm hbytes], rfl⟩

namespace Reader

variable {σ : Type*} {R : IoReader σ} {I : σ → Prop} {src : σ → Bytes}

/-- While frames last each call returns the next one and consumes exactly its bytes. -/
theorem readCommands_frames (h : Delivers R I src) {lim : Limits} {tail : Bytes} (n : ℕ)
    (fs : List (Frame lim)) (hn : n ≤ fs.length) {r : Reader σ} (hr : r.br.Ready I)
    (hl : r.limits = lim) (hrest : r.br.rest src = Frame.stream fs ++ tail) :
    ∃ r', readCommands R n r = ((fs.take n).map Frame.args, none, r') ∧
      r'.br.Ready I ∧ r'.limits = lim ∧
      r'.br.rest src = Frame.stream (fs.drop n) ++ tail := by
  induction n generalizing fs r with
  | zero => exact ⟨r, rfl, hr, hl, hrest⟩
  | succ n ih =>
    obtain ⟨f, fs, rfl⟩ : ∃ f gs, fs = f :: gs :=
      List.exists_cons_of_length_pos (by omega)
    have hcmd := readCommand_spec h hr
    rw [hl, hrest, Frame.stream_cons, List.append_assoc, parseFrame_append f.valid] at hcmd
    obtain ⟨r₁, hres, hl₁, hr₁, hrest₁⟩ := hcmd
    obtain ⟨r₂, hres₂, hrem⟩ := ih fs (by simpa using hn) hr₁ hl₁ hrest₁
    refine ⟨r₂, ?_, hrem⟩
    simp only [readCommands, hres, hres₂, List.take_succ_cons, List.map_cons]

/-- The calls stop at the first failure, which is the tail's. -/
theorem readCommands_failure (h : Delivers R I src) {lim : Limits} {tail : Bytes} {e : ReadErr}
    (he : parseFrame lim tail = .error e) (n : ℕ) (fs : List (Frame lim)) (hn : fs.length < n)
    {r : Reader σ} (hr : r.br.Ready I) (hl : r.limits = lim)
    (hrest : r.br.rest src = Frame.stream fs ++ tail) :
    ∃ r', readCommands R n r = (fs.map Frame.args, some e, r') := by
  induction n generalizing fs r with
  | zero => omega
  | succ n ih =>
    have hcmd := readCommand_spec h hr
    cases fs with
    | nil =>
      rw [hl, hrest, Frame.stream_nil, List.nil_append, he] at hcmd
      obtain ⟨r', hres⟩ := hcmd
      exact ⟨r', by simp only [readCommands, hres, List.map_nil]⟩
    | cons f fs =>
      rw [hl, hrest, Frame.stream_cons, List.append_assoc, parseFrame_append f.valid] at hcmd
      obtain ⟨r₁, hres, hl₁, hr₁, hrest₁⟩ := hcmd
      obtain ⟨r₂, hres₂⟩ := ih fs (by simpa using hn) hr₁ hl₁ hrest₁
      exact ⟨r₂, by simp only [readCommands, hres, hres₂, List.map_cons]⟩

end Reader

/-- What the failure at a tail that begins with no frame says about it. -/
theorem parseFrame_tail {lim : Limits} {tail : Bytes} (hs : ∀ f : Frame lim, ¬ f.bytes <+: tail) :
    ∃ e, parseFrame lim tail = .error e ∧ (e = .io .eof ↔ tail = []) ∧
      (e.isIncomplete = true ↔ Torn lim tail) ∧
      (tail ≠ [] → ∃ msg incomplete, e = .protocol msg incomplete) := by
  rcases parseFrame_cases lim tail with ⟨args, f, x, hf, rfl⟩ | rfl | htorn | ⟨msg, hmsg⟩
  · exact absurd (List.prefix_append f x) (hs ⟨args, f, hf⟩)
  · have hnot : ¬ Torn lim [] := not_torn (by simp [parseFrame_nil, incompleteErr])
    exact ⟨_, parseFrame_nil lim, by simp, by simp [ReadErr.isIncomplete, hnot], by simp⟩
  · obtain ⟨msg, hmsg⟩ := parseFrame_torn htorn
    have hne : tail ≠ [] := by
      rintro rfl
      cases hmsg
    exact ⟨_, hmsg, by simp [incompleteErr, hne],
      by simp [ReadErr.isIncomplete, incompleteErr, htorn], fun _ => ⟨_, _, rfl⟩⟩
  · have hne : tail ≠ [] := by
      rintro rfl
      cases hmsg
    have hnot : ¬ Torn lim tail := not_torn (by simp [hmsg, protoErr, incompleteErr])
    exact ⟨_, hmsg, by simp [protoErr, hne], by simp [ReadErr.isIncomplete, protoErr, hnot],
      fun _ => ⟨_, _, rfl⟩⟩

/-- Whatever the pieces a byte string arrives in, the calls of ReadCommand return the frames of
its one reference parse, each consuming exactly its bytes, and then fail: with EOF exactly at
the end of the stream, with an incomplete frame exactly where the stream ends inside one, and
with a plain protocol error on every other tail. -/
theorem readCommands_grammar (lim : Limits) (b : Bytes) :
    ∃ frames tail e, Splits lim b frames tail ∧
      (∀ gs u, Splits lim b gs u → gs = frames ∧ u = tail) ∧
      (e = .io .eof ↔ tail = []) ∧ (e.isIncomplete = true ↔ Torn lim tail) ∧
      (tail ≠ [] → ∃ msg incomplete, e = .protocol msg incomplete) ∧
      ∀ cs : Chunks, cs.rest = b → ∀ n,
        if n ≤ frames.length then
          ∃ r, (Reader.new cs lim).readCommands Chunks.reader n =
              ((frames.take n).map Frame.args, none, r) ∧
            r.br.rest Chunks.rest = Frame.stream (frames.drop n) ++ tail
        else
          ∃ r, (Reader.new cs lim).readCommands Chunks.reader n =
            (frames.map Frame.args, some e, r) := by
  obtain ⟨frames, tail, hs⟩ := exists_splits lim b
  obtain ⟨e, he, heof, htorn, hproto⟩ := parseFrame_tail hs.stops
  refine ⟨frames, tail, e, hs, fun gs u hg => splits_unique hg hs, heof, htorn, hproto, ?_⟩
  intro cs hcs n
  have hrest : (Reader.new cs lim).br.rest Chunks.rest = Frame.stream frames ++ tail := by
    rw [← hs.split, ← hcs]
    rfl
  split_ifs with hn
  · obtain ⟨r, hres, -, -, hrem⟩ := Reader.readCommands_frames Chunks.delivers n frames hn
      (Bufio.ready_ofReader trivial) rfl hrest
    exact ⟨r, hres, hrem⟩
  · exact Reader.readCommands_failure Chunks.delivers he n frames (not_le.mp hn)
      (Bufio.ready_ofReader trivial) rfl hrest

end GoKv.Resp
