import GoKv.Lib.Bufio

/-! Byte sinks: the io.Writer contract and a bufio.Writer with its default buffer. The bytes the
sink has taken, followed by those in the buffer, are what was written; after the first failed
write the writer passes nothing on. -/
namespace GoLib

universe u

variable {σ : Type u}

structure Wrote (σ : Type u) where
  n : ℕ
  err : Option ℕ
  next : σ

/-- An io.Writer as a state machine. A write that takes less than it was given reports an
error. -/
structure IoWriter (σ : Type u) where
  write : σ → Bytes → Wrote σ
  n_le : ∀ s p, (write s p).n ≤ p.length
  short : ∀ s p, (write s p).n < p.length → (write s p).err ≠ none

theorem IoWriter.n_eq (W : IoWriter σ) {s : σ} {p : Bytes} (h : (W.write s p).err = none) :
    (W.write s p).n = p.length :=
  (W.n_le s p).antisymm (not_lt.mp fun hlt => W.short s p hlt h)

/-- An error met while writing: the sink's own, io.ErrShortWrite, or one of the caller's. -/
inductive WriteErr where
  | sink (code : ℕ)
  | shortWrite
  | other (msg : Bytes)
  deriving DecidableEq, Repr

/-- `err` is the error of the first failed write; it is reported by every later call. -/
structure BufWriter (σ : Type u) where
  wr : σ
  buf : Bytes
  err : Option WriteErr

/-- Code that writes through a buffered writer and stops at its first error. -/
structure Out (σ : Type u) (α : Type) where
  run : BufWriter σ → Except WriteErr α × BufWriter σ

instance : Monad (Out σ) where
  pure a := ⟨fun w => (.ok a, w)⟩
  bind m k := ⟨fun w =>
    match m.run w with
    | (.ok a, w) => (k a).run w
    | (.error e, w) => (.error e, w)⟩

def Out.fail (e : WriteErr) : Out σ Unit := ⟨fun w => (.error e, w)⟩

namespace BufWriter

def ofWriter (s : σ) : BufWriter σ := ⟨s, [], none⟩

def buffered (w : BufWriter σ) : ℕ := w.buf.length

def available (w : BufWriter σ) : ℕ := bufSize - w.buf.length

def flush (W : IoWriter σ) (w : BufWriter σ) : Except WriteErr Unit × BufWriter σ :=
  match w.err with
  | some e => (.error e, w)
  | none =>
    if w.buf = [] then (.ok (), w)
    else
      let g := W.write w.wr w.buf
      match g.err with
      | some c => (.error (.sink c), ⟨g.next, w.buf.drop g.n, some (.sink c)⟩)
      | none =>
        if g.n < w.buf.length then
          (.error .shortWrite, ⟨g.next, w.buf.drop g.n, some .shortWrite⟩)
        else (.ok (), ⟨g.next, [], none⟩)

def writeByte (W : IoWriter σ) (c : UInt8) (w : BufWriter σ) :
    Except WriteErr Unit × BufWriter σ :=
  match w.err with
  | some e => (.error e, w)
  | none =>
    match (if w.available = 0 then w.flush W else (.ok (), w)) with
    | (.error e, w) => (.error e, w)
    | (.ok (), w) => (.ok (), { w with buf := w.buf ++ [c] })

/-- The loop that makes room for `s`: what is left to copy, and the writer. A `direct` write into
an empty buffer goes past it. -/
def makeRoom (W : IoWriter σ) (direct : Bool) : ℕ → Bytes → BufWriter σ → Bytes × BufWriter σ
  | 0, s, w => (s, w)
  | fuel + 1, s, w =>
    if w.available < s.length ∧ w.err = none then
      if direct ∧ w.buf = [] then
        let g := W.write w.wr s
        makeRoom W direct fuel (s.drop g.n) ⟨g.next, [], g.err.map .sink⟩
      else
        makeRoom W direct fuel (s.drop w.available)
          (flush W { w with buf := w.buf ++ s.take w.available }).2
    else (s, w)

/-- Every pass but the first copies a byte or fails. -/
def copyIn (W : IoWriter σ) (direct : Bool) (s : Bytes) (w : BufWriter σ) :
    Except WriteErr Unit × BufWriter σ :=
  let (s, w) := makeRoom W direct (s.length + 2) s w
  match w.err with
  | some e => (.error e, w)
  | none => (.ok (), { w with buf := w.buf ++ s })

def write (W : IoWriter σ) (p : Bytes) (w : BufWriter σ) : Except WriteErr Unit × BufWriter σ :=
  w.copyIn W true p

/-- The sink has no WriteString of its own. -/
def writeString (W : IoWriter σ) (s : Bytes) (w : BufWriter σ) :
    Except WriteErr Unit × BufWriter σ :=
  w.copyIn W false s

end BufWriter

open BufWriter

def Out.byte (W : IoWriter σ) (c : UInt8) : Out σ Unit := ⟨writeByte W c⟩

def Out.bytes (W : IoWriter σ) (p : Bytes) : Out σ Unit := ⟨BufWriter.write W p⟩

def Out.string (W : IoWriter σ) (s : Bytes) : Out σ Unit := ⟨writeString W s⟩

/-! ## What a writer passes on -/

/-- `I s out`: no write has failed and the sink has taken `out`. `F s out`: one has, and the sink
had taken `out` by then. -/
structure Sink (W : IoWriter σ) (I F : σ → Bytes → Prop) : Prop where
  takes : ∀ s out p, I s out → (W.write s p).err = none → I (W.write s p).next (out ++ p)
  fails : ∀ s out p, I s out → (W.write s p).err ≠ none →
    F (W.write s p).next (out ++ p.take (W.write s p).n)

variable {W : IoWriter σ} {I F : σ → Bytes → Prop}

/-- No write has failed: what the sink has taken and what is buffered make up `stream`. -/
structure Holds (I : σ → Bytes → Prop) (w : BufWriter σ) (stream : Bytes) : Prop where
  healthy : w.err = none
  fits : w.buf.length ≤ bufSize
  split : ∃ out, I w.wr out ∧ out ++ w.buf = stream

/-- A write has failed: the sink has taken a part of `stream` from its start. -/
structure Broke (F : σ → Bytes → Prop) (w : BufWriter σ) (stream : Bytes) : Prop where
  failed : w.err ≠ none
  taken : ∃ out, F w.wr out ∧ out <+: stream

theorem holds_ofWriter {s : σ} (h : I s []) : Holds I (ofWriter s) [] :=
  ⟨rfl, Nat.zero_le _, [], h, rfl⟩

theorem Broke.append {w : BufWriter σ} {stream : Bytes} (h : Broke F w stream) (more : Bytes) :
    Broke F w (stream ++ more) :=
  ⟨h.failed, h.taken.imp fun _ ⟨hf, hp⟩ => ⟨hf, hp.trans (List.prefix_append _ _)⟩⟩

/-- Unless a write fails, `m` writes `bs` and returns `res`; if one does, `m` returns an error. -/
def Emits (I F : σ → Bytes → Prop) (m : BufWriter σ → Except WriteErr Unit × BufWriter σ)
    (bs : Bytes) (res : Except WriteErr Unit) : Prop :=
  ∀ w stream, Holds I w stream →
    ((m w).1 = res ∧ Holds I (m w).2 (stream ++ bs)) ∨
    ((∃ e, (m w).1 = .error e) ∧ Broke F (m w).2 (stream ++ bs))

theorem Out.bind_ok {α β : Type} {m : Out σ α} {k : α → Out σ β} {w w' : BufWriter σ} {a : α}
    (h : m.run w = (.ok a, w')) : (m >>= k).run w = (k a).run w' := by
  simp only [bind, h]

theorem Out.bind_error {α β : Type} {m : Out σ α} {k : α → Out σ β} {w w' : BufWriter σ}
    {e : WriteErr} (h : m.run w = (.error e, w')) : (m >>= k).run w = (.error e, w') := by
  simp only [bind, h]

theorem Emits.bind {m : Out σ Unit} {k : Unit → Out σ Unit} {bs bs' : Bytes}
    {res : Except WriteErr Unit} (hm : Emits I F m.run bs (.ok ()))
    (hk : Emits I F (k ()).run bs' res) : Emits I F (m >>= k).run (bs ++ bs') res := by
  intro w stream hw
  rw [← List.append_assoc]
  rcases hm w stream hw with ⟨hres, hh⟩ | ⟨⟨e, hres⟩, hb⟩
  · rw [Out.bind_ok (Prod.ext hres rfl)]
    exact hk _ _ hh
  · rw [Out.bind_error (Prod.ext hres rfl)]
    exact .inr ⟨⟨e, rfl⟩, hb.append bs'⟩

/-- What follows an error of the caller's is not reached. -/
theorem Emits.stop {m : Out σ Unit} {k : Unit → Out σ Unit} {bs : Bytes} {e : WriteErr}
    (hm : Emits I F m.run bs (.error e)) : Emits I F (m >>= k).run bs (.error e) := by
  intro w stream hw
  rcases hm w stream hw with ⟨hres, hh⟩ | ⟨⟨e', hres⟩, hb⟩
  · rw [Out.bind_error (Prod.ext hres rfl)]
    exact .inl ⟨rfl, hh⟩
  · rw [Out.bind_error (Prod.ext hres rfl)]
    exact .inr ⟨⟨e', rfl⟩, hb⟩

theorem emits_pure : Emits I F (pure () : Out σ Unit).run [] (.ok ()) := by
  intro w stream hw
  rw [List.append_nil]
  exact .inl ⟨rfl, hw⟩

theorem emits_fail (e : WriteErr) : Emits I F (Out.fail e).run [] (.error e) := by
  intro w stream hw
  rw [List.append_nil]
  exact .inl ⟨rfl, hw⟩

/-! ## The writer's own calls -/

theorem emits_flush (h : Sink W I F) : Emits I F (flush W) [] (.ok ()) := by
  rintro w stream ⟨herr, hfits, out, hi, rfl⟩
  rw [List.append_nil]
  unfold flush
  simp only [herr]
  by_cases hnil : w.buf = []
  · rw [if_pos hnil]
    exact .inl ⟨rfl, herr, hfits, out, hi, rfl⟩
  rw [if_neg hnil]
  have hpre : out ++ w.buf.take (W.write w.wr w.buf).n <+: out ++ w.buf :=
    (List.prefix_append_right_inj _).mpr (List.take_prefix _ _)
  cases hg : (W.write w.wr w.buf).err with
  | some c =>
    exact .inr ⟨⟨_, rfl⟩, by simp, _, h.fails _ _ _ hi (by simp [hg]), hpre⟩
  | none =>
    rw [if_neg (W.n_eq hg).not_lt]
    exact .inl ⟨rfl, rfl, Nat.zero_le _, _, h.takes _ _ _ hi hg, List.append_nil _⟩

theorem buf_flush {w : BufWriter σ} (h : (w.flush W).1 = .ok ()) : (w.flush W).2.buf = [] := by
  unfold flush at h ⊢
  cases herr : w.err with
  | some e => simp [herr] at h
  | none =>
    simp only [herr] at h ⊢
    by_cases hnil : w.buf = []
    · rw [if_pos hnil]
      exact hnil
    · rw [if_neg hnil] at h ⊢
      cases hg : (W.write w.wr w.buf).err with
      | some c => simp [hg] at h
      | none =>
        simp only [if_neg (W.n_eq hg).not_lt]

theorem emits_writeByte (h : Sink W I F) (c : UInt8) : Emits I F (writeByte W c) [c] (.ok ()) := by
  intro w stream hw
  unfold writeByte
  simp only [hw.healthy]
  by_cases hav : w.available = 0
  · rw [if_pos hav]
    have hflush := emits_flush h w stream hw
    rw [List.append_nil] at hflush
    have hbuf := buf_flush (W := W) (w := w)
    generalize w.flush W = g at hflush hbuf
    obtain ⟨res, w'⟩ := g
    dsimp only at hflush hbuf
    rcases hflush with ⟨rfl, herr, -, out, hi, rfl⟩ | ⟨⟨e, rfl⟩, hb⟩
    · refine .inl ⟨rfl, herr, ?_, out, hi, (List.append_assoc ..).symm⟩
      dsimp only
      rw [hbuf rfl, List.nil_append, List.length_singleton]
      decide
    · exact .inr ⟨⟨e, rfl⟩, hb.append [c]⟩
  · rw [if_neg hav]
    obtain ⟨herr, hfits, out, hi, rfl⟩ := hw
    refine .inl ⟨rfl, herr, ?_, out, hi, (List.append_assoc ..).symm⟩
    unfold available at hav
    rw [List.length_append, List.length_singleton]
    omega

theorem makeRoom_of_err {direct : Bool} {fuel : ℕ} {s : Bytes} {w : BufWriter σ}
    (h : w.err ≠ none) : makeRoom W direct fuel s w = (s, w) := by
  cases fuel with
  | zero => rfl
  | succ fuel => rw [makeRoom, if_neg (fun hc => h hc.2)]

theorem makeRoom_of_fits {direct : Bool} {fuel : ℕ} {s : Bytes} {w : BufWriter σ}
    (h : s.length ≤ w.available) : makeRoom W direct fuel s w = (s, w) := by
  cases fuel with
  | zero => rfl
  | succ fuel => rw [makeRoom, if_neg (fun hc => h.not_gt hc.1)]

/-- The passes that make room keep the stream, and end with the rest of the data fitting. -/
theorem makeRoom_spec (h : Sink W I F) (direct : Bool) (fuel : ℕ) (s : Bytes) {stream : Bytes}
    {w : BufWriter σ} (hw : Holds I w stream) (hf : s.length < fuel)
    (hf' : w.available = 0 → s.length + 1 < fuel) :
    (∃ stream', Holds I (makeRoom W direct fuel s w).2 stream' ∧
      stream' ++ (makeRoom W direct fuel s w).1 = stream ++ s ∧
      (makeRoom W direct fuel s w).1.length ≤ (makeRoom W direct fuel s w).2.available) ∨
    Broke F (makeRoom W direct fuel s w).2 (stream ++ s) := by
  induction fuel generalizing s stream w with
  | zero => omega
  | succ fuel ih =>
    by_cases hlt : s.length ≤ w.available
    · rw [makeRoom_of_fits hlt]
      exact .inl ⟨stream, hw, rfl, hlt⟩
    rw [makeRoom, if_pos ⟨not_le.mp hlt, hw.healthy⟩]
    by_cases hdir : direct = true ∧ w.buf = []
    · rw [if_pos hdir]
      obtain ⟨-, -, out, hi, rfl⟩ := hw
      rw [hdir.2, List.append_nil]
      dsimp only
      cases hg : (W.write w.wr s).err with
      | some c =>
        rw [makeRoom_of_err (by simp)]
        exact .inr ⟨by simp, _, h.fails _ _ _ hi (by simp [hg]),
          (List.prefix_append_right_inj _).mpr (List.take_prefix _ _)⟩
      | none =>
        rw [W.n_eq hg, List.drop_length, makeRoom_of_fits (Nat.zero_le _)]
        exact .inl ⟨out ++ s, ⟨rfl, Nat.zero_le _, _, h.takes _ _ _ hi hg, List.append_nil _⟩,
          List.append_nil _, Nat.zero_le _⟩
    · rw [if_neg hdir]
      -- the buffer is filled up and flushed
      have hfull : Holds I { w with buf := w.buf ++ s.take w.available }
          (stream ++ s.take w.available) := by
        obtain ⟨herr, hfits, out, hi, rfl⟩ := hw
        refine ⟨herr, ?_, out, hi, (List.append_assoc ..).symm⟩
        rw [List.length_append, List.length_take, available]
        omega
      have hflush := emits_flush h _ _ hfull
      have hbuf := buf_flush (W := W) (w := { w with buf := w.buf ++ s.take w.available })
      rw [List.append_nil] at hflush
      rw [← List.take_append_drop w.available s, ← List.append_assoc, List.take_append_drop]
      generalize flush W { w with buf := w.buf ++ s.take w.available } = g at hflush hbuf
      obtain ⟨res, w'⟩ := g
      rcases hflush with ⟨rfl, hh⟩ | ⟨⟨e, rfl⟩, hb⟩
      · have hroom : w'.available = bufSize := by rw [available, hbuf rfl]; rfl
        refine ih _ hh ?_ (fun hz => ?_)
        · rw [List.length_drop]
          by_cases hz : w.available = 0
          · have := hf' hz; omega
          · omega
        · rw [hroom] at hz
          exact absurd hz (by decide)
      · rw [makeRoom_of_err hb.failed]
        exact .inr (hb.append _)

theorem emits_copyIn (h : Sink W I F) (direct : Bool) (s : Bytes) :
    Emits I F (copyIn W direct s) s (.ok ()) := by
  intro w stream hw
  have hroom := makeRoom_spec h direct (s.length + 2) s hw (by omega) (fun _ => by omega)
  unfold copyIn
  generalize makeRoom W direct (s.length + 2) s w = g at hroom
  obtain ⟨s', w'⟩ := g
  dsimp only at hroom ⊢
  rcases hroom with ⟨stream', ⟨herr, hfits, out, hi, rfl⟩, heq, hle⟩ | hb
  · simp only [herr]
    refine .inl ⟨trivial, rfl, ?_, out, hi, by rw [← heq, List.append_assoc]⟩
    unfold available at hle
    rw [List.length_append]
    omega
  · obtain ⟨e, he⟩ := Option.ne_none_iff_exists'.mp hb.failed
    simp only [he]
    exact .inr ⟨⟨e, rfl⟩, hb⟩

theorem emits_write (h : Sink W I F) (p : Bytes) : Emits I F (write W p) p (.ok ()) :=
  emits_copyIn h true p

theorem emits_writeString (h : Sink W I F) (s : Bytes) :
    Emits I F (writeString W s) s (.ok ()) :=
  emits_copyIn h false s

/-! ## A sink in memory -/

/-- A bytes.Buffer: every write is taken whole. -/
def memory : IoWriter Bytes where
  write s p := ⟨p.length, none, s ++ p⟩
  n_le _ _ := le_rfl
  short _ _ h := absurd h (lt_irrefl _)

theorem sink_memory : Sink memory (fun s out => s = out) (fun _ _ => False) where
  takes := by
    rintro s _ p rfl -
    rfl
  fails := by
    rintro s out p - h
    exact h rfl

/-- Written to memory and flushed, the bytes `m` emits are all that is there. -/
theorem Emits.memory {m : BufWriter Bytes → Except WriteErr Unit × BufWriter Bytes} {bs : Bytes}
    (h : Emits (fun s out => s = out) (fun _ _ => False) m bs (.ok ())) :
    ((m (ofWriter [])).2.flush GoLib.memory).2.wr = bs := by
  obtain ⟨-, hh⟩ | ⟨-, hb⟩ := h (ofWriter []) [] (holds_ofWriter rfl)
  · obtain ⟨hres, hflushed⟩ | ⟨-, hb⟩ := emits_flush sink_memory _ _ hh
    · obtain ⟨-, -, out, rfl, heq⟩ := hflushed
      rw [buf_flush hres] at heq
      simpa using heq
    · exact hb.taken.elim fun _ h => h.1.elim
  · exact hb.taken.elim fun _ h => h.1.elim

end GoLib
