import GoKv.Lib.Source
import Mathlib.Data.List.TakeWhile

/-! A bufio.Reader with its default buffer. Over a source that delivers a fixed byte string it
reads the same data whatever pieces the source delivers. -/
namespace GoLib

variable {σ : Type*}

def bufSize : ℕ := 4096

/-- `buf` holds the bytes read from the source and not yet consumed; `err` is the source's
error still to be reported. -/
structure Bufio (σ : Type*) where
  rd : σ
  buf : Bytes
  err : Option IoErr

namespace Bufio

def ofReader (s : σ) : Bufio σ := ⟨s, [], none⟩

def buffered (b : Bufio σ) : ℕ := b.buf.length

/-- An empty buffer is refilled by at most one read, and a request at least as large as the
buffer goes past it. -/
def read (R : IoReader σ) (b : Bufio σ) (k : ℕ) : Got (Bufio σ) :=
  if k = 0 then
    if b.buf = [] then ⟨[], b.err, { b with err := none }⟩ else ⟨[], none, b⟩
  else if b.buf = [] then
    match b.err with
    | some e => ⟨[], some e, { b with err := none }⟩
    | none =>
      if bufSize ≤ k then
        let g := R.read b.rd k
        ⟨g.data, g.err, { b with rd := g.next }⟩
      else
        let g := R.read b.rd bufSize
        if g.data = [] then ⟨[], g.err, { b with rd := g.next }⟩
        else ⟨g.data.take k, none, ⟨g.next, g.data.drop k, g.err⟩⟩
  else ⟨b.buf.take k, none, { b with buf := b.buf.drop k }⟩

private theorem read_length_le (R : IoReader σ) (b : Bufio σ) (k : ℕ) :
    (b.read R k).data.length ≤ k := by
  unfold read
  by_cases hk : k = 0
  · rw [if_pos hk]
    split_ifs <;> simp
  rw [if_neg hk]
  by_cases hb : b.buf = []
  · rw [if_pos hb]
    cases b.err with
    | some e => simp
    | none =>
      dsimp only
      split_ifs
      · exact R.length_le _ _
      · simp
      · exact List.length_take_le _ _
  · rw [if_neg hb]
    exact List.length_take_le _ _

private theorem read_progress (R : IoReader σ) (b : Bufio σ) (k : ℕ) (hk : 0 < k)
    (he : (b.read R k).err = none) : (b.read R k).data ≠ [] := by
  unfold read at he ⊢
  rw [if_neg hk.ne'] at he ⊢
  by_cases hb : b.buf = []
  · rw [if_pos hb] at he ⊢
    cases hpend : b.err with
    | some e => simp [hpend] at he
    | none =>
      simp only [hpend] at he ⊢
      split_ifs at he ⊢ with hbig hnil
      · exact R.progress _ _ hk he
      · exact absurd hnil (R.progress _ _ (by decide) he)
      · exact List.ne_nil_of_length_pos (by
          rw [List.length_take]
          have := List.length_pos_iff.mpr hnil
          omega)
  · rw [if_neg hb]
    exact List.ne_nil_of_length_pos (by
      rw [List.length_take]
      have := List.length_pos_iff.mpr hb
      omega)

def toReader (R : IoReader σ) : IoReader (Bufio σ) where
  read := read R
  length_le := read_length_le R
  progress := read_progress R

def fill (R : IoReader σ) (b : Bufio σ) : Bufio σ :=
  let g := R.read b.rd (bufSize - b.buf.length)
  ⟨g.next, b.buf ++ g.data, g.err⟩

def readSliceLoop (R : IoReader σ) (delim : UInt8) : ℕ → Bufio σ → Got (Bufio σ)
  | 0, b => ⟨[], none, b⟩
  | fuel + 1, b =>
    if delim ∈ b.buf then
      let line := b.buf.takeWhile (· != delim)
      ⟨line ++ [delim], none, { b with buf := b.buf.drop (line.length + 1) }⟩
    else
      match b.err with
      | some e => ⟨b.buf, some e, { b with buf := [], err := none }⟩
      | none =>
        if bufSize ≤ b.buf.length then ⟨b.buf, some .bufferFull, { b with buf := [] }⟩
        else readSliceLoop R delim fuel (b.fill R)

/-- Every pass that does not return fills at least one byte or meets the end of the source. -/
def readSlice (R : IoReader σ) (delim : UInt8) (b : Bufio σ) : Got (Bufio σ) :=
  readSliceLoop R delim (bufSize + 2) b

def rest (rest : σ → Bytes) (b : Bufio σ) : Bytes := b.buf ++ rest b.rd

/-- Between calls the buffer is within its size and no error is pending. -/
def Ready (I : σ → Prop) (b : Bufio σ) : Prop :=
  I b.rd ∧ b.buf.length ≤ bufSize ∧ b.err = none

/-- Reading to a delimiter, on the whole remaining stream: the data, the error and what is
left. A line that does not fit in the buffer with its delimiter is refused. -/
def sliceSpec (delim : UInt8) (r : Bytes) : Bytes × Option IoErr × Bytes :=
  let line := r.takeWhile (· != delim)
  if bufSize ≤ line.length then (r.take bufSize, some .bufferFull, r.drop bufSize)
  else if line.length < r.length then (line ++ [delim], none, r.drop (line.length + 1))
  else (r, some .eof, [])

section Spec

variable {R : IoReader σ} {I : σ → Prop} {src : σ → Bytes}

theorem ready_ofReader {s : σ} (hs : I s) : Ready I (ofReader s) :=
  ⟨hs, Nat.zero_le _, rfl⟩

theorem ready_read (h : Delivers R I src) {b : Bufio σ} {k : ℕ} (hb : Ready I b) (hk : 0 < k) :
    Ready I (b.read R k).next ∧ rest src b = (b.read R k).data ++ rest src (b.read R k).next ∧
    ∀ e, (b.read R k).err = some e → e = .eof ∧ rest src b = [] := by
  obtain ⟨hi, hlen, herr⟩ := hb
  unfold read
  rw [if_neg hk.ne']
  by_cases hnil : b.buf = []
  · simp only [if_pos hnil, herr]
    split_ifs with hbig hg
    · refine ⟨⟨h.keeps _ _ hi hk, hlen, rfl⟩, ?_, fun e he => ?_⟩
      · simp [rest, hnil, h.splits _ _ hi hk]
      · simpa [rest, hnil] using h.ends _ _ e hi hk he
    · have hpos : 0 < bufSize := by decide
      refine ⟨⟨h.keeps _ _ hi hpos, hlen, rfl⟩, ?_, fun e he => ?_⟩
      · have := h.splits _ _ hi hpos
        rw [hg] at this
        simp [rest, hnil, this]
      · simpa [rest, hnil] using h.ends _ _ e hi hpos he
    · have hpos : 0 < bufSize := by decide
      have hnone : (R.read b.rd bufSize).err = none := by
        cases he : (R.read b.rd bufSize).err with
        | none => rfl
        | some e => exact absurd (h.data_of_err hi hpos he).1 hg
      have hle := R.length_le b.rd bufSize
      refine ⟨⟨h.keeps _ _ hi hpos, ?_, hnone⟩, ?_, fun e he => by simp at he⟩
      · simp only [List.length_drop]; omega
      · simp [rest, hnil, h.splits _ _ hi hpos, ← List.append_assoc]
  · rw [if_neg hnil]
    refine ⟨⟨hi, ?_, herr⟩, ?_, fun e he => by simp at he⟩
    · simp only [List.length_drop]; omega
    · simp [rest, ← List.append_assoc]

/-- A buffered reader over a source delivers what the source does. -/
theorem delivers (h : Delivers R I src) : Delivers (toReader R) (Ready I) (rest src) where
  keeps _ _ hb hk := (ready_read h hb hk).1
  splits _ _ hb hk := (ready_read h hb hk).2.1
  ends _ _ e hb hk he := (ready_read h hb hk).2.2 e he

private theorem takeWhile_append_of_notMem {delim : UInt8} {xs : Bytes} (ys : Bytes)
    (h : delim ∉ xs) :
    (xs ++ ys).takeWhile (· != delim) = xs ++ ys.takeWhile (· != delim) := by
  apply List.takeWhile_append_of_pos
  intro c hc
  simpa using fun heq : c = delim => h (heq ▸ hc)

private theorem takeWhile_append_of_mem {delim : UInt8} {xs : Bytes} (ys : Bytes) (h : delim ∈ xs) :
    (xs ++ ys).takeWhile (· != delim) = xs.takeWhile (· != delim) ∧
      (xs.takeWhile (· != delim)).length < xs.length := by
  induction xs with
  | nil => simp at h
  | cons x xs ih =>
    by_cases hx : x = delim
    · simp [hx]
    · obtain ⟨heq, hlt⟩ := ih ((List.mem_cons.mp h).resolve_left (Ne.symm hx))
      simp [hx, heq, hlt]

private theorem takeWhile_of_notMem {delim : UInt8} {xs : Bytes} (h : delim ∉ xs) :
    xs.takeWhile (· != delim) = xs := by
  simpa using takeWhile_append_of_notMem [] h

theorem sliceSpec_append {delim : UInt8} {line : Bytes} (h : delim ∉ line)
    (hlen : line.length < bufSize) (x : Bytes) :
    sliceSpec delim (line ++ delim :: x) = (line ++ [delim], none, x) := by
  have htw : (line ++ delim :: x).takeWhile (· != delim) = line := by
    rw [takeWhile_append_of_notMem _ h]
    simp
  have hdrop : (line ++ delim :: x).drop (line.length + 1) = x := by
    rw [List.drop_append, List.drop_of_length_le (by omega)]
    simp
  simp only [sliceSpec, htw, hdrop, if_neg (not_le.mpr hlen), List.length_append, List.length_cons]
  rw [if_pos (by omega)]

theorem sliceSpec_splits (delim : UInt8) (r : Bytes) :
    (sliceSpec delim r).1 ++ (sliceSpec delim r).2.2 = r := by
  unfold sliceSpec
  extract_lets line
  split_ifs with hfull hlt
  · exact List.take_append_drop _ _
  · have hsplit : line ++ r.dropWhile (· != delim) = r := List.takeWhile_append_dropWhile
    cases hrest : r.dropWhile (· != delim) with
    | nil =>
      rw [hrest, List.append_nil] at hsplit
      rw [hsplit] at hlt
      exact absurd hlt (lt_irrefl _)
    | cons c x =>
      have hne : r.dropWhile (· != delim) ≠ [] := by
        rw [hrest]
        exact List.cons_ne_nil _ _
      have hc := List.head_dropWhile_not (· != delim) hne
      simp only [hrest, List.head_cons, bne_eq_false_iff_eq] at hc
      rw [hrest, hc] at hsplit
      rw [← hsplit]
      simp
  · exact List.append_nil _

theorem sliceSpec_of_notMem {delim : UInt8} {b : Bytes} (h : delim ∉ b)
    (hlen : b.length < bufSize) : sliceSpec delim b = (b, some .eof, []) := by
  simp [sliceSpec, takeWhile_of_notMem h, not_le.mpr hlen]

theorem sliceSpec_long {delim : UInt8} {line : Bytes} (h : delim ∉ line)
    (hlen : bufSize ≤ line.length) (x : Bytes) :
    (sliceSpec delim (line ++ x)).2.1 = some .bufferFull := by
  have hle : bufSize ≤ ((line ++ x).takeWhile (· != delim)).length := by
    rw [takeWhile_append_of_notMem _ h, List.length_append]
    omega
  simp only [sliceSpec, if_pos hle]

/-- Inside ReadSlice an EOF may be pending: the whole stream is then in a buffer that is not
full and has no delimiter. -/
private def Scanning (I : σ → Prop) (src : σ → Bytes) (delim : UInt8) (b : Bufio σ) : Prop :=
  I b.rd ∧ b.buf.length ≤ bufSize ∧
    (b.err = none ∨
      b.err = some .eof ∧ src b.rd = [] ∧ b.buf.length < bufSize ∧ delim ∉ b.buf)

private theorem scanning_fill (h : Delivers R I src) {delim : UInt8} {b : Bufio σ} (hi : I b.rd)
    (hlt : b.buf.length < bufSize) (hmem : delim ∉ b.buf) :
    Scanning I src delim (b.fill R) ∧ rest src (b.fill R) = rest src b ∧
      ((b.fill R).err = none → b.buf.length < (b.fill R).buf.length) ∧
      b.buf.length ≤ (b.fill R).buf.length := by
  have hpos : 0 < bufSize - b.buf.length := by omega
  have hsplit := h.splits b.rd _ hi hpos
  have hle := R.length_le b.rd (bufSize - b.buf.length)
  refine ⟨⟨h.keeps _ _ hi hpos, ?_, ?_⟩, ?_, ?_, ?_⟩
  · simp only [fill, List.length_append]; omega
  · cases he : (R.read b.rd (bufSize - b.buf.length)).err with
    | none => exact Or.inl he
    | some e =>
      obtain ⟨rfl, -⟩ := h.ends _ _ e hi hpos he
      obtain ⟨hd, hr⟩ := h.data_of_err hi hpos he
      exact Or.inr ⟨he, hr, by simpa [fill, hd] using hlt, by simpa [fill, hd] using hmem⟩
  · simp [rest, fill, hsplit]
  · intro he
    have := List.length_pos_iff.mpr (R.progress _ _ hpos he)
    simp only [fill, List.length_append]
    omega
  · simp [fill]

/-- The passes of ReadSlice agree with the specification on the whole stream. `fuel` covers
the bytes still to be filled and the final EOF. -/
private theorem readSliceLoop_spec (h : Delivers R I src) (delim : UInt8) (fuel : ℕ) {b : Bufio σ}
    (hb : Scanning I src delim b)
    (hf : bufSize - b.buf.length + (if b.err = none then 2 else 1) ≤ fuel) :
    Ready I (readSliceLoop R delim fuel b).next ∧
    ((readSliceLoop R delim fuel b).data, (readSliceLoop R delim fuel b).err,
      rest src (readSliceLoop R delim fuel b).next) = sliceSpec delim (rest src b) := by
  induction fuel generalizing b with
  | zero => split_ifs at hf <;> omega
  | succ fuel ih =>
    obtain ⟨hi, hlen, hpend⟩ := hb
    unfold readSliceLoop
    by_cases hmem : delim ∈ b.buf
    · have hnone : b.err = none := hpend.resolve_right fun hp => hp.2.2.2 hmem
      obtain ⟨htw, hlt⟩ := takeWhile_append_of_mem (src b.rd) hmem
      have hlong : ¬ bufSize ≤ (b.buf.takeWhile (· != delim)).length := by omega
      have hin : (b.buf.takeWhile (· != delim)).length < b.buf.length + (src b.rd).length := by
        omega
      rw [if_pos hmem]
      refine ⟨⟨hi, ?_, hnone⟩, ?_⟩
      · simp only [List.length_drop]; omega
      · simp only [sliceSpec, rest, htw, if_neg hlong, List.length_append, if_pos hin]
        rw [List.drop_append_of_le_length (by omega)]
    · rw [if_neg hmem]
      have htw := takeWhile_append_of_notMem (src b.rd) hmem
      rcases hpend with hnone | ⟨heof, hsrc, hlt, -⟩
      · simp only [hnone]
        split_ifs with hfull
        · have heq : b.buf.length = bufSize := le_antisymm hlen hfull
          refine ⟨⟨hi, Nat.zero_le _, rfl⟩, ?_⟩
          simp [sliceSpec, rest, htw, ← heq]
        · obtain ⟨hsc, hrest, hgrow, hle⟩ := scanning_fill h hi (not_le.mp hfull) hmem
          rw [← hrest]
          apply ih hsc
          rw [if_pos hnone] at hf
          split_ifs with he
          · have := hgrow he; omega
          · omega
      · have htw' : b.buf.takeWhile (· != delim) = b.buf := takeWhile_of_notMem hmem
        have hlong : ¬ bufSize ≤ b.buf.length := not_le.mpr hlt
        refine ⟨?_, ?_⟩
        · rw [heof]; exact ⟨hi, Nat.zero_le _, rfl⟩
        · simp [heof, sliceSpec, rest, hsrc, htw', hlong]

/-- ReadSlice on a buffered source is its specification on the remaining stream. -/
theorem readSlice_spec (h : Delivers R I src) (delim : UInt8) {b : Bufio σ} (hb : Ready I b) :
    Ready I (b.readSlice R delim).next ∧
    ((b.readSlice R delim).data, (b.readSlice R delim).err,
      rest src (b.readSlice R delim).next) = sliceSpec delim (rest src b) := by
  obtain ⟨hi, hlen, hnone⟩ := hb
  apply readSliceLoop_spec h delim _ ⟨hi, hlen, Or.inl hnone⟩
  rw [if_pos hnone]
  omega

end Spec

/-! ## Any source -/

theorem read_buf_le {R : IoReader σ} {b : Bufio σ} (k : ℕ) (hb : b.buf.length ≤ bufSize) :
    (b.read R k).next.buf.length ≤ bufSize := by
  unfold read
  by_cases hk : k = 0
  · rw [if_pos hk]
    split_ifs <;> exact hb
  rw [if_neg hk]
  by_cases hnil : b.buf = []
  · rw [if_pos hnil]
    cases b.err with
    | some e => exact hb
    | none =>
      have hle := R.length_le b.rd bufSize
      dsimp only
      split_ifs
      · exact hb
      · exact hb
      · simp only [List.length_drop]
        omega
  · rw [if_neg hnil]
    simp only [List.length_drop]
    omega

/-- On any source, ReadSlice leaves the buffer within its size, and without an error its line
fits the buffer and ends in the only delimiter. -/
theorem readSlice_line {R : IoReader σ} {b : Bufio σ} (delim : UInt8)
    (hb : b.buf.length ≤ bufSize) :
    (b.readSlice R delim).next.buf.length ≤ bufSize ∧
      ((b.readSlice R delim).err = none → (b.readSlice R delim).data = [] ∨
        ∃ line, (b.readSlice R delim).data = line ++ [delim] ∧ delim ∉ line ∧
          line.length < bufSize) := by
  unfold readSlice
  generalize bufSize + 2 = fuel
  induction fuel generalizing b with
  | zero => exact ⟨hb, fun _ => .inl rfl⟩
  | succ fuel ih =>
    unfold readSliceLoop
    by_cases hmem : delim ∈ b.buf
    · rw [if_pos hmem]
      refine ⟨?_, fun _ => .inr ⟨_, rfl, ?_, ?_⟩⟩
      · simp only [List.length_drop]
        omega
      · intro hin
        have hne := List.mem_takeWhile_imp hin
        simp at hne
      · have hlt := (takeWhile_append_of_mem [] hmem).2
        omega
    · rw [if_neg hmem]
      cases b.err with
      | some e => exact ⟨Nat.zero_le _, fun he => by cases he⟩
      | none =>
        dsimp only
        split_ifs with hfull
        · exact ⟨Nat.zero_le _, fun he => by cases he⟩
        · apply ih
          have hle := R.length_le b.rd (bufSize - b.buf.length)
          simp only [fill, List.length_append]
          omega

end Bufio

end GoLib
