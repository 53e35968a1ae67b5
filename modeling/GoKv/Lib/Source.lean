import GoKv.Lib.Decimal

/-! Byte sources: the io.Reader contract, io.ReadFull, and sources that deliver a fixed byte
string in pieces followed by a separate EOF. -/
namespace GoLib

/-- The errors of packages io and bufio that callers tell apart, and any transport error. -/
inductive IoErr where
  | eof
  | unexpectedEOF
  | bufferFull
  | transport (code : ℕ)
  deriving DecidableEq, Repr

structure Got (σ : Type*) where
  data : Bytes
  err : Option IoErr
  next : σ

/-- An io.Reader as a state machine. A read that asks for bytes and reports no error
delivers at least one. -/
structure IoReader (σ : Type*) where
  read : σ → ℕ → Got σ
  length_le : ∀ s k, (read s k).data.length ≤ k
  progress : ∀ s k, 0 < k → (read s k).err = none → (read s k).data ≠ []

variable {σ : Type*}

/-- The states in `I` deliver exactly the bytes `rest`, and then a separate EOF. -/
structure Delivers (R : IoReader σ) (I : σ → Prop) (rest : σ → Bytes) : Prop where
  keeps : ∀ s k, I s → 0 < k → I (R.read s k).next
  splits : ∀ s k, I s → 0 < k → rest s = (R.read s k).data ++ rest (R.read s k).next
  ends : ∀ s k e, I s → 0 < k → (R.read s k).err = some e → e = .eof ∧ rest s = []

theorem Delivers.data_of_err {R : IoReader σ} {I : σ → Prop} {rest : σ → Bytes}
    (h : Delivers R I rest) {s : σ} {k : ℕ} {e : IoErr} (hs : I s) (hk : 0 < k)
    (he : (R.read s k).err = some e) :
    (R.read s k).data = [] ∧ rest (R.read s k).next = [] := by
  have hsplit := h.splits s k hs hk
  rw [(h.ends s k e hs hk he).2] at hsplit
  exact List.append_eq_nil_iff.mp hsplit.symm

/-! ## io.ReadFull -/

def readFullLoop (R : IoReader σ) : ℕ → σ → ℕ → Bytes → Got σ
  | 0, s, _, acc => ⟨acc, none, s⟩
  | fuel + 1, s, need, acc =>
    if need = 0 then ⟨acc, none, s⟩
    else
      let g := R.read s need
      match g.err with
      | none => readFullLoop R fuel g.next (need - g.data.length) (acc ++ g.data)
      | some e =>
        if need ≤ g.data.length then ⟨acc ++ g.data, none, g.next⟩
        else ⟨acc ++ g.data, some (if e = .eof ∧ acc ++ g.data ≠ [] then .unexpectedEOF else e),
          g.next⟩

/-- Every pass delivers a byte, so `k` passes are enough. -/
def readFull (R : IoReader σ) (s : σ) (k : ℕ) : Got σ := readFullLoop R k s k []

section ReadFull

variable {R : IoReader σ} {I : σ → Prop} {rest : σ → Bytes}

private theorem readFullLoop_enough (h : Delivers R I rest) (fuel : ℕ) {s : σ} {need : ℕ}
    (acc : Bytes) (hs : I s) (hf : need ≤ fuel) (hn : need ≤ (rest s).length) :
    (readFullLoop R fuel s need acc).data = acc ++ (rest s).take need ∧
    (readFullLoop R fuel s need acc).err = none ∧
    rest (readFullLoop R fuel s need acc).next = (rest s).drop need ∧
    I (readFullLoop R fuel s need acc).next := by
  induction fuel generalizing s need acc with
  | zero =>
    have hz : need = 0 := by omega
    subst hz
    simp [readFullLoop, hs]
  | succ fuel ih =>
    by_cases hz : need = 0
    · subst hz; simp [readFullLoop, hs]
    · have hpos : 0 < need := by omega
      simp only [readFullLoop, if_neg hz]
      cases he : (R.read s need).err with
      | some e =>
        have hnil := (h.ends s need e hs hpos he).2
        rw [hnil] at hn
        simp at hn
        omega
      | none =>
        have hsplit := h.splits s need hs hpos
        have hlen := R.length_le s need
        have hne := List.length_pos_iff.mpr (R.progress s need hpos he)
        have hrest : need - (R.read s need).data.length ≤ (rest (R.read s need).next).length := by
          rw [hsplit, List.length_append] at hn; omega
        obtain ⟨hd, hn', hr, hi⟩ := ih (acc ++ (R.read s need).data) (h.keeps s need hs hpos)
          (by omega) hrest
        refine ⟨?_, hn', ?_, hi⟩
        · rw [hd, hsplit, List.take_append, List.take_of_length_le hlen, List.append_assoc]
        · rw [hr, hsplit, List.drop_append, List.drop_of_length_le hlen, List.nil_append]

private theorem readFullLoop_short (h : Delivers R I rest) (fuel : ℕ) {s : σ} {need : ℕ}
    (acc : Bytes) (hs : I s) (hf : need ≤ fuel) (hn : (rest s).length < need) :
    (readFullLoop R fuel s need acc).data = acc ++ rest s ∧
    (readFullLoop R fuel s need acc).err =
      some (if acc ++ rest s = [] then .eof else .unexpectedEOF) ∧
    rest (readFullLoop R fuel s need acc).next = [] ∧
    I (readFullLoop R fuel s need acc).next := by
  induction fuel generalizing s need acc with
  | zero => omega
  | succ fuel ih =>
    have hpos : 0 < need := by omega
    simp only [readFullLoop, if_neg hpos.ne']
    cases he : (R.read s need).err with
    | some e =>
      obtain ⟨rfl, hnil⟩ := h.ends s need e hs hpos he
      obtain ⟨hd, hr⟩ := h.data_of_err hs hpos he
      simp only [hd, hnil, List.append_nil, List.length_nil, Nat.le_zero, hpos.ne', if_false,
        true_and, hr, h.keeps s need hs hpos, and_true]
      by_cases hacc : acc = [] <;> simp [hacc]
    | none =>
      have hsplit := h.splits s need hs hpos
      have hne := List.length_pos_iff.mpr (R.progress s need hpos he)
      have hlen := congrArg List.length hsplit
      rw [List.length_append] at hlen
      have hshort : (rest (R.read s need).next).length < need - (R.read s need).data.length := by
        omega
      obtain ⟨hd, he', hr, hi⟩ := ih (acc ++ (R.read s need).data) (h.keeps s need hs hpos)
        (by omega) hshort
      rw [List.append_assoc, ← hsplit] at hd he'
      exact ⟨hd, he', hr, hi⟩

/-- Enough bytes are left: ReadFull takes exactly what was asked for. -/
theorem readFull_enough (h : Delivers R I rest) {s : σ} {k : ℕ} (hs : I s)
    (hk : k ≤ (rest s).length) :
    (readFull R s k).data = (rest s).take k ∧ (readFull R s k).err = none ∧
    rest (readFull R s k).next = (rest s).drop k ∧ I (readFull R s k).next := by
  simpa [readFull] using readFullLoop_enough h k [] hs le_rfl hk

/-- The source ends first: what was left is taken, and the error says whether it was nothing. -/
theorem readFull_short (h : Delivers R I rest) {s : σ} {k : ℕ} (hs : I s)
    (hk : (rest s).length < k) :
    (readFull R s k).data = rest s ∧
    (readFull R s k).err = some (if rest s = [] then .eof else .unexpectedEOF) ∧
    rest (readFull R s k).next = [] ∧ I (readFull R s k).next := by
  simpa [readFull] using readFullLoop_short h k [] hs le_rfl hk

/-- What ReadFull returns and what is left after it are the source's bytes. -/
theorem readFull_splits (h : Delivers R I rest) {s : σ} (k : ℕ) (hs : I s) :
    I (readFull R s k).next ∧
      (readFull R s k).data ++ rest (readFull R s k).next = rest s := by
  by_cases hk : k ≤ (rest s).length
  · obtain ⟨hdata, -, hrest, hnext⟩ := readFull_enough h hs hk
    rw [hdata, hrest]
    exact ⟨hnext, List.take_append_drop _ _⟩
  · obtain ⟨hdata, -, hrest, hnext⟩ := readFull_short h hs (not_le.mp hk)
    rw [hdata, hrest]
    exact ⟨hnext, List.append_nil _⟩

end ReadFull

/-! ### ReadFull on any source -/

theorem readFull_keeps {R : IoReader σ} {P : σ → Prop} (hP : ∀ s k, P s → P (R.read s k).next)
    {s : σ} (k : ℕ) (hs : P s) : P (readFull R s k).next := by
  have hloop : ∀ fuel s need acc, P s → P (readFullLoop R fuel s need acc).next := by
    intro fuel
    induction fuel with
    | zero => exact fun _ _ _ hs => hs
    | succ fuel ih =>
      intro s need acc hs
      unfold readFullLoop
      by_cases hz : need = 0
      · rw [if_pos hz]
        exact hs
      · rw [if_neg hz]
        cases he : (R.read s need).err with
        | none =>
          simp only [he]
          exact ih _ _ _ (hP s need hs)
        | some e =>
          simp only [he]
          split_ifs <;> exact hP s need hs
  exact hloop k s k [] hs

theorem readFull_length {R : IoReader σ} {s : σ} {k : ℕ} (h : (readFull R s k).err = none) :
    (readFull R s k).data.length = k := by
  have hloop : ∀ fuel s need acc, need ≤ fuel → (readFullLoop R fuel s need acc).err = none →
      (readFullLoop R fuel s need acc).data.length = acc.length + need := by
    intro fuel
    induction fuel with
    | zero =>
      intro s need acc hf _
      change acc.length = _
      omega
    | succ fuel ih =>
      intro s need acc hf herr
      unfold readFullLoop at herr ⊢
      by_cases hz : need = 0
      · rw [if_pos hz, hz]
        rfl
      · rw [if_neg hz] at herr ⊢
        have hle := R.length_le s need
        cases he : (R.read s need).err with
        | none =>
          have hpos := List.length_pos_iff.mpr (R.progress s need (Nat.pos_of_ne_zero hz) he)
          simp only [he] at herr ⊢
          rw [ih _ _ _ (by omega) herr, List.length_append]
          omega
        | some e =>
          simp only [he] at herr ⊢
          split_ifs at herr ⊢ with hall
          rw [List.length_append]
          omega
  have hlen := hloop k s k [] le_rfl h
  rwa [List.length_nil, Nat.zero_add] at hlen

/-! ## Sources in pieces -/

/-- A source that hands out its bytes in the given non-empty pieces, a piece in several reads
when the caller asks for less, and then EOF. -/
structure Chunks where
  list : List Bytes
  nonempty : ∀ c ∈ list, c ≠ []

namespace Chunks

def rest (s : Chunks) : Bytes := s.list.flatten

def readList (k : ℕ) : List Bytes → Bytes × Option IoErr × List Bytes
  | [] => ([], some .eof, [])
  | c :: cs => if c.length ≤ k then (c, none, cs) else (c.take k, none, c.drop k :: cs)

private theorem readList_nonempty {k : ℕ} {cs : List Bytes} (h : ∀ c ∈ cs, c ≠ []) :
    ∀ c ∈ (readList k cs).2.2, c ≠ [] := by
  cases cs with
  | nil => simp [readList]
  | cons c cs =>
    simp only [readList]
    split_ifs with hk
    · exact fun d hd => h d (List.mem_cons_of_mem _ hd)
    · intro d hd
      rcases List.mem_cons.mp hd with rfl | hd
      · exact List.ne_nil_of_length_pos (by rw [List.length_drop]; omega)
      · exact h d (List.mem_cons_of_mem _ hd)

def read (s : Chunks) (k : ℕ) : Got Chunks :=
  ⟨(readList k s.list).1, (readList k s.list).2.1,
    ⟨(readList k s.list).2.2, readList_nonempty s.nonempty⟩⟩

def reader : IoReader Chunks where
  read := read
  length_le := by
    rintro ⟨cs, -⟩ k
    cases cs with
    | nil => simp [read, readList]
    | cons c cs =>
      simp only [read, readList]
      split_ifs with hk
      · exact hk
      · exact List.length_take_le _ _
  progress := by
    rintro ⟨cs, hne⟩ k hk he
    cases cs with
    | nil => simp [read, readList] at he
    | cons c cs =>
      have hc := hne c List.mem_cons_self
      have := List.length_pos_iff.mpr hc
      simp only [read, readList]
      split_ifs
      · exact hc
      · exact List.ne_nil_of_length_pos (by rw [List.length_take]; omega)

theorem delivers : Delivers reader (fun _ => True) rest where
  keeps _ _ _ _ := trivial
  splits := by
    rintro ⟨cs, -⟩ k - -
    cases cs with
    | nil => rfl
    | cons c cs =>
      simp only [rest, reader, read, readList]
      split_ifs <;> simp [← List.append_assoc]
  ends := by
    intro s k e _ _ he
    obtain ⟨cs, hne⟩ := s
    cases cs with
    | nil => exact ⟨(Option.some.inj he).symm, rfl⟩
    | cons c cs =>
      simp only [reader, read, readList] at he
      split_ifs at he

def whole (b : Bytes) : Chunks :=
  if h : b = [] then ⟨[], by simp⟩ else ⟨[b], by simp [h]⟩

@[simp] theorem rest_whole (b : Bytes) : (whole b).rest = b := by
  unfold whole
  split_ifs with h <;> simp [rest, h]

end Chunks

end GoLib
