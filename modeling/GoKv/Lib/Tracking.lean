import GoKv.Lib.Bufio

/-! A reader that behaves as a plainer one until it fails for good. What io.ReadFull and a
buffered reader make of such a source is what they make of the plainer one, up to the failure,
which they report. -/
namespace GoLib

variable {σ τ : Type*}

def Got.map (f : σ → τ) (g : Got σ) : Got τ := ⟨g.data, g.err, f g.next⟩

/-- The answer of the plainer reader, from a state that still behaves like it. -/
def Agrees (proj : σ → τ) (I : σ → Prop) (g : Got σ) (g₀ : Got τ) : Prop :=
  g.map proj = g₀ ∧ I g.next

def Breaks (Bad : σ → Prop) (code : ℕ) (g : Got σ) : Prop :=
  g.err = some (.transport code) ∧ Bad g.next

/-- From the states in `I`, a read of `R` answers as one of `R₀` does, or fails for good without
data. -/
structure Tracks (R : IoReader σ) (R₀ : IoReader τ) (proj : σ → τ) (I Bad : σ → Prop)
    (code : ℕ) : Prop where
  read : ∀ s k, I s → Agrees proj I (R.read s k) (R₀.read (proj s) k) ∨
    (R.read s k).data = [] ∧ Breaks Bad code (R.read s k)

variable {R : IoReader σ} {R₀ : IoReader τ} {proj : σ → τ} {I Bad : σ → Prop} {code : ℕ}

theorem Agrees.data {g : Got σ} {g₀ : Got τ} (h : Agrees proj I g g₀) : g.data = g₀.data := by
  rw [← h.1]; rfl

theorem Agrees.err {g : Got σ} {g₀ : Got τ} (h : Agrees proj I g g₀) : g.err = g₀.err := by
  rw [← h.1]; rfl

theorem Agrees.next {g : Got σ} {g₀ : Got τ} (h : Agrees proj I g g₀) : proj g.next = g₀.next := by
  rw [← h.1]; rfl

/-! ## io.ReadFull -/

private theorem readFullLoop_tracks (h : Tracks R R₀ proj I Bad code) (fuel : ℕ) {s : σ} (need : ℕ)
    (acc : Bytes) (hs : I s) :
    Agrees proj I (readFullLoop R fuel s need acc) (readFullLoop R₀ fuel (proj s) need acc) ∨
    Breaks Bad code (readFullLoop R fuel s need acc) := by
  induction fuel generalizing s need acc with
  | zero => exact .inl ⟨rfl, hs⟩
  | succ fuel ih =>
    unfold readFullLoop
    by_cases hz : need = 0
    · rw [if_pos hz, if_pos hz]
      exact .inl ⟨rfl, hs⟩
    · rw [if_neg hz, if_neg hz]
      rcases h.read s need hs with ha | ⟨hd, he, hbad⟩
      · simp only [← ha.data, ← ha.err, ← ha.next]
        cases (R.read s need).err with
        | none => exact ih _ _ ha.2
        | some e =>
          by_cases hle : need ≤ (R.read s need).data.length
          · simp only [if_pos hle]
            exact .inl ⟨rfl, ha.2⟩
          · simp only [if_neg hle]
            exact .inl ⟨rfl, ha.2⟩
      · simp only [he, hd, List.length_nil, Nat.le_zero, if_neg hz]
        exact .inr ⟨rfl, hbad⟩

theorem readFull_tracks (h : Tracks R R₀ proj I Bad code) {s : σ} (k : ℕ) (hs : I s) :
    Agrees proj I (readFull R s k) (readFull R₀ (proj s) k) ∨
    Breaks Bad code (readFull R s k) :=
  readFullLoop_tracks h k k [] hs

/-! ## A buffered reader over such a source -/

namespace Bufio

def map (f : σ → τ) (b : Bufio σ) : Bufio τ := ⟨f b.rd, b.buf, b.err⟩

theorem tracks (h : Tracks R R₀ proj I Bad code) :
    Tracks (toReader R) (toReader R₀) (map proj) (fun b => I b.rd) (fun b => Bad b.rd) code where
  read := by
    rintro ⟨rd, buf, err⟩ k hb
    change Agrees _ _ (read R ⟨rd, buf, err⟩ k) (read R₀ ⟨proj rd, buf, err⟩ k) ∨
      (read R ⟨rd, buf, err⟩ k).data = [] ∧ Breaks _ code (read R ⟨rd, buf, err⟩ k)
    unfold read
    by_cases hk : k = 0
    · simp only [if_pos hk]
      split_ifs <;> exact .inl ⟨rfl, hb⟩
    simp only [if_neg hk]
    by_cases hnil : buf = []
    · simp only [if_pos hnil]
      cases err with
      | some e => exact .inl ⟨rfl, hb⟩
      | none =>
        by_cases hbig : bufSize ≤ k
        · simp only [if_pos hbig]
          rcases h.read rd k hb with ha | ⟨hd, he, hbad⟩
          · simp only [← ha.data, ← ha.err, ← ha.next]
            exact .inl ⟨rfl, ha.2⟩
          · exact .inr ⟨hd, he, hbad⟩
        · simp only [if_neg hbig]
          rcases h.read rd bufSize hb with ha | ⟨hd, he, hbad⟩
          · simp only [← ha.data, ← ha.err, ← ha.next]
            split_ifs <;> exact .inl ⟨rfl, ha.2⟩
          · simp only [if_pos hd]
            exact .inr ⟨trivial, he, hbad⟩
    · simp only [if_neg hnil]
      exact .inl ⟨rfl, hb⟩

private theorem fill_tracks (h : Tracks R R₀ proj I Bad code) {b : Bufio σ} (hb : I b.rd) :
    ((b.fill R).map proj = (b.map proj).fill R₀ ∧ I (b.fill R).rd) ∨
    ((b.fill R).buf = b.buf ∧ (b.fill R).err = some (.transport code) ∧ Bad (b.fill R).rd) := by
  unfold fill map
  rcases h.read b.rd (bufSize - b.buf.length) hb with ha | ⟨hd, he, hbad⟩
  · simp only [← ha.data, ← ha.err, ← ha.next]
    exact .inl ⟨trivial, ha.2⟩
  · simp only [hd, List.append_nil]
    exact .inr ⟨trivial, he, hbad⟩

/-- The fuel lasts: a pass fills the buffer by a byte or meets an error, which the next reports. -/
theorem readSliceLoop_tracks (h : Tracks R R₀ proj I Bad code) (delim : UInt8) (fuel : ℕ)
    {b : Bufio σ} (hb : I b.rd) (hf : b.err = none → bufSize + 2 ≤ fuel + b.buf.length) :
    Agrees (map proj) (fun b => I b.rd) (readSliceLoop R delim fuel b)
      (readSliceLoop R₀ delim fuel (b.map proj)) ∨
    Breaks (fun b => Bad b.rd) code (readSliceLoop R delim fuel b) := by
  induction fuel generalizing b with
  | zero => exact .inl ⟨rfl, hb⟩
  | succ fuel ih =>
    have hfill := fill_tracks h hb
    have hgrow : (b.fill R).err = none → bufSize - b.buf.length ≠ 0 →
        b.buf.length < (b.fill R).buf.length := by
      intro hnone hroom
      have hne := R.progress b.rd _ (Nat.pos_of_ne_zero hroom) hnone
      rw [fill, List.length_append]
      exact Nat.lt_add_of_pos_right (List.length_pos_iff.mpr hne)
    obtain ⟨rd, buf, err⟩ := b
    change Agrees _ _ _ (readSliceLoop R₀ delim (fuel + 1) ⟨proj rd, buf, err⟩) ∨ _
    unfold readSliceLoop
    dsimp only at hf hgrow hb ⊢
    by_cases hd : delim ∈ buf
    · simp only [if_pos hd]
      exact .inl ⟨rfl, hb⟩
    simp only [if_neg hd]
    cases err with
    | some e => exact .inl ⟨rfl, hb⟩
    | none =>
      by_cases hfull : bufSize ≤ buf.length
      · simp only [if_pos hfull]
        exact .inl ⟨rfl, hb⟩
      simp only [if_neg hfull]
      have hf' := hf rfl
      rcases hfill with ⟨heq, hi⟩ | ⟨hbuf, herr, hbad⟩
      · change Agrees _ _ _ (readSliceLoop R₀ delim fuel (fill R₀ (map proj ⟨rd, buf, none⟩))) ∨ _
        rw [← heq]
        refine ih hi fun hnone => ?_
        have := hgrow hnone (by omega)
        omega
      · -- the failure is reported by the next pass
        obtain ⟨fuel, rfl⟩ := Nat.exists_eq_add_of_lt (show 0 < fuel by omega)
        rw [Nat.zero_add, readSliceLoop, hbuf, if_neg hd, herr]
        exact .inr ⟨rfl, hbad⟩

theorem readSlice_tracks (h : Tracks R R₀ proj I Bad code) (delim : UInt8) {b : Bufio σ}
    (hb : I b.rd) :
    Agrees (map proj) (fun b => I b.rd) (b.readSlice R delim)
      ((b.map proj).readSlice R₀ delim) ∨
    Breaks (fun b => Bad b.rd) code (b.readSlice R delim) :=
  readSliceLoop_tracks h delim _ hb fun _ => Nat.le_add_right _ _

end Bufio

end GoLib
