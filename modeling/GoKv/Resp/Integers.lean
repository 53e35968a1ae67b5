import GoKv.Resp.Reader

/-! Header integers, for either size of int. The bound is checked after each digit has been added,
so the loop follows the value modulo the word size: with 64 bits no number wraps past the check,
with 32 bits some do. -/
namespace GoKv.Resp
open GoLib

/-- An optional minus sign and one or more digits, of magnitude at most `2 ^ 30`. -/
inductive IsInt : Bytes → ℤ → Prop where
  | plain {ds : Bytes} (hne : ds ≠ []) (hd : ∀ c ∈ ds, isDigit c = true)
      (hle : digitsValue ds ≤ 2 ^ 30) : IsInt ds (digitsValue ds)
  | minus {ds : Bytes} (hne : ds ≠ []) (hd : ∀ c ∈ ds, isDigit c = true)
      (hle : digitsValue ds ≤ 2 ^ 30) : IsInt (45 :: ds) (-(digitsValue ds : ℤ))

theorem not_isDigit_iff {c : UInt8} : c < 48 ∨ 57 < c ↔ isDigit c = false := by
  simp only [isDigit, UInt8.lt_iff_toNat_lt, UInt8.reduceToNat, Bool.and_eq_false_iff,
    decide_eq_false_iff_not]
  omega

theorem not_isDigit_minus {ds : Bytes} (h : ∀ c ∈ 45 :: ds, isDigit c = true) : False := by
  have h45 := h 45 List.mem_cons_self
  exact absurd h45 (by decide)

theorem IsInt.lf_notMem {t : Bytes} {n : ℤ} (h : IsInt t n) : 10 ∉ t := by
  have hdig : ∀ ds : Bytes, (∀ c ∈ ds, isDigit c = true) → 10 ∉ ds := by
    intro ds hd hmem
    simpa [isDigit] using hd 10 hmem
  cases h with
  | plain _ hd _ => exact hdig _ hd
  | minus _ hd _ => simpa using hdig _ hd

/-! ## The digit loop -/

def addDigits (a : ℕ) (ds : Bytes) : ℕ := ds.foldl (fun n c => n * 10 + (c.toNat - 48)) a

theorem addDigits_cons (a : ℕ) (c : UInt8) (cs : Bytes) :
    addDigits a (c :: cs) = addDigits (a * 10 + (c.toNat - 48)) cs := by
  unfold addDigits
  rw [List.foldl_cons]

private theorem addDigits_zero (ds : Bytes) : addDigits 0 ds = digitsValue ds := rfl

private theorem le_addDigits (a : ℕ) (ds : Bytes) : a ≤ addDigits a ds := by
  induction ds generalizing a with
  | nil => exact le_rfl
  | cons c cs ih =>
    have hrest := ih (a * 10 + (c.toNat - 48))
    rw [addDigits_cons]
    omega

private theorem digitsValue_le_of_isPrefix {p ds : Bytes} (h : p <+: ds) :
    digitsValue p ≤ digitsValue ds := by
  obtain ⟨t, rfl⟩ := h
  have hsplit : digitsValue (p ++ t) = addDigits (digitsValue p) t := by
    unfold digitsValue addDigits
    exact List.foldl_append
  rw [hsplit]
  exact le_addDigits _ t

/-- One pass on a wrapped accumulator wraps the value itself. -/
theorem wrap_digit (w a : ℕ) {c : UInt8} (hc : isDigit c = true) :
    wrap w (wrap w a * 10 + (c.toNat - 48)) = wrap w (a * 10 + (c.toNat - 48) : ℕ) := by
  have hrange : 48 ≤ c.toNat ∧ c.toNat ≤ 57 := by simpa [isDigit] using hc
  have hval : ((a * 10 + (c.toNat - 48) : ℕ) : ℤ) = (a : ℤ) * 10 + ((c.toNat : ℤ) - 48) := by
    omega
  unfold wrap
  rw [hval, ← Int.bmod_add_bmod, Int.bmod_mul_bmod, Int.bmod_add_bmod]

/-- The digit loop accepts exactly the digits along which the wrapped value stays within the
bound. -/
theorem parseDigits_eq_ok_iff (w : ℕ) (ds : Bytes) (a : ℕ) (n : ℤ) :
    parseDigits w ds (wrap w a) = .ok n ↔
      (∀ c ∈ ds, isDigit c = true) ∧
        (∀ p, p ≠ [] → p <+: ds → wrap w (addDigits a p) ≤ 2 ^ 30) ∧
        n = wrap w (addDigits a ds) := by
  induction ds generalizing a with
  | nil =>
    have hnone : ∀ p : Bytes, p ≠ [] → p <+: [] → wrap w (addDigits a p) ≤ 2 ^ 30 :=
      fun p hp h => absurd (List.prefix_nil.mp h) hp
    constructor
    · intro h
      exact ⟨by simp, hnone, (Except.ok.inj h).symm⟩
    · rintro ⟨-, -, rfl⟩
      rfl
  | cons c cs ih =>
    rw [parseDigits]
    by_cases hc : isDigit c = true
    · have hcond : ¬ (c < 48 ∨ 57 < c) := by rw [not_isDigit_iff]; simp [hc]
      rw [if_neg hcond, wrap_digit w a hc]
      -- the check looks at the prefix that ends with this digit
      by_cases hbig : 2 ^ 30 < wrap w (a * 10 + (c.toNat - 48) : ℕ)
      · rw [if_pos hbig]
        constructor
        · intro h
          cases h
        · rintro ⟨-, hp, -⟩
          have hone := hp [c] (by simp) (by simp)
          exact absurd hbig (not_lt.mpr hone)
      · rw [if_neg hbig, ih]
        have hpre : (∀ p, p ≠ [] → p <+: c :: cs → wrap w (addDigits a p) ≤ 2 ^ 30) ↔
            ∀ p, p ≠ [] → p <+: cs →
              wrap w (addDigits (a * 10 + (c.toNat - 48)) p) ≤ 2 ^ 30 := by
          constructor
          · intro h p _ hp
            exact h (c :: p) (by simp) ((List.prefix_cons_inj c).mpr hp)
          · intro h p hne hp
            obtain ⟨d, q, rfl⟩ := List.exists_cons_of_ne_nil hne
            obtain ⟨rfl, hq⟩ := List.cons_prefix_cons.mp hp
            rw [addDigits_cons]
            by_cases hnil : q = []
            · subst hnil
              exact not_lt.mp hbig
            · exact h q hnil hq
        rw [hpre, addDigits_cons]
        simp [hc]
    · have hcond : c < 48 ∨ 57 < c := not_isDigit_iff.mpr (by simpa using hc)
      rw [if_pos hcond]
      simp [hc]

theorem parseDigits_zero_eq_ok_iff (w : ℕ) (ds : Bytes) (n : ℤ) :
    parseDigits w ds 0 = .ok n ↔
      (∀ c ∈ ds, isDigit c = true) ∧ (∀ p, p <+: ds → wrap w (digitsValue p) ≤ 2 ^ 30) ∧
        n = wrap w (digitsValue ds) := by
  have hzero : wrap w 0 = 0 := Int.zero_bmod
  have hloop := parseDigits_eq_ok_iff w ds 0 n
  rw [Nat.cast_zero, hzero] at hloop
  rw [hloop, addDigits_zero]
  refine and_congr_right fun _ => and_congr_left fun _ => ?_
  constructor
  · intro h p hp
    by_cases hnil : p = []
    · subst hnil
      change wrap w 0 ≤ 2 ^ 30
      rw [hzero]
      norm_num
    · exact h p hnil hp
  · intro h p _ hp
    exact h p hp

/-! ## Numbers that wrap -/

/-- Digits that pass every check although their value is past the bound, on a machine whose int
has `w` bits. -/
structure WrapsPast (w : ℕ) (ds : Bytes) : Prop where
  digits : ∀ c ∈ ds, isDigit c = true
  past : 2 ^ 30 < digitsValue ds
  passes : ∀ p, p <+: ds → wrap w (digitsValue p) ≤ 2 ^ 30

theorem WrapsPast.ne_nil {w : ℕ} {ds : Bytes} (h : WrapsPast w ds) : ds ≠ [] := by
  rintro rfl
  exact absurd h.past (by decide)

/-- A number, with or without its sign, whose digits wrap past the bound. -/
def Wraps (w : ℕ) (b : Bytes) : Prop := ∃ ds, (b = ds ∨ b = 45 :: ds) ∧ WrapsPast w ds

/-- What parseInt makes of a byte string is what the string says. -/
def ReadsExactly (w : ℕ) (b : Bytes) : Prop := ∀ n, parseInt w b = .ok n ↔ IsInt b n

theorem wrap_of_le {w : ℕ} (hw : 32 ≤ w) {n : ℤ} (hlo : -(2 ^ 30) ≤ n) (hhi : n ≤ 2 ^ 30) :
    wrap w n = n := by
  have hpow : (2 : ℤ) ^ 32 ≤ 2 ^ w := pow_le_pow_right₀ (by norm_num) hw
  unfold wrap
  apply Int.bmod_eq_of_le_mul_two
  · push_cast
    omega
  · push_cast
    omega

/-- Digits that do not wrap are read exactly when their value is within the bound. -/
theorem parseDigits_exact {w : ℕ} (hw : 32 ≤ w) {ds : Bytes} (hwrap : ¬ WrapsPast w ds) (n : ℤ) :
    parseDigits w ds 0 = .ok n ↔
      (∀ c ∈ ds, isDigit c = true) ∧ digitsValue ds ≤ 2 ^ 30 ∧ n = digitsValue ds := by
  rw [parseDigits_zero_eq_ok_iff w]
  have hsmall : ∀ {p : Bytes}, digitsValue p ≤ 2 ^ 30 →
      wrap w (digitsValue p) = digitsValue p := by
    intro p hp
    apply wrap_of_le hw
    · omega
    · exact_mod_cast hp
  constructor
  · rintro ⟨hd, hp, rfl⟩
    have hle : digitsValue ds ≤ 2 ^ 30 := by
      by_contra hgt
      exact hwrap ⟨hd, not_le.mp hgt, hp⟩
    exact ⟨hd, hle, hsmall hle⟩
  · rintro ⟨hd, hle, rfl⟩
    refine ⟨hd, fun p hp => ?_, (hsmall hle).symm⟩
    have hple := (digitsValue_le_of_isPrefix hp).trans hle
    rw [hsmall hple]
    exact_mod_cast hple

theorem parseInt_plain (w : ℕ) {ds : Bytes} (hne : ds ≠ []) (hd : ∀ c ∈ ds, isDigit c = true) :
    parseInt w ds = parseDigits w ds 0 := by
  obtain ⟨c, cs, rfl⟩ := List.exists_cons_of_ne_nil hne
  have hc : c ≠ 45 := by
    rintro rfl
    exact not_isDigit_minus hd
  rw [parseInt, if_neg hc]

theorem parseInt_minus (w : ℕ) {ds : Bytes} (hne : ds ≠ []) :
    parseInt w (45 :: ds) = (parseDigits w ds 0).map fun n => wrap w (-n) := by
  rw [parseInt, if_pos rfl, if_neg hne]

theorem readsExactly_of_not_wraps {w : ℕ} (hw : 32 ≤ w) {b : Bytes} (h : ¬ Wraps w b) :
    ReadsExactly w b := by
  intro n
  have hdigits : ∀ {ds : Bytes}, b = ds ∨ b = 45 :: ds → ∀ m,
      (parseDigits w ds 0 = .ok m ↔
        (∀ c ∈ ds, isDigit c = true) ∧ digitsValue ds ≤ 2 ^ 30 ∧ m = digitsValue ds) :=
    fun hb m => parseDigits_exact hw (fun hds => h ⟨_, hb, hds⟩) m
  have hneg : ∀ {m : ℕ}, m ≤ 2 ^ 30 → wrap w (-(m : ℤ)) = -(m : ℤ) := by
    intro m hm
    apply wrap_of_le hw
    · omega
    · omega
  constructor
  · intro hp
    cases b with
    | nil => cases hp
    | cons c cs =>
      rw [parseInt] at hp
      split_ifs at hp with hc hcs
      · subst hc
        cases hm : parseDigits w cs 0 with
        | error e => rw [hm] at hp; cases hp
        | ok m =>
          rw [hm] at hp
          obtain ⟨hd, hle, rfl⟩ := (hdigits (.inr rfl) m).mp hm
          have hn : wrap w (-(digitsValue cs : ℤ)) = n := Except.ok.inj hp
          rw [← hn, hneg hle]
          exact .minus hcs hd hle
      · obtain ⟨hd, hle, rfl⟩ := (hdigits (.inl rfl) n).mp hp
        exact .plain (List.cons_ne_nil c cs) hd hle
  · intro hint
    cases hint with
    | plain hne hd hle =>
      rw [parseInt_plain w hne hd]
      exact (hdigits (.inl rfl) _).mpr ⟨hd, hle, rfl⟩
    | minus hne hd hle =>
      have hm := (hdigits (.inr rfl) _).mpr ⟨hd, hle, rfl⟩
      rw [parseInt_minus w hne, hm]
      exact congrArg Except.ok (hneg hle)

/-- With room for ten times the bound, the first prefix past it is caught. -/
theorem not_wrapsPast {w : ℕ} (hw : 35 ≤ w) (ds : Bytes) : ¬ WrapsPast w ds := by
  induction ds using List.reverseRecOn with
  | nil => exact fun h => h.ne_nil rfl
  | append_singleton ds c ih =>
    intro h
    have hc : isDigit c = true := h.digits c (by simp)
    have hrange : 48 ≤ c.toNat ∧ c.toNat ≤ 57 := by simpa [isDigit] using hc
    by_cases hpast : 2 ^ 30 < digitsValue ds
    · exact ih ⟨fun d hd => h.digits d (List.mem_append_left _ hd), hpast,
        fun p hp => h.passes p (hp.trans (List.prefix_append ds [c]))⟩
    · have hval := digitsValue_append_digit ds c
      have hpow : (2 : ℤ) ^ 35 ≤ 2 ^ w := pow_le_pow_right₀ (by norm_num) hw
      have hsame : wrap w (digitsValue (ds ++ [c])) = digitsValue (ds ++ [c]) := by
        unfold wrap
        apply Int.bmod_eq_of_le_mul_two
        · push_cast
          omega
        · push_cast
          omega
      have hcaught := h.passes _ List.prefix_rfl
      have hbig := h.past
      rw [hsame] at hcaught
      omega

theorem parseInt_eq_ok_iff (b : Bytes) (n : ℤ) : parseInt 64 b = .ok n ↔ IsInt b n := by
  have hwraps : ¬ Wraps 64 b := by
    rintro ⟨ds, -, hds⟩
    exact not_wrapsPast (by decide) ds hds
  exact readsExactly_of_not_wraps (by decide) hwraps n

private theorem not_isInt_of_wraps {w : ℕ} {b : Bytes} (h : Wraps w b) (n : ℤ) : ¬ IsInt b n := by
  obtain ⟨ds, hb, hds⟩ := h
  have hbig := hds.past
  intro hint
  rcases hb with rfl | rfl
  · cases hint with
    | plain _ _ hle => omega
    | minus _ _ _ => exact not_isDigit_minus hds.digits
  · generalize hx : 45 :: ds = x at hint
    cases hint with
    | plain _ hd _ =>
      rw [← hx] at hd
      exact not_isDigit_minus hd
    | minus _ _ hle =>
      obtain rfl := (List.cons.inj hx).2
      omega

/-- A number that wraps is accepted. -/
theorem parseInt_of_wraps {w : ℕ} {b : Bytes} (h : Wraps w b) : ∃ n, parseInt w b = .ok n := by
  obtain ⟨ds, hb, hds⟩ := h
  have hm := (parseDigits_zero_eq_ok_iff w ds _).mpr ⟨hds.digits, hds.passes, rfl⟩
  rcases hb with rfl | rfl
  · exact ⟨_, (parseInt_plain w hds.ne_nil hds.digits).trans hm⟩
  · exact ⟨_, by rw [parseInt_minus w hds.ne_nil, hm]; rfl⟩

/-- Whatever the bytes, parseInt on a 64-bit int reads exactly the integers of the grammar; on a
32-bit int it does so exactly for the bytes that do not wrap. -/
theorem parseInt_exact_iff (b : Bytes) :
    ReadsExactly 64 b ∧ (ReadsExactly 32 b ↔ ¬ Wraps 32 b) := by
  constructor
  · intro n
    exact parseInt_eq_ok_iff b n
  · constructor
    · intro h hw
      obtain ⟨n, hn⟩ := parseInt_of_wraps hw
      exact not_isInt_of_wraps hw n ((h n).mp hn)
    · intro hw
      exact readsExactly_of_not_wraps le_rfl hw

/-- On a 32-bit int the digits of `2 ^ 32 + 5` are read as 5. -/
theorem parseInt_wraps_to_five :
    parseInt 32 (ascii ['4', '2', '9', '4', '9', '6', '7', '3', '0', '1']) = .ok 5 ∧
      ¬ ReadsExactly 32 (ascii ['4', '2', '9', '4', '9', '6', '7', '3', '0', '1']) := by
  have hread : parseInt 32 (ascii ['4', '2', '9', '4', '9', '6', '7', '3', '0', '1']) = .ok 5 := by
    decide
  refine ⟨hread, fun h => ?_⟩
  have hint := (h 5).mp hread
  have hsame := (parseInt_eq_ok_iff _ _).mpr hint
  exact absurd hsame (by decide)

end GoKv.Resp
