import Mathlib.Data.Nat.Digits.Defs
import Mathlib.Data.List.Basic
import Mathlib.Data.List.Induction
import Mathlib.Tactic.IntervalCases
import Mathlib.Tactic.Ring

/-! Byte strings and the base-10 texts of integers, as package strconv writes and reads them. -/
namespace GoLib

abbrev Bytes := List UInt8

/-- Membership among byte strings is decided through this instance. -/
instance instLawfulBEqBytes : LawfulBEq Bytes := inferInstance

def ascii (cs : List Char) : Bytes := cs.map Char.toUInt8

def text (s : String) : Bytes := ascii s.toList

def isDigit (c : UInt8) : Bool := 48 ≤ c.toNat && c.toNat ≤ 57

/-- The number a digit string denotes; the empty string denotes zero. -/
def digitsValue (ds : Bytes) : ℕ := ds.foldl (fun n c => n * 10 + (c.toNat - 48)) 0

def natText (n : ℕ) : Bytes := ascii (Nat.toDigits 10 n)

/-- strconv.FormatInt in base 10. -/
def formatInt (n : ℤ) : Bytes :=
  if n < 0 then 45 :: natText n.natAbs else natText n.natAbs

theorem formatInt_natCast (n : ℕ) : formatInt (n : ℤ) = natText n := by
  rw [formatInt, if_neg (by omega), Int.natAbs_natCast]

private theorem digitChar_toUInt8 (d : ℕ) (hd : d < 10) :
    (Nat.digitChar d).toUInt8 = UInt8.ofNat (48 + d) := by
  interval_cases d <;> rfl

theorem natText_eq (n : ℕ) :
    natText n = (if n < 10 then [] else natText (n / 10)) ++ [UInt8.ofNat (48 + n % 10)] := by
  unfold natText ascii
  rw [Nat.toDigits_eq_if (by omega)]
  split_ifs with h
  · simp [digitChar_toUInt8 n h, Nat.mod_eq_of_lt h]
  · simp [digitChar_toUInt8 (n % 10) (Nat.mod_lt _ (by omega))]

theorem natText_ne_nil (n : ℕ) : natText n ≠ [] := by
  rw [natText_eq]
  simp

theorem toNat_digit (d : ℕ) (hd : d < 10) : (UInt8.ofNat (48 + d)).toNat = 48 + d := by
  rw [UInt8.toNat_ofNat']
  omega

theorem isDigit_of_mem_natText (n : ℕ) : ∀ c ∈ natText n, isDigit c = true := by
  induction n using Nat.strong_induction_on with
  | _ n ih =>
    intro c hc
    rw [natText_eq, List.mem_append, List.mem_singleton] at hc
    rcases hc with hc | rfl
    · split_ifs at hc with h
      · cases hc
      · exact ih (n / 10) (by omega) c hc
    · simp only [isDigit, toNat_digit (n % 10) (Nat.mod_lt _ (by omega))]
      have := Nat.mod_lt n (by omega : 0 < 10)
      simp
      omega

theorem digitsValue_append_digit (ds : Bytes) (c : UInt8) :
    digitsValue (ds ++ [c]) = digitsValue ds * 10 + (c.toNat - 48) := by
  simp [digitsValue]

@[simp] theorem digitsValue_natText (n : ℕ) : digitsValue (natText n) = n := by
  induction n using Nat.strong_induction_on with
  | _ n ih =>
    rw [natText_eq, digitsValue_append_digit, toNat_digit _ (Nat.mod_lt _ (by omega))]
    split_ifs with h
    · simp [digitsValue, Nat.mod_eq_of_lt h]
    · rw [ih (n / 10) (by omega)]
      omega

theorem length_natText_le (n k : ℕ) (hk : 0 < k) (hn : n < 10 ^ k) : (natText n).length ≤ k := by
  induction k generalizing n with
  | zero => omega
  | succ k ih =>
    rw [natText_eq]
    split_ifs with h
    · simp
    · have hpos : 0 < k := by
        rcases Nat.eq_zero_or_pos k with rfl | hk'
        · simp at hn; omega
        · exact hk'
      have := ih (n / 10) hpos (by rw [pow_succ] at hn; omega)
      simp only [List.length_append, List.length_singleton]
      omega

/-- strconv.ParseInt in base 10 with 64 bits: an optional sign and one or more digits whose
value fits. -/
def parseInt64 (s : Bytes) : Option Int64 :=
  let neg := s.head? = some 45
  let ds := if neg ∨ s.head? = some 43 then s.tail else s
  if ds = [] ∨ ¬ ds.all isDigit then none
  else if neg then
    if digitsValue ds ≤ 2 ^ 63 then some (Int64.ofInt (-(digitsValue ds : ℤ))) else none
  else if digitsValue ds < 2 ^ 63 then some (Int64.ofInt (digitsValue ds : ℤ)) else none

/-- strconv.ParseUint in base 10: digits only, below 2^64. -/
def parseUint64 (s : Bytes) : Option ℕ :=
  if s = [] ∨ ¬ s.all isDigit then none
  else if digitsValue s < 2 ^ 64 then some (digitsValue s) else none

theorem head_natText_isDigit (n : ℕ) {c : UInt8} {cs : Bytes} (h : natText n = c :: cs) :
    isDigit c = true :=
  isDigit_of_mem_natText n c (by rw [h]; exact List.mem_cons_self)

/-- The text of a positive number has no leading zero. -/
theorem head_natText_ge {n : ℕ} (hn : 0 < n) {c : UInt8} {cs : Bytes} (h : natText n = c :: cs) :
    49 ≤ c.toNat := by
  induction n using Nat.strong_induction_on generalizing cs with
  | _ n ih =>
    rw [natText_eq] at h
    split_ifs at h with hlt
    · obtain ⟨rfl, -⟩ := List.cons.inj h
      rw [toNat_digit _ (Nat.mod_lt _ (by omega)), Nat.mod_eq_of_lt hlt]
      omega
    · obtain ⟨d, ds, hd⟩ := List.exists_cons_of_ne_nil (natText_ne_nil (n / 10))
      rw [hd] at h
      obtain ⟨rfl, -⟩ := List.cons.inj h
      exact ih (n / 10) (by omega) (by omega) hd

/-- Zero is written as the one digit that is not allowed to lead. -/
theorem pos_of_natText {n : ℕ} {c : UInt8} {cs : Bytes} (h : natText n = c :: cs)
    (hc : 49 ≤ c.toNat) : 0 < n := by
  refine Nat.pos_of_ne_zero ?_
  rintro rfl
  obtain ⟨rfl, -⟩ := List.cons.inj h
  exact absurd hc (by decide)

/-- Digits without a leading zero are the text of their value. -/
theorem natText_digitsValue {c : UInt8} {cs : Bytes} (hc : 49 ≤ c.toNat)
    (h : ∀ d ∈ c :: cs, isDigit d = true) : natText (digitsValue (c :: cs)) = c :: cs := by
  have hdigit : ∀ {d : UInt8}, isDigit d = true →
      d.toNat - 48 < 10 ∧ UInt8.ofNat (48 + (d.toNat - 48)) = d := by
    intro d hd
    simp only [isDigit, Bool.and_eq_true, decide_eq_true_eq] at hd
    exact ⟨by omega, by rw [Nat.add_sub_cancel' hd.1, UInt8.ofNat_toNat]⟩
  induction cs using List.reverseRecOn with
  | nil =>
    obtain ⟨hlt, hback⟩ := hdigit (h c List.mem_cons_self)
    rw [natText_eq]
    simp [digitsValue, hlt, Nat.mod_eq_of_lt hlt, hback]
  | append_singleton cs d ih =>
    rw [← List.cons_append] at h ⊢
    obtain ⟨hcs, hd⟩ := List.forall_mem_append.mp h
    obtain ⟨hlt, hback⟩ := hdigit (hd d (List.mem_singleton_self d))
    have hpos := pos_of_natText (ih hcs) hc
    have hdiv : (digitsValue (c :: cs) * 10 + (d.toNat - 48)) / 10 = digitsValue (c :: cs) := by
      omega
    have hmod : (digitsValue (c :: cs) * 10 + (d.toNat - 48)) % 10 = d.toNat - 48 := by omega
    rw [digitsValue_append_digit, natText_eq, if_neg (by omega), hdiv, hmod, ih hcs, hback]

theorem parseInt64_formatInt (n : Int64) : parseInt64 (formatInt n.toInt) = some n := by
  have hlo := Int64.le_toInt n
  have hhi := Int64.toInt_lt n
  have hall : (natText n.toInt.natAbs).all isDigit = true := by
    rw [List.all_eq_true]
    exact isDigit_of_mem_natText _
  have hne := natText_ne_nil n.toInt.natAbs
  unfold formatInt
  split_ifs with hneg
  · have hle : n.toInt.natAbs ≤ 2 ^ 63 := by omega
    have hval : -(n.toInt.natAbs : ℤ) = n.toInt := by omega
    simp only [parseInt64, List.head?_cons, List.tail_cons, true_or, if_true, hne, hall,
      digitsValue_natText, hle, hval, not_true, or_self, if_false, Int64.ofInt_toInt]
  · obtain ⟨c, cs, hc⟩ := List.exists_cons_of_ne_nil hne
    have hdig := head_natText_isDigit _ hc
    have hm : c ≠ 45 := by rintro rfl; simp [isDigit] at hdig
    have hp : c ≠ 43 := by rintro rfl; simp [isDigit] at hdig
    have hlt : digitsValue (c :: cs) < 2 ^ 63 := by rw [← hc, digitsValue_natText]; omega
    have hval : (digitsValue (c :: cs) : ℤ) = n.toInt := by rw [← hc, digitsValue_natText]; omega
    rw [hc] at hall ⊢
    have hand : isDigit c = true ∧ ∀ x ∈ cs, isDigit x = true := by simpa using hall
    simp only [parseInt64, List.head?_cons, Option.some.injEq, hm, hp, or_self, if_false, hlt, hval,
      if_true, Int64.ofInt_toInt]
    simp [hand.1]
    exact hand.2

/-- Digits after a sign, if there is one. -/
def signed (neg : Bool) (ds : Bytes) : Bytes := if neg then 45 :: ds else ds

theorem formatInt_eq_signed (n : ℤ) : formatInt n = signed (decide (n < 0)) (natText n.natAbs) := by
  simp only [formatInt, signed, decide_eq_true_eq]

/-- A text without a leading zero that is read as a number is the number's own text. -/
theorem formatInt_of_parseInt64 {neg : Bool} {c : UInt8} {cs : Bytes} (hc : 49 ≤ c.toNat)
    (hall : ∀ d ∈ c :: cs, isDigit d = true) {n : Int64}
    (h : parseInt64 (signed neg (c :: cs)) = some n) :
    formatInt n.toInt = signed neg (c :: cs) := by
  have htext := natText_digitsValue hc hall
  have hpos := pos_of_natText htext hc
  have hgood : ¬ (c :: cs = [] ∨ ¬ (c :: cs).all isDigit = true) := by
    rw [not_or, not_not, List.all_eq_true]
    exact ⟨List.cons_ne_nil _ _, hall⟩
  generalize hv : digitsValue (c :: cs) = v at htext hpos
  cases neg with
  | true =>
    simp only [parseInt64, signed, if_true, List.head?_cons, List.tail_cons, true_or, if_neg hgood,
      hv] at h
    split_ifs at h with hle
    obtain rfl := Option.some.inj h
    rw [Int64.toInt_ofInt_of_le (by omega) (by omega), formatInt, if_pos (by omega),
      Int.natAbs_neg, Int.natAbs_natCast, htext]
    rfl
  | false =>
    have hm : c ≠ 45 := by rintro rfl; exact absurd hc (by decide)
    have hp : c ≠ 43 := by rintro rfl; exact absurd hc (by decide)
    simp only [parseInt64, signed, Bool.false_eq_true, if_false, List.head?_cons,
      Option.some.injEq, hm, hp, or_self, if_neg hgood, hv] at h
    split_ifs at h with hlt
    obtain rfl := Option.some.inj h
    rw [Int64.toInt_ofInt_of_le (by omega) (by omega), formatInt_natCast, htext]
    rfl

end GoLib
