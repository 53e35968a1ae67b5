import Mathlib.Algebra.Order.Ring.Nat
import Mathlib.Data.List.Basic
import Mathlib.Tactic.Common

/-! Patterns of stars and single elements. A search that goes back to the last star only, and
never to an earlier one, finds a match whenever there is one. -/
namespace GoLib

/-- A star stands for any elements, `one` for one that passes the test. -/
inductive Wild (α : Type*) where
  | star
  | one (test : α → Bool)

variable {α : Type*}

namespace Wild

def isStar : Wild α → Bool
  | star => true
  | one _ => false

def Matches : Wild α → List α → Prop
  | star, _ => True
  | one test, u => ∃ c, u = [c] ∧ test c = true

end Wild

/-- The input is a concatenation of pieces that the atoms match from left to right. -/
def MatchesAll : List (Wild α) → List α → Prop
  | [], v => v = []
  | a :: P, v => ∃ u w, v = u ++ w ∧ a.Matches u ∧ MatchesAll P w

/-! ## Matches -/

theorem matchesAll_star_iff {P : List (Wild α)} {v : List α} :
    MatchesAll (.star :: P) v ↔ ∃ w, w <:+ v ∧ MatchesAll P w := by
  constructor
  · rintro ⟨u, w, rfl, -, h⟩
    exact ⟨w, List.suffix_append u w, h⟩
  · rintro ⟨w, ⟨u, rfl⟩, h⟩
    exact ⟨u, w, rfl, trivial, h⟩

theorem matchesAll_star_of_suffix {P : List (Wild α)} {v w : List α} (hv : v <:+ w)
    (h : MatchesAll (.star :: P) v) : MatchesAll (.star :: P) w := by
  obtain ⟨x, hx, hP⟩ := matchesAll_star_iff.mp h
  exact matchesAll_star_iff.mpr ⟨x, hx.trans hv, hP⟩

theorem matchesAll_star_cons {P : List (Wild α)} {c : α} {v : List α} :
    MatchesAll (.star :: P) (c :: v) ↔ MatchesAll P (c :: v) ∨ MatchesAll (.star :: P) v := by
  constructor
  · intro h
    obtain ⟨w, hw, hP⟩ := matchesAll_star_iff.mp h
    rcases List.suffix_cons_iff.mp hw with rfl | hw
    · exact .inl hP
    · exact .inr (matchesAll_star_iff.mpr ⟨w, hw, hP⟩)
  · rintro (h | h)
    · exact matchesAll_star_iff.mpr ⟨_, List.suffix_rfl, h⟩
    · exact matchesAll_star_of_suffix (List.suffix_cons c v) h

theorem matchesAll_star_nil {P : List (Wild α)} :
    MatchesAll (.star :: P) [] ↔ MatchesAll P [] := by
  rw [matchesAll_star_iff]
  simp

theorem matchesAll_one_cons {test : α → Bool} {P : List (Wild α)} {c : α} {v : List α} :
    MatchesAll (.one test :: P) (c :: v) ↔ test c = true ∧ MatchesAll P v := by
  constructor
  · rintro ⟨u, w, hv, ⟨d, rfl, hd⟩, h⟩
    obtain ⟨rfl, rfl⟩ := List.cons.inj hv
    exact ⟨hd, h⟩
  · rintro ⟨hc, h⟩
    exact ⟨[c], v, rfl, ⟨c, rfl, hc⟩, h⟩

theorem not_matchesAll_one_nil {test : α → Bool} {P : List (Wild α)} :
    ¬ MatchesAll (.one test :: P) [] := by
  rintro ⟨u, w, hv, ⟨c, rfl, -⟩, -⟩
  cases hv

theorem matchesAll_nil_iff {P : List (Wild α)} :
    MatchesAll P [] ↔ P.all Wild.isStar = true := by
  induction P with
  | nil => exact iff_of_true rfl rfl
  | cons a P ih =>
    cases a with
    | star => rw [matchesAll_star_nil, ih]; rfl
    | one test => exact iff_of_false not_matchesAll_one_nil (by simp [Wild.isStar])

theorem matchesAll_dropWhile {P : List (Wild α)} {v : List α} :
    MatchesAll (.star :: P.dropWhile Wild.isStar) v ↔ MatchesAll (.star :: P) v := by
  induction P with
  | nil => rfl
  | cons a P ih =>
    cases a with
    | one test => rfl
    | star =>
      rw [List.dropWhile_cons_of_pos rfl, ih]
      constructor
      · exact fun h => matchesAll_star_iff.mpr ⟨v, List.suffix_rfl, h⟩
      · intro h
        obtain ⟨w, hw, hP⟩ := matchesAll_star_iff.mp h
        exact matchesAll_star_of_suffix hw hP

theorem matchesAll_append {Q P : List (Wild α)} (hQ : ∀ a ∈ Q, a.isStar = false) {v : List α}
    (h : MatchesAll (Q ++ P) v) :
    ∃ x z, v = x ++ z ∧ x.length = Q.length ∧ MatchesAll P z := by
  induction Q generalizing v with
  | nil => exact ⟨[], v, rfl, rfl, h⟩
  | cons a Q ih =>
    obtain ⟨ha, hones⟩ := List.forall_mem_cons.mp hQ
    cases a with
    | star => cases ha
    | one test =>
      obtain ⟨u, w, rfl, ⟨c, rfl, -⟩, hw⟩ := h
      obtain ⟨x, z, rfl, hx, hz⟩ := ih hones hw
      exact ⟨c :: x, z, rfl, congrArg Nat.succ hx, hz⟩

/-! ## The search -/

def Wild.advance : List (Wild α) → α → Option (List (Wild α))
  | one test :: P, c => if test c then some P else none
  | _, _ => none

theorem Wild.eq_cons_of_advance {P P' : List (Wild α)} {c : α} (h : advance P c = some P') :
    ∃ test, P = one test :: P' := by
  cases P with
  | nil => cases h
  | cons a P =>
    cases a with
    | star => cases h
    | one test =>
      rw [advance] at h
      split_ifs at h
      cases h
      exact ⟨test, rfl⟩

/-- `last` holds the atoms after the last star and the input they were last tried on. There is no
result when the fuel is used up. -/
def search : ℕ → List (Wild α) → List α → Option (List (Wild α) × List α) → Option Bool
  | 0, _, _, _ => none
  | _ + 1, P, [], _ => some (P.all Wild.isStar)
  | fuel + 1, .star :: P, c :: v, _ =>
    if P.all Wild.isStar then some true
    else search fuel (P.dropWhile Wild.isStar) (c :: v) (some (P.dropWhile Wild.isStar, c :: v))
  | fuel + 1, P, c :: v, last =>
    match Wild.advance P c, last with
    | some P, last => search fuel P v last
    | none, some (S, _ :: w) => search fuel S w (some (S, w))
    | none, _ => some false

/-- Since the last star single atoms have taken one element each. -/
def Since (P : List (Wild α)) (v : List α) : Option (List (Wild α) × List α) → Prop
  | none => True
  | some (S, w) => ∃ Q x, S = Q ++ P ∧ w = x ++ v ∧ x.length = Q.length ∧
      ∀ a ∈ Q, a.isStar = false

/-- The rest matches here, or the atoms after the last star match further on. -/
def Remains (P : List (Wild α)) (v : List α) (last : Option (List (Wild α) × List α)) : Prop :=
  MatchesAll P v ∨ ∃ S d w, last = some (S, d :: w) ∧ MatchesAll (.star :: S) w

/-- At the end of the input the atoms after the last star have no shorter input to match. -/
theorem remains_nil {P : List (Wild α)} {last : Option (List (Wild α) × List α)}
    (h : Since P [] last) : Remains P [] last ↔ MatchesAll P [] := by
  refine or_iff_left ?_
  rintro ⟨S, d, w, rfl, hS⟩
  obtain ⟨Q, x, rfl, hw, hlen, hQ⟩ := h
  obtain ⟨z, hz, hmatch⟩ := matchesAll_star_iff.mp hS
  obtain ⟨y, y', rfl, hy, -⟩ := matchesAll_append hQ hmatch
  have hle := hz.length_le
  rw [List.append_nil] at hw
  rw [← hw, List.length_cons] at hlen
  rw [List.length_append] at hle
  omega

/-- A new star makes the last one useless: what the atoms after that one could match further on,
the new star can. -/
theorem remains_star {P : List (Wild α)} {v : List α}
    {last : Option (List (Wild α) × List α)} (h : Since (.star :: P) v last) :
    Remains (.star :: P) v last ↔ MatchesAll (.star :: P) v := by
  refine ⟨?_, Or.inl⟩
  rintro (hmatch | ⟨S, d, w, rfl, hS⟩)
  · exact hmatch
  · obtain ⟨Q, x, rfl, hw, hlen, hQ⟩ := h
    obtain ⟨z, hz, hmatch⟩ := matchesAll_star_iff.mp hS
    obtain ⟨y, y', rfl, hy, hrest⟩ := matchesAll_append hQ hmatch
    refine matchesAll_star_of_suffix ?_ hrest
    -- both are ends of the same input, and `y'` is the shorter one
    have hy' : y' <:+ d :: w := (List.suffix_append y y').trans (hz.trans (List.suffix_cons d w))
    have hle := hz.length_le
    rw [List.length_append] at hle
    have hlen' := congrArg List.length hw
    rw [List.length_cons, List.length_append] at hlen'
    rw [hw] at hy'
    exact List.suffix_of_suffix_length_le hy' (List.suffix_append x v) (by omega)

/-- How much of the search is left, with at most `n` atoms and `m` elements. -/
def rank (n m : ℕ) (v : List α) : Option (List (Wild α) × List α) → ℕ
  | none => (n + 1) * ((m + 2) * (m + 2)) + (m + 1) * (m + 2) + v.length
  | some (S, w) => S.length * ((m + 2) * (m + 2)) + w.length * (m + 2) + v.length

private theorem rank_star {n m : ℕ} {P' : List (Wild α)} {v : List α}
    {last : Option (List (Wild α) × List α)} (hv : v.length ≤ m) (hP : P'.length ≤ n)
    (hS : ∀ S w, last = some (S, w) → P'.length < S.length) :
    rank n m v (some (P', v)) < rank n m v last := by
  have hstep : ∀ s, P'.length + 1 ≤ s →
      P'.length * ((m + 2) * (m + 2)) + (m + 2) * (m + 2) ≤ s * ((m + 2) * (m + 2)) := by
    intro s hs
    have := Nat.mul_le_mul_right ((m + 2) * (m + 2)) hs
    rwa [Nat.succ_mul] at this
  have hvm : v.length * (m + 2) ≤ m * (m + 2) := Nat.mul_le_mul_right _ hv
  have hsq : (m + 2) * (m + 2) = m * (m + 2) + 2 * (m + 2) := Nat.add_mul m 2 (m + 2)
  cases last with
  | none =>
    have := hstep (n + 1) (Nat.succ_le_succ hP)
    simp only [rank]
    omega
  | some q =>
    obtain ⟨S, w⟩ := q
    have := hstep S.length (hS S w rfl)
    simp only [rank]
    omega

private theorem rank_tail (n m : ℕ) (c : α) (v : List α) (last : Option (List (Wild α) × List α)) :
    rank n m v last < rank n m (c :: v) last := by
  cases last <;> simp [rank]

private theorem rank_retry {n m : ℕ} {S : List (Wild α)} {d : α} {w v : List α}
    (hw : w.length ≤ m) :
    rank n m w (some (S, w)) < rank n m v (some (S, d :: w)) := by
  simp only [rank, List.length_cons, Nat.succ_mul]
  omega

def Within (n m : ℕ) : Option (List (Wild α) × List α) → Prop
  | none => True
  | some (S, w) => S.length ≤ n ∧ w.length ≤ m

theorem matchesAll_advance {P : List (Wild α)} {c : α} {v : List α}
    (hP : ∀ P', P ≠ .star :: P') :
    MatchesAll P (c :: v) ↔ ∃ P', Wild.advance P c = some P' ∧ MatchesAll P' v := by
  cases P with
  | nil => exact iff_of_false nofun nofun
  | cons a P =>
    cases a with
    | star => exact absurd rfl (hP P)
    | one test =>
      rw [matchesAll_one_cons, Wild.advance]
      split_ifs with h <;> simp [h]

private theorem since_advance {P P' : List (Wild α)} {c : α} {v : List α}
    {last : Option (List (Wild α) × List α)} (hadv : Wild.advance P c = some P')
    (h : Since P (c :: v) last) : Since P' v last := by
  obtain ⟨test, rfl⟩ := Wild.eq_cons_of_advance hadv
  cases last with
  | none => trivial
  | some q =>
    obtain ⟨Q, x, hS, hw, hlen, hQ⟩ := h
    refine ⟨Q ++ [.one test], x ++ [c], ?_, ?_, ?_, ?_⟩
    · rw [hS, List.append_assoc]; rfl
    · rw [hw, List.append_assoc]; rfl
    · rw [List.length_append, List.length_append, hlen]; rfl
    · exact List.forall_mem_append.mpr ⟨hQ, List.forall_mem_singleton.mpr rfl⟩

theorem since_self (P : List (Wild α)) (v : List α) : Since P v (some (P, v)) :=
  ⟨[], [], rfl, rfl, rfl, nofun⟩

theorem remains_self {P : List (Wild α)} {v : List α} :
    Remains P v (some (P, v)) ↔ MatchesAll (.star :: P) v := by
  cases v with
  | nil =>
    rw [matchesAll_star_nil]
    refine or_iff_left ?_
    rintro ⟨S, d, w, h, -⟩
    cases h
  | cons c v =>
    rw [matchesAll_star_cons]
    refine or_congr_right ⟨?_, fun h => ⟨P, c, v, rfl, h⟩⟩
    rintro ⟨S, d, w, h, hS⟩
    cases h
    exact hS

theorem search_of_not_star (fuel : ℕ) {P : List (Wild α)} (hP : ∀ P', P ≠ .star :: P') {c : α}
    {v : List α} {last : Option (List (Wild α) × List α)} :
    search (fuel + 1) P (c :: v) last =
      match Wild.advance P c, last with
      | some P, last => search fuel P v last
      | none, some (S, _ :: w) => search fuel S w (some (S, w))
      | none, _ => some false := by
  cases P with
  | nil => rfl
  | cons a P =>
    cases a with
    | star => exact absurd rfl (hP P)
    | one test => rfl

private theorem length_lt_of_since {P S : List (Wild α)} {v w : List α}
    (h : Since (.star :: P) v (some (S, w))) : P.length < S.length := by
  obtain ⟨Q, x, rfl, -⟩ := h
  rw [List.length_append, List.length_cons]
  omega

/-- What is left of the input is also left of what the last star was tried on. -/
theorem exists_cons_of_since {P S : List (Wild α)} {c : α} {v w : List α}
    (h : Since P (c :: v) (some (S, w))) : ∃ d w', w = d :: w' := by
  obtain ⟨Q, x, -, hw, -⟩ := h
  cases x with
  | nil => exact ⟨c, v, hw⟩
  | cons d x => exact ⟨d, x ++ c :: v, hw⟩

/-- An element that is taken changes nothing about what remains. -/
theorem remains_advance {P P' : List (Wild α)} {c : α} {v : List α}
    {last : Option (List (Wild α) × List α)} (hadv : Wild.advance P c = some P') :
    Remains P (c :: v) last ↔ Remains P' v last := by
  obtain ⟨test, rfl⟩ := Wild.eq_cons_of_advance hadv
  have hone : ∀ P'', Wild.one test :: P' ≠ .star :: P'' := by simp
  refine or_congr_left ((matchesAll_advance hone).trans ⟨?_, fun h => ⟨P', hadv, h⟩⟩)
  rintro ⟨P'', h, hP''⟩
  rw [hadv] at h
  cases h
  exact hP''

private theorem not_matchesAll_of_advance {P : List (Wild α)} {c : α} {v : List α}
    (hone : ∀ P', P ≠ .star :: P') (hadv : Wild.advance P c = none) :
    ¬ MatchesAll P (c :: v) := by
  rw [matchesAll_advance hone, hadv]
  rintro ⟨P', h, -⟩
  cases h

/-- Once the rest does not match here, the atoms after the last star are all there is to try. -/
theorem remains_retry {P S : List (Wild α)} {v w : List α} {d : α} (hno : ¬ MatchesAll P v) :
    Remains P v (some (S, d :: w)) ↔ Remains S w (some (S, w)) := by
  rw [remains_self]
  refine (or_iff_right hno).trans ⟨?_, fun h => ⟨_, d, w, rfl, h⟩⟩
  rintro ⟨S', d', w', h, hS⟩
  cases h
  exact hS

/-- With fuel for every star at every position the search ends, and its answer is right. -/
theorem search_spec {n m : ℕ} (fuel : ℕ) {P : List (Wild α)} {v : List α}
    {last : Option (List (Wild α) × List α)} (hsince : Since P v last) (hP : P.length ≤ n)
    (hv : v.length ≤ m) (hlast : Within n m last) (hfuel : rank n m v last < fuel) :
    ∃ b, search fuel P v last = some b ∧ (b = true ↔ Remains P v last) := by
  induction fuel generalizing P v last with
  | zero => exact absurd hfuel (Nat.not_lt_zero _)
  | succ fuel ih =>
    have hrank := Nat.le_of_lt_succ hfuel
    cases v with
    | nil =>
      refine ⟨P.all Wild.isStar, by simp only [search], ?_⟩
      rw [remains_nil hsince, matchesAll_nil_iff]
    | cons c v =>
      by_cases hstar : ∃ P', P = .star :: P'
      · obtain ⟨P, rfl⟩ := hstar
        rw [remains_star hsince, search]
        split_ifs with hall
        · refine ⟨true, rfl, iff_of_true rfl (matchesAll_star_iff.mpr ⟨[], List.nil_suffix, ?_⟩)⟩
          exact matchesAll_nil_iff.mpr hall
        · -- the star is remembered and tried on nothing first
          have hdrop := (List.dropWhile_suffix Wild.isStar (l := P)).length_le
          rw [← matchesAll_dropWhile, ← remains_self]
          rw [List.length_cons] at hP
          refine ih (since_self _ _) (by omega) hv ⟨by omega, hv⟩ ?_
          refine Nat.lt_of_lt_of_le (rank_star hv (by omega) ?_) hrank
          rintro S w rfl
          exact Nat.lt_of_le_of_lt hdrop (length_lt_of_since hsince)
      · have hone : ∀ P', P ≠ .star :: P' := fun P' h => hstar ⟨P', h⟩
        rw [search_of_not_star fuel hone]
        cases hadv : Wild.advance P c with
        | some P' =>
          obtain ⟨test, htest⟩ := Wild.eq_cons_of_advance hadv
          have hlen := congrArg List.length htest
          rw [List.length_cons] at hv hlen
          rw [remains_advance hadv]
          refine ih (since_advance hadv hsince) (by omega) (by omega) hlast ?_
          exact Nat.lt_of_lt_of_le (rank_tail n m c v last) hrank
        | none =>
          have hno := not_matchesAll_of_advance (v := v) hone hadv
          cases last with
          | none =>
            refine ⟨false, rfl, iff_of_false Bool.false_ne_true ?_⟩
            rintro (h | ⟨S, d, w, h, -⟩)
            · exact hno h
            · cases h
          | some q =>
            obtain ⟨S, w⟩ := q
            obtain ⟨d, w, rfl⟩ := exists_cons_of_since hsince
            obtain ⟨hS, hwm⟩ := hlast
            rw [List.length_cons] at hwm
            rw [remains_retry hno]
            refine ih (since_self _ _) hS (by omega) ⟨hS, by omega⟩ ?_
            exact Nat.lt_of_lt_of_le (rank_retry (by omega)) hrank

/-- A search from the start ends within a bound, with whether there is a match. -/
theorem search_all {n : ℕ} {P : List (Wild α)} (hP : P.length ≤ n) (v : List α) :
    ∃ b, search ((n + 2) * (v.length + 2) * (v.length + 2)) P v none = some b ∧
      (b = true ↔ MatchesAll P v) := by
  have hsince : Since P v none := trivial
  have hwithin : Within n v.length (none : Option (List (Wild α) × List α)) := trivial
  have hfuel : rank n v.length v (none : Option (List (Wild α) × List α)) <
      (n + 2) * (v.length + 2) * (v.length + 2) := by
    have hn : (n + 2) * ((v.length + 2) * (v.length + 2)) = (n + 1) * ((v.length + 2) *
        (v.length + 2)) + (v.length + 2) * (v.length + 2) := Nat.succ_mul _ _
    have hv : (v.length + 2) * (v.length + 2) = (v.length + 1) * (v.length + 2) +
        (v.length + 2) := Nat.succ_mul _ _
    rw [Nat.mul_assoc]
    simp only [rank]
    omega
  obtain ⟨b, hb, hiff⟩ := search_spec _ hsince hP le_rfl hwithin hfuel
  refine ⟨b, hb, hiff.trans (or_iff_left ?_)⟩
  rintro ⟨S, d, w, h, -⟩
  cases h

end GoLib
