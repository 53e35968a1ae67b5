import GoKv.Glob
import GoKv.Lib.Wildcard

/-! What a glob pattern means: the atoms it is made of, and the byte strings they match one after
the other. -/
namespace GoKv.Glob
open GoLib

inductive Member where
  | byte (c : UInt8)
  | range (a b : UInt8)
  deriving DecidableEq

/-- A range holds the signed bytes between its ends, whichever is first. -/
def Member.accepts (value : UInt8) : Member → Bool
  | byte c => c == value
  | range a b =>
    (a.toInt8 ≤ value.toInt8 && value.toInt8 ≤ b.toInt8) ||
      (b.toInt8 ≤ value.toInt8 && value.toInt8 ≤ a.toInt8)

inductive Atom where
  | star
  | any
  | byte (c : UInt8)
  | oneOf (negated : Bool) (members : List Member)
  deriving DecidableEq

def Atom.wild : Atom → Wild UInt8
  | star => .star
  | any => .one fun _ => true
  | byte c => .one fun value => c == value
  | oneOf negated members => .one fun value => xor negated (members.any (Member.accepts value))

def consMember (m : Member) (r : List Member × Bytes) : List Member × Bytes := (m :: r.1, r.2)

/-- The members of a class up to the first bracket at a member position or to the end of the
pattern, and what follows the class. -/
def classMembers : Bytes → List Member × Bytes
  | [] => ([], [])
  | c :: rest =>
    if c = 93 then ([], rest)
    else
      match rest with
      | [] => ([.byte c], [])
      | d :: rest =>
        if c = 92 then consMember (.byte d) (classMembers rest)
        else
          match rest with
          | [] => consMember (.byte c) (classMembers [d])
          | e :: rest =>
            if d = 45 then consMember (.range c e) (classMembers rest)
            else consMember (.byte c) (classMembers (d :: e :: rest))

/-- The atom a pattern begins with, and what follows it. -/
def firstAtom (c : UInt8) (rest : Bytes) : Atom × Bytes :=
  if c = 42 then (.star, rest)
  else if c = 63 then (.any, rest)
  else if c = 92 then
    match rest with
    | [] => (.byte 92, [])
    | d :: rest => (.byte d, rest)
  else if c = 91 then
    if rest.head? = some 94 then
      (.oneOf true (classMembers rest.tail).1, (classMembers rest.tail).2)
    else (.oneOf false (classMembers rest).1, (classMembers rest).2)
  else (.byte c, rest)

private theorem classMembers_close (rest : Bytes) : classMembers (93 :: rest) = ([], rest) := by
  rw [classMembers.eq_def]
  rfl

private theorem classMembers_last {c : UInt8} (hc : c ≠ 93) :
    classMembers [c] = ([.byte c], []) := by
  rw [classMembers.eq_def]
  exact if_neg hc

private theorem classMembers_escape (d : UInt8) (rest : Bytes) :
    classMembers (92 :: d :: rest) = consMember (.byte d) (classMembers rest) := by
  rw [classMembers.eq_def]
  rfl

private theorem classMembers_range {c : UInt8} (hc : c ≠ 93) (hd : c ≠ 92) (e : UInt8)
    (rest : Bytes) :
    classMembers (c :: 45 :: e :: rest) = consMember (.range c e) (classMembers rest) := by
  rw [classMembers.eq_def]
  simp [hc, hd]

private theorem classMembers_byte {c : UInt8} (hc : c ≠ 93) (hd : c ≠ 92) {rest : Bytes}
    (hr : ∀ e rest', rest ≠ 45 :: e :: rest') :
    classMembers (c :: rest) = consMember (.byte c) (classMembers rest) := by
  rw [classMembers.eq_def]
  cases rest with
  | nil => simp [hc, classMembers, consMember]
  | cons d rest =>
    cases rest with
    | nil => simp [hc, hd]
    | cons e rest =>
      have h45 : d ≠ 45 := fun h => hr e rest (by rw [h])
      simp [hc, hd, h45]

theorem classMembers_suffix (b : Bytes) : (classMembers b).2 <:+ b := by
  fun_induction classMembers b with
  | case1 => exact List.suffix_rfl
  | case2 => exact List.suffix_cons _ _
  | case3 => exact List.nil_suffix
  | case4 d rest hc ih => exact ih.trans (List.suffix_append [_, d] rest)
  | case5 c hc d hd ih => exact ih.trans (List.suffix_cons _ _)
  | case6 c hc hd e rest ih => exact ih.trans (List.suffix_append [c, _, e] rest)
  | case7 c hc d hd e rest hr ih => exact ih.trans (List.suffix_cons _ _)

theorem firstAtom_suffix (c : UInt8) (rest : Bytes) : (firstAtom c rest).2 <:+ rest := by
  unfold firstAtom
  split_ifs
  · exact List.suffix_rfl
  · exact List.suffix_rfl
  · cases rest with
    | nil => exact List.suffix_rfl
    | cons d rest => exact List.suffix_cons d rest
  · exact (classMembers_suffix _).trans (List.tail_suffix rest)
  · exact classMembers_suffix rest
  · exact List.suffix_rfl

def atoms : Bytes → List Atom
  | [] => []
  | c :: rest => (firstAtom c rest).1 :: atoms (firstAtom c rest).2
termination_by b => b.length
decreasing_by exact Nat.lt_succ_of_le (firstAtom_suffix c rest).length_le

def wilds (pattern : Bytes) : List (Wild UInt8) := (atoms pattern).map Atom.wild

/-- The value is a concatenation of strings matched by the atoms from left to right. -/
def Matches (pattern value : Bytes) : Prop := MatchesAll (wilds pattern) value

/-! ## Atoms -/

theorem wilds_nil : wilds [] = [] := by
  simp [wilds, atoms]

theorem wilds_cons (c : UInt8) (rest : Bytes) :
    wilds (c :: rest) = (firstAtom c rest).1.wild :: wilds (firstAtom c rest).2 := by
  simp [wilds, atoms]

theorem wilds_star (rest : Bytes) : wilds (42 :: rest) = .star :: wilds rest :=
  wilds_cons 42 rest

theorem firstAtom_wild {c : UInt8} (hc : c ≠ 42) (rest : Bytes) :
    ∃ test, (firstAtom c rest).1.wild = .one test := by
  unfold firstAtom
  rw [if_neg hc]
  split_ifs
  · exact ⟨_, rfl⟩
  · cases rest with
    | nil => exact ⟨_, rfl⟩
    | cons d rest => exact ⟨_, rfl⟩
  · exact ⟨_, rfl⟩
  · exact ⟨_, rfl⟩
  · exact ⟨_, rfl⟩

private theorem wilds_dropWhile (b : Bytes) :
    wilds (b.dropWhile (· == 42)) = (wilds b).dropWhile Wild.isStar := by
  induction b with
  | nil => rw [List.dropWhile_nil, wilds_nil, List.dropWhile_nil]
  | cons c rest ih =>
    by_cases hc : c = 42
    · subst hc
      rw [List.dropWhile_cons_of_pos rfl, wilds_star, List.dropWhile_cons_of_pos rfl, ih]
    · obtain ⟨test, htest⟩ := firstAtom_wild hc rest
      rw [List.dropWhile_cons_of_neg (by simpa using hc), wilds_cons, htest,
        List.dropWhile_cons_of_neg (by simp [Wild.isStar])]

private theorem length_wilds_le (b : Bytes) : (wilds b).length ≤ b.length := by
  unfold wilds
  rw [List.length_map]
  fun_induction atoms b with
  | case1 => exact le_rfl
  | case2 c rest ih =>
    have := (firstAtom_suffix c rest).length_le
    rw [List.length_cons, List.length_cons]
    omega

private theorem all_isStar_iff (b : Bytes) :
    (wilds b).all Wild.isStar = true ↔ b.dropWhile (· == 42) = [] := by
  induction b with
  | nil => rw [wilds_nil]; exact iff_of_true rfl rfl
  | cons c rest ih =>
    by_cases hc : c = 42
    · subst hc
      rw [List.dropWhile_cons_of_pos rfl, wilds_star, ← ih]
      rfl
    · obtain ⟨test, htest⟩ := firstAtom_wild hc rest
      rw [List.dropWhile_cons_of_neg (by simpa using hc), wilds_cons, htest]
      exact iff_of_false (by simp [Wild.isStar]) (List.cons_ne_nil _ _)

/-! ## One byte -/

private theorem accepts_range (a b value : UInt8) :
    Member.accepts value (.range a b) =
      (decide (min a.toInt8 b.toInt8 ≤ value.toInt8) &&
        decide (value.toInt8 ≤ max a.toInt8 b.toInt8)) := by
  rw [Member.accepts]
  generalize value.toInt8 = v
  generalize a.toInt8 = x
  generalize b.toInt8 = y
  have hmin : min x y = if x ≤ y then x else y := rfl
  have hmax : max x y = if x ≤ y then y else x := rfl
  rw [hmin, hmax, Bool.eq_iff_iff]
  simp only [Bool.or_eq_true, Bool.and_eq_true, decide_eq_true_eq]
  split_ifs with h <;> simp only [Int8.le_iff_toInt_le] at * <;> omega

private theorem matchMembers_cons {pattern : Bytes} {i : ℕ} {c : UInt8} {rest : Bytes}
    (h : pattern.drop i = c :: rest) (negated : Bool) (value : UInt8) (fuel : ℕ) (found : Bool) :
    matchMembers pattern negated value (fuel + 1) i found =
      if c = 93 then (i + 1, xor negated found)
      else
        match rest with
        | [] => matchMembers pattern negated value fuel (i + 1) (found || c == value)
        | d :: rest =>
          if c = 92 then matchMembers pattern negated value fuel (i + 2) (found || d == value)
          else
            match rest with
            | e :: _ =>
              if d = 45 then
                matchMembers pattern negated value fuel (i + 3)
                  (found || Member.accepts value (.range c e))
              else matchMembers pattern negated value fuel (i + 1) (found || c == value)
            | [] => matchMembers pattern negated value fuel (i + 1) (found || c == value) := by
  have hget : ∀ k, pattern[i + k]? = (c :: rest)[k]? := fun k => by rw [← h, List.getElem?_drop]
  have h0 := hget 0
  rw [Nat.add_zero] at h0
  rw [matchMembers, h0, hget 1, hget 2]
  simp only [List.getElem?_cons_zero, List.getElem?_cons_succ, accepts_range]
  cases rest with
  | nil => rfl
  | cons d rest =>
    cases rest with
    | nil => rfl
    | cons e rest => rfl

/-- The loop over a class reads its members. -/
theorem matchMembers_eq (pattern : Bytes) (negated : Bool) (value : UInt8) (fuel i : ℕ)
    (found : Bool) (hfuel : (pattern.drop i).length ≤ fuel) :
    matchMembers pattern negated value fuel i found =
      (pattern.length - (classMembers (pattern.drop i)).2.length,
        xor negated (found ||
          (classMembers (pattern.drop i)).1.any (Member.accepts value))) := by
  induction fuel generalizing i found with
  | zero =>
    have hnil := List.eq_nil_of_length_eq_zero (Nat.le_zero.mp hfuel)
    rw [hnil, matchMembers, classMembers]
    simp
  | succ fuel ih =>
    -- a pass that reads `k` bytes as the member `m`
    have hread : ∀ k m, 0 < k →
        classMembers (pattern.drop i) = consMember m (classMembers (pattern.drop (i + k))) →
        matchMembers pattern negated value fuel (i + k) (found || Member.accepts value m) =
          (pattern.length - (classMembers (pattern.drop i)).2.length,
            xor negated (found ||
              (classMembers (pattern.drop i)).1.any (Member.accepts value))) := by
      intro k m hk hm
      have hlen : (pattern.drop (i + k)).length ≤ fuel := by
        rw [List.length_drop] at hfuel ⊢
        omega
      rw [ih _ _ hlen, hm]
      simp [consMember, Bool.or_assoc]
    have hdrop : ∀ k, pattern.drop (i + k) = (pattern.drop i).drop k := fun k => by
      rw [List.drop_drop]
    cases hl : pattern.drop i with
    | nil =>
      have hnone : pattern[i]? = none := by rw [← List.head?_drop, hl]; rfl
      rw [matchMembers, hnone]
      simp [classMembers]
    | cons c rest =>
      simp only [hdrop, hl] at hread
      rw [matchMembers_cons hl]
      by_cases hc : c = 93
      · subst hc
        have hlen := congrArg List.length hl
        rw [List.length_drop, List.length_cons] at hlen
        rw [if_pos rfl, classMembers_close]
        refine Prod.ext ?_ (by simp)
        change i + 1 = pattern.length - rest.length
        omega
      rw [if_neg hc]
      have hbyte : c ≠ 92 → (∀ e rest', rest ≠ 45 :: e :: rest') →
          matchMembers pattern negated value fuel (i + 1) (found || c == value) = _ :=
        fun hd hr => hread 1 (.byte c) Nat.one_pos (classMembers_byte hc hd hr)
      cases rest with
      | nil =>
        refine hread 1 (.byte c) Nat.one_pos ?_
        rw [classMembers_last hc]
        simp [classMembers, consMember]
      | cons d rest =>
        by_cases hd : c = 92
        · subst hd
          exact (if_pos rfl).trans (hread 2 (.byte d) Nat.two_pos (classMembers_escape d rest))
        refine (if_neg hd).trans ?_
        cases rest with
        | nil => exact hbyte hd (by simp)
        | cons e rest =>
          by_cases h45 : d = 45
          · subst h45
            exact (if_pos rfl).trans
              (hread 3 (.range c e) (Nat.succ_pos 2) (classMembers_range hc hd e rest))
          · exact (if_neg h45).trans (hbyte hd fun e' rest' h => h45 (List.cons.inj h).1)

private theorem matchClass_eq {pattern : Bytes} {start : ℕ} {c : UInt8} {rest : Bytes}
    (h : pattern.drop start = c :: rest) (value : UInt8) :
    matchClass pattern start value =
      if rest.head? = some 94 then
        (pattern.length - (classMembers rest.tail).2.length,
          xor true ((classMembers rest.tail).1.any (Member.accepts value)))
      else
        (pattern.length - (classMembers rest).2.length,
          xor false ((classMembers rest).1.any (Member.accepts value))) := by
  have h1 : pattern.drop (start + 1) = rest := by rw [← List.tail_drop, h]; rfl
  have h2 : pattern.drop (start + 2) = rest.tail := by rw [← List.tail_drop, h1]
  have hget : pattern[start + 1]? = rest.head? := by rw [← List.head?_drop, h1]
  have hlen : ∀ k, (pattern.drop k).length ≤ pattern.length := fun k => by
    rw [List.length_drop]
    omega
  unfold matchClass
  rw [hget, matchMembers_eq _ _ _ _ _ _ (hlen _), matchMembers_eq _ _ _ _ _ _ (hlen _), h1, h2]
  simp only [Bool.false_or]

/-- matchOne reads one atom other than a star. -/
theorem matchOne_eq {pattern : Bytes} {start : ℕ} {c : UInt8} {rest : Bytes}
    (h : pattern.drop start = c :: rest) (hc : c ≠ 42) (value : UInt8) :
    ∃ test, (firstAtom c rest).1.wild = .one test ∧
      matchOne pattern start value =
        (pattern.length - (firstAtom c rest).2.length, test value) := by
  have h0 : pattern[start]? = some c := by rw [← List.head?_drop, h]; rfl
  have h1 : pattern[start + 1]? = rest.head? := by
    rw [← List.head?_drop, ← List.tail_drop, h]
    rfl
  have hlen : pattern.length = start + (rest.length + 1) := by
    have := congrArg List.length h
    rw [List.length_drop, List.length_cons] at this
    omega
  have hnext : start + 1 = pattern.length - rest.length := by omega
  unfold firstAtom matchOne
  rw [h0]
  dsimp only
  rw [if_neg hc]
  by_cases hany : c = 63
  · rw [if_pos hany, if_pos hany]
    exact ⟨_, rfl, Prod.ext hnext rfl⟩
  rw [if_neg hany, if_neg hany]
  by_cases hesc : c = 92
  · rw [if_pos hesc, if_pos hesc, h1]
    cases rest with
    | nil => exact ⟨_, rfl, Prod.ext hnext (Bool.beq_comm)⟩
    | cons d rest =>
      refine ⟨_, rfl, Prod.ext ?_ rfl⟩
      rw [List.length_cons] at hlen
      change start + 2 = pattern.length - rest.length
      omega
  rw [if_neg hesc, if_neg hesc]
  by_cases hcls : c = 91
  · rw [if_pos hcls, if_pos hcls, matchClass_eq h]
    split_ifs
    · exact ⟨_, rfl, rfl⟩
    · exact ⟨_, rfl, rfl⟩
  · rw [if_neg hcls, if_neg hcls]
    exact ⟨_, rfl, Prod.ext hnext rfl⟩

/-! ## The loop -/

theorem skipStars_le {pattern : Bytes} {i : ℕ} (hi : i ≤ pattern.length) :
    skipStars pattern i ≤ pattern.length := by
  have := (List.takeWhile_prefix (p := (· == 42)) (l := pattern.drop i)).length_le
  rw [List.length_drop] at this
  unfold skipStars
  omega

theorem drop_skipStars (pattern : Bytes) (i : ℕ) :
    pattern.drop (skipStars pattern i) = (pattern.drop i).dropWhile (· == 42) := by
  have hsplit := List.takeWhile_append_dropWhile (p := (· == 42)) (l := pattern.drop i)
  rw [skipStars, ← List.drop_drop]
  nth_rewrite 2 [← hsplit]
  exact List.drop_left

theorem skipStars_eq_length {pattern : Bytes} {i : ℕ} (hi : i ≤ pattern.length) :
    skipStars pattern i = pattern.length ↔
      (wilds (pattern.drop i)).all Wild.isStar = true := by
  rw [all_isStar_iff, ← drop_skipStars, List.drop_eq_nil_iff]
  have := skipStars_le hi
  omega

private theorem wilds_ne_star {pattern : Bytes} {pi : ℕ} (h : pattern[pi]? ≠ some 42)
    (P : List (Wild UInt8)) : wilds (pattern.drop pi) ≠ .star :: P := by
  cases hl : pattern.drop pi with
  | nil => rw [wilds_nil]; nofun
  | cons c rest =>
    have hc : c ≠ 42 := by
      rintro rfl
      exact h (by rw [← List.head?_drop, hl]; rfl)
    obtain ⟨test, htest⟩ := firstAtom_wild hc rest
    rw [wilds_cons, htest]
    nofun

/-- A byte is taken by the atom at `pi`, which ends where matchOne says, or is not. -/
theorem advance_wilds {pattern : Bytes} {pi : ℕ} (hstar : pattern[pi]? ≠ some 42) (value : UInt8) :
    (∃ next, next ≤ pattern.length ∧ matchOne pattern pi value = (next, true) ∧
      Wild.advance (wilds (pattern.drop pi)) value = some (wilds (pattern.drop next))) ∨
    ∃ next, matchOne pattern pi value = (next, false) ∧
      Wild.advance (wilds (pattern.drop pi)) value = none := by
  cases hl : pattern.drop pi with
  | nil =>
    right
    have hnone : pattern[pi]? = none := by rw [← List.head?_drop, hl]; rfl
    refine ⟨pi, ?_, ?_⟩
    · rw [matchOne, hnone]
    · rw [wilds_nil]; rfl
  | cons c rest =>
    have hc : c ≠ 42 := by
      rintro rfl
      exact hstar (by rw [← List.head?_drop, hl]; rfl)
    obtain ⟨test, htest, hone⟩ := matchOne_eq hl hc value
    have hsuffix : (firstAtom c rest).2 <:+ pattern := by
      have hrest : c :: rest <:+ pattern := hl ▸ List.drop_suffix pi pattern
      exact (firstAtom_suffix c rest).trans ((List.suffix_cons c rest).trans hrest)
    rw [hone, wilds_cons, htest]
    cases hv : test value with
    | true =>
      refine .inl ⟨_, Nat.sub_le _ _, rfl, ?_⟩
      rw [Wild.advance, if_pos hv, ← List.suffix_iff_eq_drop.mp hsuffix]
    | false => exact .inr ⟨_, rfl, by rw [Wild.advance, hv]; rfl⟩

/-- The loop is the search for the atoms. -/
theorem matchLoop_eq (pattern value : Bytes) (fuel pi vi : ℕ) (star : Option (ℕ × ℕ))
    (hpi : pi ≤ pattern.length) (hstar : ∀ q, star = some q → q.1 ≤ pattern.length) :
    matchLoop pattern value fuel pi vi star =
      search fuel (wilds (pattern.drop pi)) (value.drop vi)
        (star.map fun q => (wilds (pattern.drop q.1), value.drop q.2)) := by
  induction fuel generalizing pi vi star with
  | zero => rfl
  | succ fuel ih =>
    rw [matchLoop]
    cases hv : value.drop vi with
    | nil =>
      have hnone : value[vi]? = none := by rw [← List.head?_drop, hv]; rfl
      rw [hnone, search]
      dsimp only
      congr 1
      rw [Bool.eq_iff_iff, beq_iff_eq]
      exact skipStars_eq_length hpi
    | cons c v =>
      have hget : value[vi]? = some c := by rw [← List.head?_drop, hv]; rfl
      have hnext : value.drop (vi + 1) = v := by rw [← List.tail_drop, hv]; rfl
      rw [hget]
      dsimp only
      by_cases h42 : pattern[pi]? = some 42
      · obtain ⟨rest, hrest⟩ : ∃ rest, pattern.drop pi = 42 :: rest := by
          rw [← List.head?_drop] at h42
          exact ⟨_, List.eq_cons_of_mem_head? h42⟩
        have hall := skipStars_eq_length hpi
        have hskip := drop_skipStars pattern pi
        rw [hrest, wilds_star] at hall
        change _ ↔ (wilds rest).all Wild.isStar = true at hall
        rw [hrest, List.dropWhile_cons_of_pos rfl] at hskip
        rw [if_pos h42, hrest, wilds_star, search]
        by_cases hend : skipStars pattern pi = pattern.length
        · rw [if_pos hend, if_pos (hall.mp hend)]
        · rw [if_neg hend, if_neg (fun h => hend (hall.mpr h)),
            ih _ _ _ (skipStars_le hpi) (by rintro _ ⟨⟩; exact skipStars_le hpi)]
          simp only [Option.map_some, hskip, wilds_dropWhile, hv]
      · rw [if_neg h42, search_of_not_star fuel (wilds_ne_star h42)]
        rcases advance_wilds h42 c with ⟨next, hle, hone, hadv⟩ | ⟨next, hone, hadv⟩
        · rw [hone, hadv]
          dsimp only
          rw [ih _ _ _ hle hstar, hnext]
        · rw [hone, hadv]
          cases star with
          | none => rfl
          | some q =>
            obtain ⟨sp, sv⟩ := q
            simp only [Option.map_some]
            cases hw : value.drop sv with
            | nil =>
              have : ¬ sv < value.length := not_lt.mpr (List.drop_eq_nil_iff.mp hw)
              rw [if_neg this]
            | cons d w =>
              have hlt : sv < value.length := by
                by_contra hge
                rw [List.drop_eq_nil_of_le (not_lt.mp hge)] at hw
                cases hw
              have hw' : value.drop (sv + 1) = w := by rw [← List.tail_drop, hw]; rfl
              have hsp := hstar _ rfl
              rw [if_pos hlt, ih _ _ _ hsp (by rintro _ ⟨⟩; exact hsp)]
              simp only [Option.map_some, hw']

/-- Match returns, and it returns whether the value is a concatenation of strings matched by the
atoms of the pattern: going back to the last star only misses no match. -/
theorem isMatch_iff (pattern value : Bytes) :
    ∃ b, matchLoop pattern value
        ((pattern.length + 2) * (value.length + 2) * (value.length + 2)) 0 0 none = some b ∧
      isMatch pattern value = b ∧ (b = true ↔ Matches pattern value) := by
  obtain ⟨b, hb, hiff⟩ := search_all (length_wilds_le pattern) value
  have hrun := matchLoop_eq pattern value
    ((pattern.length + 2) * (value.length + 2) * (value.length + 2)) 0 0 none (Nat.zero_le _) nofun
  rw [List.drop_zero, List.drop_zero, Option.map_none, hb] at hrun
  refine ⟨b, hrun, ?_, hiff⟩
  rw [isMatch, hrun]
  rfl

end GoKv.Glob
