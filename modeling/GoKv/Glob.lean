import GoKv.Lib.Decimal

/-! Redis-style glob patterns, matched byte by byte with one backtrack point. -/
namespace GoKv.Glob
open GoLib

/-- The members of a class from `i` on, up to its closing bracket or the end of the pattern. -/
def matchMembers (pattern : Bytes) (negated : Bool) (value : UInt8) :
    ℕ → ℕ → Bool → ℕ × Bool
  | 0, _, found => (pattern.length, xor negated found)
  | fuel + 1, i, found =>
    match pattern[i]? with
    | none => (pattern.length, xor negated found)
    | some c =>
      if c = 93 then (i + 1, xor negated found)
      else
        match pattern[i + 1]?, pattern[i + 2]? with
        | none, _ => matchMembers pattern negated value fuel (i + 1) (found || c == value)
        | some d, upper =>
          if c = 92 then matchMembers pattern negated value fuel (i + 2) (found || d == value)
          else
            match upper with
            | some e =>
              if d = 45 then
                -- The ends are signed bytes in either order.
                let lo := min c.toInt8 e.toInt8
                let hi := max c.toInt8 e.toInt8
                matchMembers pattern negated value fuel (i + 3)
                  (found || (lo ≤ value.toInt8 && value.toInt8 ≤ hi))
              else matchMembers pattern negated value fuel (i + 1) (found || c == value)
            | none => matchMembers pattern negated value fuel (i + 1) (found || c == value)

def matchClass (pattern : Bytes) (start : ℕ) (value : UInt8) : ℕ × Bool :=
  if pattern[start + 1]? = some 94 then
    matchMembers pattern true value pattern.length (start + 2) false
  else matchMembers pattern false value pattern.length (start + 1) false

/-- The atom at `start` against one byte: where the next atom begins, and whether it matched. -/
def matchOne (pattern : Bytes) (start : ℕ) (value : UInt8) : ℕ × Bool :=
  match pattern[start]? with
  | none => (start, false)
  | some c =>
    if c = 63 then (start + 1, true)
    else if c = 92 then
      match pattern[start + 1]? with
      | some d => (start + 2, d == value)
      | none => (start + 1, value == 92)
    else if c = 91 then matchClass pattern start value
    else (start + 1, c == value)

/-- Where the run of stars at `i` ends. -/
def skipStars (pattern : Bytes) (i : ℕ) : ℕ :=
  i + ((pattern.drop i).takeWhile (· == 42)).length

/-- The loop of Match, with no result while it goes on. `star` is where to resume: the atom after
the last star, and the value position it was last tried at. -/
def matchLoop (pattern value : Bytes) : ℕ → ℕ → ℕ → Option (ℕ × ℕ) → Option Bool
  | 0, _, _, _ => none
  | fuel + 1, pi, vi, star =>
    match value[vi]? with
    | none => some (skipStars pattern pi == pattern.length)
    | some c =>
      if pattern[pi]? = some 42 then
        if skipStars pattern pi = pattern.length then some true
        else
          matchLoop pattern value fuel (skipStars pattern pi) vi (some (skipStars pattern pi, vi))
      else
        match matchOne pattern pi c, star with
        | (next, true), _ => matchLoop pattern value fuel next (vi + 1) star
        | (_, false), some (starPattern, starValue) =>
          if starValue < value.length then
            matchLoop pattern value fuel starPattern (starValue + 1)
              (some (starPattern, starValue + 1))
          else some false
        | (_, false), none => some false

/-- Enough passes for every star to be tried at every position of the value. -/
def isMatch (pattern value : Bytes) : Bool :=
  (matchLoop pattern value ((pattern.length + 2) * (value.length + 2) * (value.length + 2))
    0 0 none).getD false

theorem isMatch_star (value : Bytes) : isMatch [42] value = true := by
  have hskip : skipStars [42] 0 = 1 := by decide
  have hfuel : ([(42 : UInt8)].length + 2) * (value.length + 2) * (value.length + 2) ≠ 0 := by
    simp
  obtain ⟨fuel, hf⟩ := Nat.exists_eq_succ_of_ne_zero hfuel
  rw [isMatch, hf, matchLoop]
  cases value[0]? with
  | none => rw [hskip]; rfl
  | some c => simp [hskip]

example : isMatch (ascii ['h', '[', 'a', '-', 'e', ']', '*', 'o']) (ascii ['h', 'e', 'l', 'l', 'o'])
    = true := by decide

end GoKv.Glob
