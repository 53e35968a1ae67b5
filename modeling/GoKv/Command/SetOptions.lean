import GoKv.Command.Command
import GoKv.Lib.Casing

/-! SET's expiry options: the lists the parser accepts and what they set, and the error that the
first offending position decides. -/
namespace GoKv.Command
open GoLib

inductive ExpiryUnit where
  | ex | px
  deriving DecidableEq

namespace ExpiryUnit

def name : ExpiryUnit → Bytes
  | ex => optEX
  | px => optPX

def nanos : ExpiryUnit → ℤ
  | ex => 10 ^ 9
  | px => 10 ^ 6

/-- The unit's name, in either ASCII case of each letter. -/
def Names (u : ExpiryUnit) (opt : Bytes) : Prop := opt.map upperByte = u.name

def Fits (u : ExpiryUnit) (n : Int64) : Prop := 1 ≤ n.toInt ∧ n.toInt ≤ (2 ^ 63 - 1) / u.nanos

instance (u : ExpiryUnit) : DecidablePred u.Fits := fun n =>
  inferInstanceAs (Decidable (1 ≤ n.toInt ∧ n.toInt ≤ (2 ^ 63 - 1) / u.nanos))

def step : ExpiryUnit → Duration
  | ex => second
  | px => millisecond

theorem toInt_step (u : ExpiryUnit) : u.step.toInt = u.nanos := by
  cases u <;> decide

private theorem name_injective : Function.Injective name := by
  intro u v h
  cases u <;> cases v <;> first | rfl | exact absurd h (by decide)

theorem name_mem (u : ExpiryUnit) : u.name = optEX ∨ u.name = optPX := by
  cases u
  · exact .inl rfl
  · exact .inr rfl

/-- Neither name has a letter that is the upper case of a letter outside ASCII. -/
theorem toUpper_eq_name_iff {f : UpperCasing} {u : ExpiryUnit} {opt : Bytes} :
    toUpper f.map opt = u.name ↔ u.Names opt := by
  have hname : ∀ c ∈ u.name, IsUpper c ∧ c ≠ 73 ∧ c ≠ 83 := by
    cases u <;> decide +kernel
  rw [toUpper_eq_iff f fun c hc => (hname c hc).1, spells_iff_map hname, Names]

theorem Fits.toInt_mul {u : ExpiryUnit} {n : Int64} (h : u.Fits n) :
    (n * u.step).toInt = n.toInt * u.nanos := by
  obtain ⟨hpos, hle⟩ := h
  rw [Int64.toInt_mul, toInt_step]
  cases u
  · change n.toInt ≤ (2 ^ 63 - 1) / 10 ^ 9 at hle
    change (n.toInt * 10 ^ 9).bmod (2 ^ 64) = n.toInt * 10 ^ 9
    rw [Int.bmod_def]
    omega
  · change n.toInt ≤ (2 ^ 63 - 1) / 10 ^ 6 at hle
    change (n.toInt * 10 ^ 6).bmod (2 ^ 64) = n.toInt * 10 ^ 6
    rw [Int.bmod_def]
    omega

theorem fits_iff {u : ExpiryUnit} {n : Int64} :
    u.Fits n ↔ ¬ n ≤ 0 ∧ ¬ ((u.name = optEX ∧ maxExpireSeconds < n) ∨
      (u.name = optPX ∧ maxExpireMillis < n)) := by
  have hzero : (0 : Int64).toInt = 0 := rfl
  have hsec : maxExpireSeconds.toInt = 9223372036 := by decide
  have hms : maxExpireMillis.toInt = 9223372036854 := by decide
  rw [Int64.le_iff_toInt_le, Int64.lt_iff_toInt_lt, Int64.lt_iff_toInt_lt, hzero, hsec, hms]
  unfold Fits
  cases u
  · have hne : ¬ optEX = optPX := by decide
    simp only [name, nanos, hne, true_and, false_and, or_false]
    omega
  · have hne : ¬ optPX = optEX := by decide
    simp only [name, nanos, hne, true_and, false_and, false_or]
    omega

end ExpiryUnit

/-- Pairs of one unit and a number that fits it, with the numbers. -/
inductive Pairs (u : ExpiryUnit) : List Bytes → List Int64 → Prop where
  | nil : Pairs u [] []
  | cons {opt num : Bytes} {n : Int64} {rest : List Bytes} {ns : List Int64} (hopt : u.Names opt)
      (hnum : parseInt64 num = some n) (hfits : u.Fits n) (h : Pairs u rest ns) :
      Pairs u (opt :: num :: rest) (n :: ns)

/-- An offence at the front of the options, after pairs of the unit given, if any, and the reply
to it. What follows the offending position does not matter. -/
inductive Offence (unit : Option ExpiryUnit) : List Bytes → Reply → Prop where
  | unknown {opt : Bytes} {rest : List Bytes} (hopt : ∀ u : ExpiryUnit, ¬ u.Names opt) :
      Offence unit (opt :: rest) (.error errSyntax)
  | mixed {u v : ExpiryUnit} {opt : Bytes} {rest : List Bytes} (hopt : u.Names opt)
      (hunit : unit = some v) (hne : v ≠ u) : Offence unit (opt :: rest) (.error errSyntax)
  | missing {u : ExpiryUnit} {opt : Bytes} (hopt : u.Names opt) (hunit : ∀ v ∈ unit, v = u) :
      Offence unit [opt] (.error errSyntax)
  | notAnInteger {u : ExpiryUnit} {opt num : Bytes} {rest : List Bytes} (hopt : u.Names opt)
      (hunit : ∀ v ∈ unit, v = u) (hnum : parseInt64 num = none) :
      Offence unit (opt :: num :: rest) (.error errNotAnInteger)
  | outOfRange {u : ExpiryUnit} {opt num : Bytes} {n : Int64} {rest : List Bytes}
      (hopt : u.Names opt) (hunit : ∀ v ∈ unit, v = u) (hnum : parseInt64 num = some n)
      (hfits : ¬ u.Fits n) : Offence unit (opt :: num :: rest) (invalidExpire "set")

def unitAfter (unit : Option ExpiryUnit) (u : ExpiryUnit) (pre : List Bytes) : Option ExpiryUnit :=
  if pre = [] then unit else some u

/-- After one pair, more pairs of its unit change nothing. -/
theorem unitAfter_cons (unit : Option ExpiryUnit) (u : ExpiryUnit) (opt : Bytes)
    (pre : List Bytes) : unitAfter unit u (opt :: pre) = some u := if_neg (List.cons_ne_nil _ _)

theorem unitAfter_some (u : ExpiryUnit) (pre : List Bytes) : unitAfter (some u) u pre = some u :=
  ite_self (some u)

def lastTTL (u : ExpiryUnit) (ns : List Int64) (ttl : TTL) : TTL :=
  (ns.getLast?.map fun n => TTL.expiresIn (n * u.step)).getD ttl

private theorem lastTTL_cons (u : ExpiryUnit) (n : Int64) (ns : List Int64) (ttl : TTL) :
    lastTTL u (n :: ns) ttl = lastTTL u ns (.expiresIn (n * u.step)) := by
  unfold lastTTL
  rw [List.getLast?_cons]
  cases ns.getLast? <;> rfl

section Loop

variable {f : UpperCasing} {u : ExpiryUnit} {unit : Option ExpiryUnit} {opt num : Bytes}
  {rest : List Bytes} {ttl : TTL}

/-- The unit found so far does not reject an option of the same unit, and rejects the other. -/
theorem unit_clash_iff :
    unit.map ExpiryUnit.name ≠ none ∧ unit.map ExpiryUnit.name ≠ some u.name ↔
      ∃ v, unit = some v ∧ v ≠ u := by
  cases unit with
  | none => simp
  | some v => simp [ExpiryUnit.name_injective.eq_iff]

theorem no_clash (hunit : ∀ v ∈ unit, v = u) :
    ¬ (unit.map ExpiryUnit.name ≠ none ∧ unit.map ExpiryUnit.name ≠ some u.name) := by
  rw [unit_clash_iff]
  rintro ⟨v, hv, hne⟩
  exact hne (hunit v hv)

theorem setOptions_pair {n : Int64} (hopt : u.Names opt) (hunit : ∀ v ∈ unit, v = u)
    (hnum : parseInt64 num = some n) :
    setOptions f.map (opt :: num :: rest) ttl (unit.map ExpiryUnit.name) =
      if u.Fits n then setOptions f.map rest (.expiresIn (n * u.step)) (some u.name)
      else .error (invalidExpire "set") := by
  have hstep : (if u.name = optPX then millisecond else second) = u.step := by
    cases u <;> rfl
  rw [setOptions]
  simp only [ExpiryUnit.toUpper_eq_name_iff.mpr hopt, if_pos u.name_mem, if_neg (no_clash hunit),
    hstep, hnum]
  by_cases hfits : u.Fits n
  · obtain ⟨hpos, hmax⟩ := ExpiryUnit.fits_iff.mp hfits
    rw [if_neg hpos, if_neg hmax, if_pos hfits]
  · rw [if_neg hfits]
    have hbad := mt ExpiryUnit.fits_iff.mpr hfits
    split_ifs with hpos hmax
    · rfl
    · rfl
    · exact absurd ⟨hpos, hmax⟩ hbad

theorem setOptions_of_offence {opts : List Bytes} {bad : Reply} (h : Offence unit opts bad) :
    setOptions f.map opts ttl (unit.map ExpiryUnit.name) = .error bad := by
  cases h with
  | @unknown opt rest hopt =>
    have hno : ¬ (toUpper f.map opt = optEX ∨ toUpper f.map opt = optPX) := by
      rintro (h | h)
      · exact hopt .ex (ExpiryUnit.toUpper_eq_name_iff.mp h)
      · exact hopt .px (ExpiryUnit.toUpper_eq_name_iff.mp h)
    cases rest <;> exact if_neg hno
  | @mixed u v opt rest hopt hunit hne =>
    have hclash := unit_clash_iff.mpr ⟨v, hunit, hne⟩
    cases rest <;>
      simp only [setOptions, ExpiryUnit.toUpper_eq_name_iff.mpr hopt, if_pos u.name_mem,
        if_pos hclash]
  | @missing u _ hopt hunit =>
    simp only [setOptions, ExpiryUnit.toUpper_eq_name_iff.mpr hopt, if_pos u.name_mem,
      if_neg (no_clash hunit)]
  | @notAnInteger u _ _ _ hopt hunit hnum =>
    simp only [setOptions, ExpiryUnit.toUpper_eq_name_iff.mpr hopt, if_pos u.name_mem,
      if_neg (no_clash hunit), hnum]
  | outOfRange hopt hunit hnum hfits => rw [setOptions_pair hopt hunit hnum, if_neg hfits]

/-- Pairs of one unit are consumed, and the last of their numbers counts. -/
theorem setOptions_of_pairs {pre : List Bytes} {ns : List Int64} (h : Pairs u pre ns)
    (hunit : ∀ v ∈ unit, v = u) :
    setOptions f.map (pre ++ rest) ttl (unit.map ExpiryUnit.name) =
      setOptions f.map rest (lastTTL u ns ttl)
        ((unitAfter unit u pre).map ExpiryUnit.name) := by
  induction h generalizing unit ttl with
  | nil => rfl
  | @cons opt num n tail ns hopt hnum hfits _ ih =>
    rw [List.cons_append, List.cons_append, setOptions_pair hopt hunit hnum, if_pos hfits,
      lastTTL_cons]
    have hsame : ∀ v ∈ some u, v = u := fun v hv => (Option.some.inj hv).symm
    refine (ih hsame).trans ?_
    rw [unitAfter_some, unitAfter_cons]

end Loop

/-- An option offends, or it names the unit in force. -/
theorem offence_or_names (unit : Option ExpiryUnit) (opt : Bytes) (rest : List Bytes) :
    (∃ bad, Offence unit (opt :: rest) bad) ∨
      ∃ u : ExpiryUnit, u.Names opt ∧ ∀ v ∈ unit, v = u := by
  by_cases hopt : ∃ u : ExpiryUnit, u.Names opt
  · obtain ⟨u, hopt⟩ := hopt
    by_cases hunit : ∀ v ∈ unit, v = u
    · exact .inr ⟨u, hopt, hunit⟩
    · push Not at hunit
      obtain ⟨v, hv, hne⟩ := hunit
      exact .inl ⟨_, .mixed hopt hv hne⟩
  · exact .inl ⟨_, .unknown (not_exists.mp hopt)⟩

/-- Every list of options is pairs of one unit up to its end or up to an offence. -/
theorem pairs_or_offence (unit : Option ExpiryUnit) (opts : List Bytes) :
    ∃ u ns pre rest, opts = pre ++ rest ∧ Pairs u pre ns ∧ (∀ v ∈ unit, v = u) ∧
      (rest = [] ∨ ∃ bad, Offence (unitAfter unit u pre) rest bad) := by
  -- the end or an offence at the very front, with no pair before it
  have hfront : ∀ {unit : Option ExpiryUnit} {opts : List Bytes},
      (opts = [] ∨ ∃ bad, Offence unit opts bad) → ∃ u ns pre rest, opts = pre ++ rest ∧
        Pairs u pre ns ∧ (∀ v ∈ unit, v = u) ∧
          (rest = [] ∨ ∃ bad, Offence (unitAfter unit u pre) rest bad) := by
    intro unit opts h
    refine ⟨unit.getD .ex, [], [], opts, rfl, .nil, ?_, h⟩
    intro v hv
    rw [Option.mem_def.mp hv, Option.getD_some]
  induction opts using List.twoStepInduction generalizing unit with
  | nil => exact hfront (.inl rfl)
  | singleton opt =>
    rcases offence_or_names unit opt [] with hbad | ⟨u, hopt, hunit⟩
    · exact hfront (.inr hbad)
    · exact hfront (.inr ⟨_, .missing hopt hunit⟩)
  | cons_cons opt num rest ih _ =>
    rcases offence_or_names unit opt (num :: rest) with hbad | ⟨u, hopt, hunit⟩
    · exact hfront (.inr hbad)
    · cases hnum : parseInt64 num with
      | none => exact hfront (.inr ⟨_, .notAnInteger hopt hunit hnum⟩)
      | some n =>
        by_cases hfits : u.Fits n
        · obtain ⟨w, ns, pre, tail, rfl, hpairs, hw, hend⟩ := ih (some u)
          obtain rfl : u = w := hw u rfl
          rw [unitAfter_some] at hend
          refine ⟨u, n :: ns, opt :: num :: pre, tail, rfl, .cons hopt hnum hfits hpairs, hunit, ?_⟩
          rwa [unitAfter_cons]
        · exact hfront (.inr ⟨_, .outOfRange hopt hunit hnum hfits⟩)

/-- What an accepted list of options sets: nothing, or the last of the numbers in nanoseconds,
without overflow. -/
def Sets (u : ExpiryUnit) (ns : List Int64) (ttl : TTL) : Prop :=
  (ns = [] ∧ ttl = .noExpiry) ∨
    ∃ n d, ns.getLast? = some n ∧ ttl = .expiresIn d ∧ d.toInt = n.toInt * u.nanos

theorem Pairs.fits {u : ExpiryUnit} {opts : List Bytes} {ns : List Int64} (h : Pairs u opts ns) :
    ∀ n ∈ ns, u.Fits n := by
  induction h with
  | nil => exact List.forall_mem_nil _
  | cons _ _ hfits _ ih => exact List.forall_mem_cons.mpr ⟨hfits, ih⟩

theorem Pairs.sets_iff {u : ExpiryUnit} {opts : List Bytes} {ns : List Int64} (h : Pairs u opts ns)
    {ttl : TTL} : Sets u ns ttl ↔ ttl = lastTTL u ns .noExpiry := by
  unfold Sets lastTTL
  cases hlast : ns.getLast? with
  | none =>
    have hnil : ns = [] := List.getLast?_eq_none_iff.mp hlast
    simp [hnil]
  | some n =>
    have hmem : n ∈ ns := List.mem_of_getLast? hlast
    have hne : ns ≠ [] := List.ne_nil_of_mem hmem
    have hmul := (h.fits n hmem).toInt_mul
    constructor
    · rintro (⟨hnil, -⟩ | ⟨m, d, hm, rfl, hd⟩)
      · exact absurd hnil hne
      · obtain rfl := Option.some.inj hm
        rw [← hmul, Int64.toInt_inj] at hd
        rw [hd]
        rfl
    · rintro rfl
      exact .inr ⟨n, _, rfl, rfl, hmul⟩

variable {f : UpperCasing}

theorem parseSetOptions_of_pairs {u : ExpiryUnit} {pre rest : List Bytes} {ns : List Int64}
    (h : Pairs u pre ns) :
    parseSetOptions f.map (pre ++ rest) =
      setOptions f.map rest (lastTTL u ns .noExpiry)
        ((unitAfter none u pre).map ExpiryUnit.name) := by
  have hunit : ∀ v ∈ (none : Option ExpiryUnit), v = u := by
    intro v hv
    cases hv
  exact setOptions_of_pairs h hunit

private theorem parseSetOptions_eq_ok_iff {opts : List Bytes} {ttl : TTL} :
    parseSetOptions f.map opts = .ok ttl ↔ ∃ u ns, Pairs u opts ns ∧ Sets u ns ttl := by
  constructor
  · intro hok
    obtain ⟨u, ns, pre, rest, rfl, hpairs, -, rfl | ⟨bad, hbad⟩⟩ := pairs_or_offence none opts
    · rw [parseSetOptions_of_pairs hpairs] at hok
      refine ⟨u, ns, by rwa [List.append_nil], hpairs.sets_iff.mpr ?_⟩
      exact (Except.ok.inj hok).symm
    · rw [parseSetOptions_of_pairs hpairs, setOptions_of_offence hbad] at hok
      cases hok
  · rintro ⟨u, ns, hpairs, hsets⟩
    have hparse : parseSetOptions f.map (opts ++ []) = _ := parseSetOptions_of_pairs hpairs
    rw [List.append_nil] at hparse
    rw [hparse, hpairs.sets_iff.mp hsets]
    rfl

private theorem parseSetOptions_eq_error_iff {opts : List Bytes} {bad : Reply} :
    parseSetOptions f.map opts = .error bad ↔
      ∃ u ns pre rest, opts = pre ++ rest ∧ Pairs u pre ns ∧
        Offence (unitAfter none u pre) rest bad := by
  constructor
  · intro herr
    obtain ⟨u, ns, pre, rest, rfl, hpairs, -, rfl | ⟨bad', hbad⟩⟩ := pairs_or_offence none opts
    · rw [parseSetOptions_of_pairs hpairs] at herr
      cases herr
    · rw [parseSetOptions_of_pairs hpairs, setOptions_of_offence hbad] at herr
      cases herr
      exact ⟨u, ns, pre, rest, rfl, hpairs, hbad⟩
  · rintro ⟨u, ns, pre, rest, rfl, hpairs, hbad⟩
    rw [parseSetOptions_of_pairs hpairs, setOptions_of_offence hbad]

/-- SET's options are accepted exactly when they are pairs of one unit and a number that fits it,
and then set the last number's duration; every other list gets the reply to its first offence,
and SET leaves the engine as it was. -/
theorem parseSetOptions_exact (f : UpperCasing) (opts : List Bytes) :
    (∀ ttl, parseSetOptions f.map opts = .ok ttl ↔
      ∃ u ns, Pairs u opts ns ∧ Sets u ns ttl) ∧
    (∀ bad, parseSetOptions f.map opts = .error bad ↔
      ∃ u ns pre rest, opts = pre ++ rest ∧ Pairs u pre ns ∧
        Offence (unitAfter none u pre) rest bad) ∧
    ∀ env e name key value, (∃ ttl, parseSetOptions f.map opts = .ok ttl) ∨
      ∃ bad, parseSetOptions f.map opts = .error bad ∧
        cmdSet f.map env e (name :: key :: value :: opts) = (bad, e) := by
  refine ⟨fun ttl => parseSetOptions_eq_ok_iff, fun bad => parseSetOptions_eq_error_iff, ?_⟩
  intro env e name key value
  cases hparse : parseSetOptions f.map opts with
  | ok ttl => exact .inl ⟨ttl, rfl⟩
  | error bad =>
    have hdrop : (name :: key :: value :: opts).drop 3 = opts := rfl
    refine .inr ⟨bad, rfl, ?_⟩
    rw [cmdSet, hdrop, hparse]

end GoKv.Command
