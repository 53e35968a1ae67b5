import GoKv.Command.Command
import GoKv.Lib.Casing

/-! The first arguments that reach a handler. The name is put through Unicode upper-casing before
the table is searched, and two letters from outside ASCII have their upper case in it. -/
namespace GoKv.Command
open GoLib

def selected (mapUpper : Bytes → Bytes) (first : Bytes) : Option Cmd :=
  (cmds.lookup (toUpper mapUpper first)).map Spec.run

/-! ## The table -/

private theorem isUpper_of_mem_cmds : ∀ p ∈ cmds, ∀ c ∈ p.1, IsUpper c := by
  decide +kernel

private theorem lookup_cmds : ∀ p ∈ cmds, (cmds.lookup p.1).map Spec.run = some p.2.run := by
  decide

private theorem name_eq_of_run_eq : ∀ p ∈ cmds, ∀ q ∈ cmds, p.2.run = q.2.run → p.1 = q.1 := by
  decide

theorem mem_cmds_of_lookup {name : Bytes} {sp : Spec} (h : cmds.lookup name = some sp) :
    (name, sp) ∈ cmds := by
  obtain ⟨before, after, hsplit, -⟩ := List.lookup_eq_some_iff.mp h
  rw [hsplit]
  exact List.mem_append_right before List.mem_cons_self

/-! ## The first argument -/

variable (f : UpperCasing)

theorem toUpper_eq_name_iff {p : Bytes × Spec} (hp : p ∈ cmds) {first : Bytes} :
    toUpper f.map first = p.1 ↔ Spells p.1 first :=
  toUpper_eq_iff f (isUpper_of_mem_cmds p hp)

theorem selected_eq_some_iff {p : Bytes × Spec} (hp : p ∈ cmds) {first : Bytes} :
    selected f.map first = some p.2.run ↔ Spells p.1 first := by
  rw [← toUpper_eq_name_iff f hp]
  unfold selected
  constructor
  · intro h
    obtain ⟨sp, hsp, hrun⟩ := Option.map_eq_some_iff.mp h
    exact name_eq_of_run_eq _ (mem_cmds_of_lookup hsp) p hp hrun
  · intro h
    rw [h]
    exact lookup_cmds p hp

/-- Dispatch selects an entry's handler exactly for the first arguments that spell its name: each
letter in either ASCII case, an I also as U+0131 and an S also as U+017F. It then checks the
arity and runs the handler. Every other first argument is unknown, and the engine stays as it
was. -/
theorem dispatch_names (env : Env) (e : Engine) (first : Bytes) (rest : List Bytes) :
    (∀ p ∈ cmds, selected f.map first = some p.2.run ↔ Spells p.1 first) ∧
    ((∃ p ∈ cmds, Spells p.1 first ∧
        dispatch f.map env e (first :: rest) =
          runResolved f.map (p.2.checkArity p.1 (first :: rest)) env e (first :: rest)) ∨
      ((∀ p ∈ cmds, ¬ Spells p.1 first) ∧
        dispatch f.map env e (first :: rest) =
          (.error (text "ERR unknown command '" ++ echoName first ++ text "'"), e))) := by
  refine ⟨fun p hp => selected_eq_some_iff f hp, ?_⟩
  cases hlookup : cmds.lookup (toUpper f.map first) with
  | some sp =>
    have hmem := mem_cmds_of_lookup hlookup
    refine .inl ⟨_, hmem, (toUpper_eq_name_iff f hmem).mp rfl, ?_⟩
    simp only [dispatch, resolve, hlookup]
  | none =>
    refine .inr ⟨fun p hp hspells => ?_, ?_⟩
    · have hname := (selected_eq_some_iff f hp).mpr hspells
      rw [selected, hlookup] at hname
      cases hname
    · simp only [dispatch, resolve, hlookup, runResolved]

/-- "ſet", with U+017F for the S, is not SET up to ASCII case, and sets the key. -/
theorem dispatch_long_s :
    let set : Bytes := [0xC5, 0xBF, 101, 116]
    let env : Env := ⟨0, [], .ok (), fun _ => .error .other⟩
    set.length ≠ 3 ∧ set.map upperByte ≠ ascii ['S', 'E', 'T'] ∧
      selected unicodeCasing.map set = some .set ∧
      (dispatch unicodeCasing.map env .new [set, [107], [118]]).1 = .simple (text "OK") ∧
      (dispatch unicodeCasing.map env .new [set, [107], [118]]).2.get [107] 0 = some [118] := by
  intro set env
  have hname : toUpper unicodeCasing.map set = ascii ['S', 'E', 'T'] := by decide +kernel
  have hset : dispatch unicodeCasing.map env .new [set, [107], [118]] =
      cmdSet unicodeCasing.map env .new [set, [107], [118]] := by
    simp only [dispatch, resolve, hname]
    rfl
  have hsel : selected unicodeCasing.map set = some .set := by
    unfold selected
    rw [hname]
    rfl
  rw [hset]
  exact ⟨by decide, by decide, hsel, rfl, by decide⟩

end GoKv.Command
