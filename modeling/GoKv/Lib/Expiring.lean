import Mathlib.Order.Lattice
import Mathlib.Data.Option.Basic

/-! Values with an optional deadline. A value is alive strictly before its deadline, and what a
later observer sees does not depend on whether the dead were discarded earlier. -/
namespace GoLib

variable {V T : Type*} [LinearOrder T]

/-- A value without a deadline is always alive; the deadline itself is already too late. -/
def aliveAt (now : T) (e : V × Option T) : Bool :=
  match e.2 with
  | none => true
  | some deadline => now < deadline

@[simp] theorem aliveAt_none (now : T) (v : V) : aliveAt now (v, none) = true := rfl

@[simp] theorem aliveAt_some (now deadline : T) (v : V) :
    aliveAt now (v, some deadline) = decide (now < deadline) := rfl

theorem aliveAt_of_le {t u : T} (h : t ≤ u) {e : V × Option T} (he : aliveAt u e = true) :
    aliveAt t e = true := by
  obtain ⟨v, _ | deadline⟩ := e
  · rfl
  · simp only [aliveAt_some, decide_eq_true_eq] at he ⊢
    exact h.trans_lt he

def liveAt (now : T) (x : Option (V × Option T)) : Option (V × Option T) := x.filter (aliveAt now)

@[simp] theorem liveAt_none (now : T) : liveAt now (none : Option (V × Option T)) = none := rfl

@[simp] theorem liveAt_persistent (now : T) (v : V) :
    liveAt now (some (v, none)) = some (v, none) := rfl

theorem liveAt_some (now : T) (e : V × Option T) :
    liveAt now (some e) = if aliveAt now e = true then some e else none := by
  simp only [liveAt, Option.filter_some]

theorem liveAt_eq_some {now : T} {x : Option (V × Option T)} {e : V × Option T} :
    liveAt now x = some e ↔ x = some e ∧ aliveAt now e = true := by
  simp [liveAt, Option.filter_eq_some_iff]

/-- Discarding the dead early changes nothing for a later observer. -/
theorem liveAt_liveAt {t u : T} (h : t ≤ u) (x : Option (V × Option T)) :
    liveAt u (liveAt t x) = liveAt u x := by
  cases x with
  | none => rfl
  | some e =>
    rw [liveAt_some t, liveAt_some u]
    by_cases hu : aliveAt u e = true
    · rw [if_pos (aliveAt_of_le h hu), liveAt_some]
    · split_ifs
      · rw [liveAt_some, if_neg hu]
      · rfl

end GoLib
