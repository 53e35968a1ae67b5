import Mathlib.Data.List.Basic

/-! Finite schedules of a partial step function, and the rules that carry a
property of one step to every run. -/
namespace GoLib

variable {σ ε : Type*} {step : σ → ε → Option σ}

/-- Run a schedule. A step that is not enabled leaves the run undefined. -/
def runSteps (step : σ → ε → Option σ) : σ → List ε → Option σ
  | s, [] => some s
  | s, e :: es => (step s e).bind fun s' => runSteps step s' es

@[simp] theorem runSteps_nil (s : σ) : runSteps step s [] = some s := rfl

theorem runSteps_cons_eq_some {s t : σ} {e : ε} {es : List ε} :
    runSteps step s (e :: es) = some t ↔
      ∃ u, step s e = some u ∧ runSteps step u es = some t := by
  simp [runSteps, Option.bind_eq_some_iff]

theorem runSteps_append_eq_some {s t : σ} {es fs : List ε} :
    runSteps step s (es ++ fs) = some t ↔
      ∃ u, runSteps step s es = some u ∧ runSteps step u fs = some t := by
  induction es generalizing s with
  | nil => simp
  | cons e es ih =>
    simp only [List.cons_append, runSteps_cons_eq_some, ih]
    constructor
    · rintro ⟨u, hu, v, hv, ht⟩
      exact ⟨v, ⟨u, hu, hv⟩, ht⟩
    · rintro ⟨v, ⟨u, hu, hv⟩, ht⟩
      exact ⟨u, hu, v, hv, ht⟩

theorem runSteps_rest {s t u : σ} {es fs : List ε} (hrun : runSteps step s (es ++ fs) = some t)
    (hes : runSteps step s es = some u) : runSteps step u fs = some t := by
  obtain ⟨v, hv, hrest⟩ := runSteps_append_eq_some.mp hrun
  obtain rfl : v = u := Option.some.inj (hv.symm.trans hes)
  exact hrest

/-- What every enabled step of a kind keeps, every run of such steps keeps. -/
theorem runSteps_invariant_of {I : σ → Prop} {P : ε → Prop}
    (hstep : ∀ s e t, step s e = some t → P e → I s → I t)
    {s t : σ} {es : List ε} (hrun : runSteps step s es = some t) (hes : ∀ e ∈ es, P e)
    (hs : I s) : I t := by
  induction es generalizing s with
  | nil => cases hrun; exact hs
  | cons e es ih =>
    obtain ⟨u, hu, ht⟩ := runSteps_cons_eq_some.mp hrun
    obtain ⟨he, hes⟩ := List.forall_mem_cons.mp hes
    exact ih ht hes (hstep s e u hu he hs)

/-- What every enabled step keeps, every run keeps. -/
theorem runSteps_invariant {I : σ → Prop}
    (hstep : ∀ s e t, step s e = some t → I s → I t)
    {s t : σ} {es : List ε} (hrun : runSteps step s es = some t) (hs : I s) : I t :=
  runSteps_invariant_of (P := fun _ => True) (fun s e t h _ => hstep s e t h) hrun
    (fun _ _ => trivial) hs

/-- A reflexive and transitive relation that every step respects relates the ends of a run.
The invariant `I` is available at every step. -/
theorem runSteps_relates {I : σ → Prop} {r : σ → σ → Prop} (hrefl : ∀ s, r s s)
    (htrans : ∀ s t u, r s t → r t u → r s u)
    (hinv : ∀ s e t, step s e = some t → I s → I t)
    (hstep : ∀ s e t, step s e = some t → I s → r s t)
    {s t : σ} {es : List ε} (hrun : runSteps step s es = some t) (hs : I s) : r s t := by
  induction es generalizing s with
  | nil => cases hrun; exact hrefl _
  | cons e es ih =>
    obtain ⟨u, hu, ht⟩ := runSteps_cons_eq_some.mp hrun
    exact htrans s u t (hstep s e u hu hs) (ih ht (hinv s e u hu hs))

/-- What holds at the end of a run and not at its start began to hold at one of its steps. -/
theorem runSteps_gains {P : σ → Prop} {s t : σ} {es : List ε} (hrun : runSteps step s es = some t)
    (hs : ¬ P s) (ht : P t) :
    ∃ before e after u v, es = before ++ e :: after ∧ runSteps step s before = some u ∧
      step u e = some v ∧ ¬ P u ∧ P v := by
  induction es generalizing s with
  | nil => cases hrun; exact absurd ht hs
  | cons e es ih =>
    obtain ⟨u, hu, hrest⟩ := runSteps_cons_eq_some.mp hrun
    by_cases hPu : P u
    · exact ⟨[], e, es, s, u, rfl, rfl, hu, hs, hPu⟩
    · obtain ⟨before, e', after, v, w, rfl, hv, hw, hnot, hP⟩ := ih hrest hPu
      exact ⟨e :: before, e', after, v, w, rfl, runSteps_cons_eq_some.mpr ⟨u, hu, hv⟩, hw, hnot, hP⟩

/-- A count that no step raises by more than one takes every value on the way. -/
theorem runSteps_passes {f : σ → ℕ} (hstep : ∀ s e t, step s e = some t → f t ≤ f s + 1)
    {s t : σ} {es : List ε} (hrun : runSteps step s es = some t) {n : ℕ} (hlo : f s ≤ n)
    (hhi : n ≤ f t) :
    ∃ before after u, es = before ++ after ∧ runSteps step s before = some u ∧
      runSteps step u after = some t ∧ f u = n := by
  induction es generalizing s with
  | nil =>
    cases hrun
    exact ⟨[], [], _, rfl, rfl, rfl, Nat.le_antisymm hlo hhi⟩
  | cons e es ih =>
    by_cases heq : f s = n
    · exact ⟨[], e :: es, s, rfl, rfl, hrun, heq⟩
    · obtain ⟨u, hu, hrest⟩ := runSteps_cons_eq_some.mp hrun
      have hle := hstep s e u hu
      obtain ⟨before, after, v, rfl, hv, ht, hn⟩ := ih hrest (by omega)
      exact ⟨e :: before, after, v, rfl, runSteps_cons_eq_some.mpr ⟨u, hu, hv⟩, ht, hn⟩

/-- Steps of one kind are paid out of a stock, and steps of another put `k` back: a run has no more
of the first kind than there is to pay for. The invariant `I` is available at every step. -/
theorem runSteps_pays {I : σ → Prop} {stock : σ → ℕ} {p q : ε → Bool} {k : ℕ}
    (hinv : ∀ s e t, step s e = some t → I s → I t)
    (hstep : ∀ s e t, step s e = some t → I s →
      (if p e then 1 else 0) + stock t ≤ stock s + k * if q e then 1 else 0)
    {s t : σ} {es : List ε} (hrun : runSteps step s es = some t) (hs : I s) :
    es.countP p + stock t ≤ stock s + k * es.countP q := by
  induction es generalizing s with
  | nil =>
    cases hrun
    simp
  | cons e es ih =>
    obtain ⟨u, hu, hrest⟩ := runSteps_cons_eq_some.mp hrun
    have hone := hstep s e u hu hs
    have hmany := ih hrest (hinv s e u hu hs)
    rw [List.countP_cons, List.countP_cons, Nat.mul_add]
    omega

/-- A property that a step keeps exactly when it meets `P` holds at the end of a run exactly when
every step of it met `P`. The invariant `I` is available at every step. -/
theorem runSteps_iff_forall {I Q : σ → Prop} {P : σ → ε → Prop}
    (hinv : ∀ s e t, step s e = some t → I s → I t)
    (hstep : ∀ s e t, step s e = some t → I s → (Q t ↔ Q s ∧ P s e))
    {s t : σ} {es : List ε} (hrun : runSteps step s es = some t) (hs : I s) :
    Q t ↔ Q s ∧ ∀ before e after u, es = before ++ e :: after →
      runSteps step s before = some u → P u e := by
  induction es generalizing s with
  | nil =>
    cases hrun
    refine ⟨fun h => ⟨h, fun before e after u hes => ?_⟩, And.left⟩
    simp at hes
  | cons e es ih =>
    obtain ⟨v, hv, hrest⟩ := runSteps_cons_eq_some.mp hrun
    rw [ih hrest (hinv s e v hv hs), hstep s e v hv hs, and_assoc]
    refine and_congr_right fun _ => ⟨?_, fun h => ⟨?_, ?_⟩⟩
    · rintro ⟨hP, hall⟩ before e' after u hes hu
      cases before with
      | nil =>
        cases hes
        cases hu
        exact hP
      | cons b before =>
        obtain ⟨rfl, htail⟩ := List.cons.inj hes
        obtain ⟨w, hw, hu⟩ := runSteps_cons_eq_some.mp hu
        obtain rfl := Option.some.inj (hv.symm.trans hw)
        exact hall before e' after u htail hu
    · exact h [] e es s rfl rfl
    · rintro before e' after u rfl hu
      exact h (e :: before) e' after u rfl (runSteps_cons_eq_some.mpr ⟨v, hv, hu⟩)

/-- A relation that survives every step, with some steps of another system for each, relates the
end of a run to the end of one of the other system. -/
theorem runSteps_simulates {τ δ : Type*} {step' : τ → δ → Option τ} {R : σ → τ → Prop}
    (hstep : ∀ s e t s', step s e = some t → R s s' →
      ∃ ds t', runSteps step' s' ds = some t' ∧ R t t')
    {s t : σ} {es : List ε} (hrun : runSteps step s es = some t) {s' : τ} (hs : R s s') :
    ∃ ds t', runSteps step' s' ds = some t' ∧ R t t' := by
  induction es generalizing s s' with
  | nil =>
    cases hrun
    exact ⟨[], s', rfl, hs⟩
  | cons e es ih =>
    obtain ⟨u, hu, hrest⟩ := runSteps_cons_eq_some.mp hrun
    obtain ⟨ds, u', hds, hR⟩ := hstep s e u s' hu hs
    obtain ⟨ds', t', hds', ht⟩ := ih hrest hR
    exact ⟨ds ++ ds', t', runSteps_append_eq_some.mpr ⟨u', hds, hds'⟩, ht⟩

/-- Only the steps that meet `P` remain enabled. -/
def guarded (P : σ → ε → Prop) [∀ s e, Decidable (P s e)] (step : σ → ε → Option σ)
    (s : σ) (e : ε) : Option σ :=
  if P s e then step s e else none

/-- What a guarded outcome has, the state a step reached has. -/
theorem of_guard {p : Prop} [Decidable p] {s t : σ} {r : σ → Prop} (hr : p → r s)
    (h : (if p then some s else none) = some t) : r t := by
  split_ifs at h with hp
  cases h
  exact hr hp

theorem guarded_eq_some {P : σ → ε → Prop} [∀ s e, Decidable (P s e)] {s t : σ} {e : ε} :
    guarded P step s e = some t ↔ P s e ∧ step s e = some t := by
  unfold guarded
  split_ifs with h <;> simp [h]

end GoLib
