import GoKv.Server.Lifecycle

/-! What Run returns: a fatal condition that was reported before the verdict is the one it names,
and nothing a reporter or the shutdown does keeps it from returning. -/
namespace GoKv
open GoLib

namespace Lifecycle

variable {ε : Type*} {s t : Lifecycle ε}

/-! ## No fatal condition is lost -/

/-- The verdict was given without a fatal condition. -/
def spared (s : Lifecycle ε) : Bool :=
  match s.main with
  | .closing res | .leaving res | .returned res =>
    match res with
    | some (.fatal _) => false
    | _ => true
  | _ => false

theorem spared_map {m : Option ε} {err : ε} (hm : m = some err) :
    (match m.map RunErr.fatal with
      | some (.fatal _) => false
      | _ => true) = false := by
  rw [hm]
  rfl

/-- A condition that is out before the verdict decides it. -/
theorem doomed_step (h : s.Sound) (hm : s.Moves t) (hd : s.sup.done = true)
    (hs : s.spared = false) : t.sup.done = true ∧ t.spared = false := by
  obtain ⟨err, hc⟩ := h.sup.cause_of_done hd
  refine ⟨done_moves hm hd, ?_⟩
  cases hm with
  | turn m hm =>
    have ht := h.told
    unfold spared at hs ⊢
    unfold Told at ht
    generalize s.main = m₀ at hm hs ht
    cases hm with
    | spared hf => simp [hd] at hf
    | timedOut hf => simp [hd] at hf
    | aborted cause => exact spared_map (ht.2.trans hc)
    | cause => exact spared_map hc
    | closeConns res => exact hs
    | leave res => exact hs
    | _ => rfl
  | fatal g e sup _ _ => exact hs
  | panicked g err sup _ => exact hs
  | unguarded g => exact hs
  | repanic g sup _ => exact hs
  | recovered g reported hp => exact hs
  | _ => rfl

theorem cause_run {es : List (LifeEvent ε)} (hrun : runSteps step s es = some t) (h : s.Sound)
    {cause : ε} (hc : s.sup.cause = some cause) : t.sup.cause = some cause := by
  refine (runSteps_invariant (I := fun s => s.Sound ∧ s.sup.cause = some cause) ?_ hrun ⟨h, hc⟩).2
  rintro s e t hstep ⟨h, hc⟩
  refine ⟨sound_step h hstep, ?_⟩
  rcases sup_moves (step_moves hstep) with hs | ⟨g, e, hs⟩
  · rw [hs]
    exact hc
  · exact Supervisor.cause_step h.sup hs hc

theorem doomed_run {es : List (LifeEvent ε)} (hrun : runSteps step s es = some t) (h : s.Sound)
    (hd : s.sup.done = true) (hs : s.spared = false) : t.sup.done = true ∧ t.spared = false := by
  refine (runSteps_invariant
    (I := fun s => s.Sound ∧ s.sup.done = true ∧ s.spared = false) ?_ hrun ⟨h, hd, hs⟩).2
  rintro s e t hstep ⟨h, hd, hs⟩
  exact ⟨sound_step h hstep, doomed_step h (step_moves hstep) hd hs⟩

theorem Sound.gates_sane (h : s.Sound) : s.gates.crashed = false := by
  have hp := h.placed
  unfold Placed at hp
  split at hp
  · exact hp.2
  · exact hp.2
  · exact hp.sane
  · exact hp.sane
  · exact hp.sane

/-- In every run: no channel is closed twice; a panic that was reported is not taken for a harmless
one; when Run has returned, the listener is closed, mutations are refused and draining is announced,
and a fatal error it returns is the one the supervisor tells, reported by somebody. And once any
call of Fatal has returned, the first or not, the cause is settled, and unless the verdict was
already given Run returns that cause. -/
theorem no_fatal_lost {es : List (LifeEvent ε)} (hrun : runSteps step start es = some s) :
    s.sup.crashed = false ∧ s.gates.crashed = false ∧
      (∀ g fired, s.panics g = .recovered true fired → fired = true) ∧
      (∀ res, s.main = .returned res →
        s.gates.listening = false ∧ s.gates.accepting = false ∧ s.gates.announced = true ∧
          ∀ cause, res = some (.fatal cause) →
            s.sup.cause = some cause ∧ cause ∈ s.sup.calls) ∧
      ∀ before after u g err, es = before ++ after → runSteps step start before = some u →
        u.sup.pcs g = .back err →
        ∃ cause, u.sup.cause = some cause ∧ s.sup.cause = some cause ∧
          (u.spared = false → ∀ res, s.main = .returned res → res = some (.fatal cause)) := by
  have hs := sound_run hrun
  refine ⟨hs.sup.sane, hs.gates_sane, fun g fired hp => ?_, fun res hm => ?_, ?_⟩
  · have hheard := hs.heard g
    rw [hp] at hheard
    exact hheard rfl
  · have hp := hs.placed
    have ht := hs.told
    simp only [Placed, hm] at hp
    simp only [Told, hm] at ht
    refine ⟨?_, ?_, ?_, fun cause hc => ⟨(ht cause hc).2, hs.sup.told cause (ht cause hc).2⟩⟩
    · simpa using hp.listener
    · simpa using hp.gate
    · simpa using hp.announce
  · rintro before after u g err rfl hu hb
    have hus := sound_run hu
    have hrest := runSteps_rest hrun hu
    have hd := hus.sup.done_of_back hb
    obtain ⟨cause, hc⟩ := hus.sup.cause_of_done hd
    have hcs := cause_run hrest hus hc
    refine ⟨cause, hc, hcs, fun hsp res hm => ?_⟩
    obtain ⟨-, hspared⟩ := doomed_run hrest hus hd hsp
    have ht := hs.told
    simp only [Told, hm] at ht
    simp only [spared, hm] at hspared
    cases res with
    | none => cases hspared
    | some e =>
      cases e with
      | timeout => cases hspared
      | fatal x =>
        rw [(ht x rfl).2] at hcs
        cases hcs
        rfl

/-- A handler's panic comes up while the server drains, and Finalize fails at the same time. -/
def lateFatal : List (LifeEvent ℕ) :=
  [.main .cancelled, .main .act, .main .act, .main .act, .main .act, .main .act, .main .act,
    .panicked 7 1, .main (.waited .conns), .main (.finalized (some 2)), .fatal 7 .first,
    .fatal 7 .record]

def lateFatalEnd : List (LifeEvent ℕ) :=
  [.fatal 7 .close, .fatal 7 .leave, .repanic 7, .recovered 7, .main (.fatal .skip),
    .main .resume, .main .fired, .main .cause, .main .closeConns, .main (.leave .supDone)]

theorem no_fatal_lost_late :
    ∃ s, runSteps step (start : Lifecycle ℕ) (lateFatal ++ lateFatalEnd) = some s ∧
      s.main = .returned (some (.fatal 1)) ∧ s.sup.calls = [1, 2] ∧ s.sup.crashed = false ∧
      s.gates.accepting = false := by
  have hrun : runSteps step (start : Lifecycle ℕ) (lateFatal ++ lateFatalEnd) = some _ := rfl
  obtain ⟨hsane, -, -, hret, -⟩ := no_fatal_lost hrun
  exact ⟨_, hrun, rfl, rfl, hsane, (hret _ rfl).2.1⟩

/-! ## Run can return -/

/-- Some schedule takes RunWithReady to its return. -/
def Completes (s : Lifecycle ε) : Prop :=
  ∃ es t res, runSteps step s es = some t ∧ t.main = .returned res

theorem Completes.of_run {es : List (LifeEvent ε)} (hrun : runSteps step s es = some t)
    (h : t.Completes) : s.Completes := by
  obtain ⟨fs, u, res, hfs, hu⟩ := h
  exact ⟨es ++ fs, u, res, runSteps_append_eq_some.mpr ⟨t, hrun, hfs⟩, hu⟩

theorem Completes.cons {e : LifeEvent ε} (hstep : s.step e = some t) (h : t.Completes) :
    s.Completes :=
  h.of_run (runSteps_cons_eq_some.mpr ⟨t, hstep, runSteps_nil t⟩)

theorem completes_leaving {res : Option (RunErr ε)} (hm : s.main = .leaving res) :
    s.Completes := by
  have hstep : s.step (.main (.leave .elapsed)) = some { s with main := .returned res } := by
    simp only [step, mainStep, hm, waitConns, Option.map_some]
  exact .cons hstep ⟨[], _, res, rfl, rfl⟩

theorem completes_closing {res : Option (RunErr ε)} (hm : s.main = .closing res) :
    s.Completes := by
  have hstep : s.step (.main .closeConns) = some { s with main := .leaving res } := by
    simp only [step, mainStep, hm]
  exact .cons hstep (completes_leaving rfl)

theorem completes_condemned (hm : s.main = .condemned) : s.Completes := by
  have hstep : s.step (.main .cause) =
      some { s with main := .closing (s.sup.cause.map .fatal) } := by
    simp only [step, mainStep, hm]
  exact .cons hstep (completes_closing rfl)

theorem completes_judging {drained : Bool} (hm : s.main = .judging drained) : s.Completes := by
  have hstep : s.step (.main .fired) =
      some { s with main := .verdict s.sup.fired drained } := by
    simp only [step, mainStep, hm]
  refine .cons hstep ?_
  unfold RunPc.verdict
  split_ifs
  · exact completes_condemned rfl
  · exact ⟨[], _, none, rfl, rfl⟩
  · exact completes_closing rfl

theorem completes_waiting (hm : s.main = .waiting) : s.Completes := by
  have hwait : s.step (.main (.waited .elapsed)) =
      some { s with main := .finalizing false } := by
    simp only [step, mainStep, hm, waitConns, Option.map_some]
  have hfinal : step { s with main := .finalizing false } (.main (.finalized none)) =
      some { s with main := .judging false } := rfl
  exact .cons hwait (.cons hfinal (completes_judging rfl))

theorem completes_draining {todo : List Action} (hm : s.main = .draining todo) :
    s.Completes := by
  induction todo generalizing s with
  | nil =>
    have hstep : s.step (.main .act) = some { s with main := .waiting } := by
      simp only [step, mainStep, hm]
    exact .cons hstep (completes_waiting rfl)
  | cons a todo ih =>
    exact .cons (step_draining hm) (ih rfl)

theorem completes_aborting {cause : Option ε} {todo : List Action}
    (hm : s.main = .aborting cause todo) : s.Completes := by
  induction todo generalizing s with
  | nil =>
    have hstep : s.step (.main .act) = some { s with main := .leaving (cause.map .fatal) } := by
      simp only [step, mainStep, hm]
    exact .cons hstep (completes_leaving rfl)
  | cons a todo ih =>
    exact .cons (step_aborting hm) (ih rfl)

/-- Neither a call of Fatal nor the order of the shutdown's steps can keep Run from returning:
from every state of every run some schedule ends it. -/
theorem run_completes {es : List (LifeEvent ε)} (hrun : runSteps step start es = some s) :
    ∃ fs t res, runSteps step s fs = some t ∧ t.main = .returned res := by
  change s.Completes
  have hs := sound_run hrun
  cases hm : s.main with
  | serving =>
    have hstep : s.step (.main .cancelled) = some { s with main := .draining gracefulActions } := by
      simp only [step, mainStep, hm]
    exact .cons hstep (completes_draining rfl)
  | draining todo => exact completes_draining hm
  | waiting => exact completes_waiting hm
  | finalizing drained =>
    have hstep : s.step (.main (.finalized none)) = some { s with main := .judging drained } := by
      simp only [step, mainStep, hm]
    exact .cons hstep (completes_judging rfl)
  | reporting drained =>
    obtain ⟨fs, sup, err, hfs, hinner, hb⟩ := hs.sup.returns (hs.inFatal drained hm)
    have hstep : step { s with sup := sup } (.main .resume) =
        some { s with sup := sup.setPc none .away, main := .judging drained } := by
      simp only [step, mainStep, hm, Supervisor.step, hb, Option.map_some]
    exact .of_run (run_ofFatal hinner hfs) (.cons hstep (completes_judging rfl))
  | judging drained => exact completes_judging hm
  | condemned => exact completes_condemned hm
  | seen =>
    have hstep : s.step (.main .cause) =
        some { s with main := .aborting s.sup.cause fatalActions } := by
      simp only [step, mainStep, hm]
    exact .cons hstep (completes_aborting rfl)
  | aborting cause todo => exact completes_aborting hm
  | closing res => exact completes_closing hm
  | leaving res => exact completes_leaving hm
  | returned res => exact ⟨[], s, res, rfl, hm⟩

/-- Finalize's report waits for the handler in Fatal. -/
theorem run_completes_late :
    ∃ s, runSteps step (start : Lifecycle ℕ) lateFatal = some s ∧
      s.main = .reporting true ∧ s.sup.once = .running (some 7) ∧
      ∃ fs t res, runSteps step s fs = some t ∧ t.main = .returned res := by
  have hrun : runSteps step (start : Lifecycle ℕ) lateFatal = some _ := rfl
  exact ⟨_, hrun, rfl, rfl, run_completes hrun⟩

end Lifecycle

end GoKv
