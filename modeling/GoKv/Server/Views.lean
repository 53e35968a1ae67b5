import GoKv.Server.Lifecycle
import GoKv.Server.Sessions
import GoKv.Server.Steps

/-! Three views of one shutdown. The server over its engine and log takes a report of a fatal
condition for one step, and the scan sessions do not look at reports at all; the lifecycle has every
step of them. Whatever the first two do is done by a run of the third. -/
namespace GoKv
open GoLib

/-! ## A report from its call to its end -/

namespace Supervisor

variable {ι ε : Type*}

/-- Nobody is in Fatal, and this was the first report, if there was one. -/
structure Quiet (s : Supervisor ι ε) (first : Option ε) : Prop where
  cause : s.cause = first
  done : s.done = first.isSome
  once : s.once = if first.isSome then .ran else .fresh
  away : ∀ g, s.pcs g = .away

variable [DecidableEq ι] {s : Supervisor ι ε} {first : Option ε}

theorem step_forget {g : ι} {err : ε} (hp : s.pcs g = .back err) :
    s.step g .forget = some (s.setPc g .away) := by
  simp only [step, hp]

theorem quiet_report (h : s.Quiet first) (g : ι) (err : ε) :
    ∃ t es u v, s.step g (.call err) = some t ∧ runSteps advance t es = some u ∧
      (∀ x ∈ es, x.2.inner = true) ∧ u.step g .forget = some v ∧
      v.Quiet (first.or (some err)) := by
  have hcall : s.step g (.call err) =
      some { s.setPc g (.calling err) with calls := s.calls ++ [err] } := by
    simp only [step, h.away g]
  have haway : ∀ j, Function.update (Function.update s.pcs g (.back err)) g .away j = .away := by
    intro j
    by_cases hj : j = g
    · rw [hj, Function.update_self]
    · rw [Function.update_of_ne hj, Function.update_of_ne hj, h.away]
  cases first with
  | none =>
    have hfresh : s.once = .fresh := h.once
    have hrun : runSteps advance { s.setPc g (.calling err) with calls := s.calls ++ [err] }
        [(g, .first), (g, .record), (g, .close), (g, .leave)] =
        some { s.setPc g (.back err) with
          once := .ran
          done := true
          cause := some err
          crashed := s.crashed || s.done
          calls := s.calls ++ [err] } := by
      simp only [runSteps, advance, step, setPc, Function.update_self, Function.update_idem, hfresh,
        Option.bind_some]
    exact ⟨_, _, _, _, hcall, hrun, by simp [FatalEvent.inner],
      step_forget (Function.update_self _ _ _), rfl, rfl, rfl, haway⟩
  | some c =>
    have hran : s.once = .ran := h.once
    have hrun : runSteps advance { s.setPc g (.calling err) with calls := s.calls ++ [err] }
        [(g, .skip)] = some { s.setPc g (.back err) with calls := s.calls ++ [err] } := by
      simp only [runSteps, advance, step, setPc, Function.update_self, Function.update_idem, hran,
        Option.bind_some]
    exact ⟨_, _, _, _, hcall, hrun, by simp [FatalEvent.inner],
      step_forget (Function.update_self _ _ _), h.cause, h.done, hran, haway⟩

end Supervisor

namespace Lifecycle

variable {ε : Type*} {l : Lifecycle ε} {first : Option ε}

/-- Some run from here ends so. -/
def Reaches (l : Lifecycle ε) (P : Lifecycle ε → Prop) : Prop :=
  ∃ ds l', runSteps step l ds = some l' ∧ P l'

theorem run_draining {a : Action} {todo : List Action} (hm : l.main = .draining (a :: todo)) :
    runSteps step l [.main .act] =
      some { l with gates := l.gates.act a, main := .draining todo } :=
  runSteps_cons_eq_some.mpr ⟨_, step_draining hm, rfl⟩

/-- A goroutine reports, from its call to its return. -/
theorem run_report (hq : l.sup.Quiet first) (hc : l.panics 0 = .calm) (err : ε) :
    ∃ ds sup, runSteps step l ds = some { l with sup := sup } ∧
      sup.Quiet (first.or (some err)) := by
  obtain ⟨t, es, u, v, hcall, hrun, hinner, hforget, hquiet⟩ :=
    Supervisor.quiet_report hq (some 0) err
  refine ⟨.fatal 0 (.call err) :: (es.map ofFatal ++ [.fatal 0 .forget]), v, ?_, hquiet⟩
  refine runSteps_cons_eq_some.mpr ⟨{ l with sup := t }, ?_, runSteps_append_eq_some.mpr
    ⟨{ l with sup := u }, run_ofFatal hinner hrun, ?_⟩⟩
  · simp only [step, hc, or_true, if_true, hcall, Option.map_some]
  · simp only [runSteps, step, hc, or_true, if_true, hforget, Option.map_some, Option.bind_some]

/-- Finalize fails, and RunWithReady reports it. -/
theorem run_finalize_failed (hq : l.sup.Quiet first) {drained : Bool}
    (hm : l.main = .finalizing drained) (err : ε) :
    ∃ ds sup, runSteps step l ds = some { l with sup := sup, main := .judging drained } ∧
      sup.Quiet (first.or (some err)) := by
  obtain ⟨t, es, u, v, hcall, hrun, hinner, hforget, hquiet⟩ :=
    Supervisor.quiet_report hq none err
  refine ⟨.main (.finalized (some err)) :: (es.map ofFatal ++ [.main .resume]), v, ?_, hquiet⟩
  refine runSteps_cons_eq_some.mpr
    ⟨{ l with sup := t, main := .reporting drained }, ?_, runSteps_append_eq_some.mpr
      ⟨{ l with sup := u, main := .reporting drained }, run_ofFatal hinner hrun, ?_⟩⟩
  · simp only [step, mainStep, hm, hcall, Option.map_some]
  · simp only [runSteps, step, mainStep, hforget, Option.map_some, Option.bind_some]

theorem run_judge (hq : l.sup.Quiet first) {drained : Bool} (hm : l.main = .judging drained) :
    ∃ ds, runSteps step l ds = some { l with
      main := .returned ((first.map .fatal).or (if drained then none else some .timeout)) } := by
  have hcause := hq.cause
  have hdone : l.sup.fired = first.isSome := hq.done
  cases first with
  | some cause =>
    refine ⟨[.main .fired, .main .cause, .main .closeConns, .main (.leave .elapsed)], ?_⟩
    simp only [runSteps, step, mainStep, hm, hdone, RunPc.verdict, Option.isSome_some, if_true,
      hcause, waitConns, Option.map_some, Option.bind_some, Option.some_or]
  | none =>
    cases drained with
    | true =>
      refine ⟨[.main .fired], ?_⟩
      simp [runSteps, step, mainStep, hm, hdone, RunPc.verdict]
    | false =>
      refine ⟨[.main .fired, .main .closeConns, .main (.leave .elapsed)], ?_⟩
      simp [runSteps, step, mainStep, hm, hdone, RunPc.verdict, waitConns]

theorem shut_of_returned {ds : List (LifeEvent ε)} (hrun : runSteps step start ds = some l)
    {res : Option (RunErr ε)} (hm : l.main = .returned res) :
    l.gates.accepting = false ∧ l.gates.announced = true ∧
      ∀ cause, res = some (.fatal cause) → l.sup.cause = some cause := by
  have h := sound_run hrun
  have hplaced := h.placed
  have htold := h.told
  simp only [Placed, hm] at hplaced
  simp only [Told, hm] at htold
  refine ⟨?_, ?_, fun cause hres => (htold cause hres).2⟩
  · exact Bool.eq_false_iff.mpr fun ha => List.not_mem_nil (hplaced.gate ha)
  · exact Bool.eq_true_of_not_eq_false fun ha => List.not_mem_nil (hplaced.announce.mp ha)

end Lifecycle

/-! ## The server over its engine and log -/

/-- Where RunWithReady is. The log's Close is inside Finalize, and the pass over the deadlines is
one action. -/
def Stage.main : Stage → RunPc Fatal
  | .serving => .serving
  | .listenerClosed => .draining [.stopExpiration, .beginDrain, .closeDraining, .passDeadlines]
  | .expirationStopped => .draining [.beginDrain, .closeDraining, .passDeadlines]
  | .admissionClosed => .draining [.closeDraining, .passDeadlines]
  | .signalled | .passing _ => .draining [.passDeadlines]
  | .waiting _ => .waiting
  | .finalizing d | .closing d | .awaitingClose d => .finalizing d
  | .finalized d => .judging d
  | .returned res => .returned res

def Stage.listens : Stage → Bool
  | .serving => true
  | _ => false

structure Server.Lived (s : Server) (l : Lifecycle Fatal) : Prop where
  sup : l.sup.Quiet s.fatal
  calm : l.panics 0 = .calm
  main : l.main = s.stage.main
  listening : l.gates.listening = s.stage.listens
  accepting : l.gates.accepting = s.engine.acceptingMutations
  announced : l.gates.announced = s.draining

namespace Server

variable {s t : Server} {l : Lifecycle Fatal}

theorem lived_start (cfg : Config) {engine : Engine} (clock : ℤ)
    (ha : engine.acceptingMutations = true) : (start cfg engine clock).Lived .start :=
  ⟨⟨rfl, rfl, rfl, fun _ => rfl⟩, rfl, rfl, rfl, ha.symm, rfl⟩

theorem Lived.turn (h : s.Lived l) (ds : List (LifeEvent Fatal))
    (hrun : runSteps Lifecycle.step l ds = some { l with main := t.stage.main })
    (hf : t.fatal = s.fatal) (hl : t.stage.listens = s.stage.listens)
    (ha : t.engine.acceptingMutations = s.engine.acceptingMutations)
    (hd : t.draining = s.draining) :
    l.Reaches t.Lived :=
  ⟨ds, _, hrun, hf ▸ h.sup, h.calm, rfl, hl ▸ h.listening, ha ▸ h.accepting, hd ▸ h.announced⟩

/-- A step of the server that the lifecycle does not see. -/
theorem Lived.frame (h : s.Lived l) (hf : t.fatal = s.fatal) (hm : t.stage.main = s.stage.main)
    (hl : t.stage.listens = s.stage.listens)
    (ha : t.engine.acceptingMutations = s.engine.acceptingMutations)
    (hd : t.draining = s.draining) :
    l.Reaches t.Lived := by
  refine h.turn [] ?_ hf hl ha hd
  rw [hm, ← h.main]
  rfl

theorem Lived.report (h : s.Lived l) (cause : Fatal) :
    l.Reaches (s.report cause).Lived := by
  obtain ⟨ds, sup, hrun, hq⟩ := Lifecycle.run_report h.sup h.calm cause
  exact ⟨ds, _, hrun, hq, h.calm, h.main, h.listening, h.accepting, h.announced⟩

/-- Finalize reports that the log did not close, or not in time. -/
theorem Lived.finalize_failed (h : s.Lived l) {drained : Bool}
    (hs : s.stage = .awaitingClose drained) (cause : Fatal) :
    l.Reaches (Lived { s.report cause with stage := .finalized drained }) := by
  have hm : l.main = .finalizing drained := by rw [h.main, hs]; rfl
  obtain ⟨ds, sup, hrun, hq⟩ := Lifecycle.run_finalize_failed h.sup hm cause
  exact ⟨ds, _, hrun, hq, h.calm, rfl, by rw [h.listening, hs]; rfl, h.accepting, h.announced⟩

private theorem outcome_eq (fatal : Option Fatal) (drained : Bool) :
    outcome fatal drained = (fatal.map .fatal).or (if drained then none else some .timeout) := by
  cases fatal <;> rfl

private theorem accepting_of_awaits {e e' : Engine} {c : ℕ} {pc : Pc} (h : Awaits e c pc e') :
    e'.acceptingMutations = e.acceptingMutations := by
  rcases h with ⟨-, rfl⟩ | ⟨-, l, l', seq, p, -, -, rfl⟩ <;> rfl

theorem lived_moves {e : ServerEvent} (hm : Moves s e t) (h : s.Lived l) :
    l.Reaches t.Lived := by
  have hmain := h.main
  have hlisten := h.listening
  cases hm with
  | begin hs =>
    rw [hs] at hmain
    refine ⟨[.main .cancelled, .main .act], { l with
      main := Stage.listenerClosed.main
      gates := l.gates.act .closeListener }, ?_, h.sup, h.calm, rfl, rfl, h.accepting, h.announced⟩
    simp only [runSteps, Lifecycle.step, Lifecycle.mainStep, hmain, Stage.main, gracefulActions,
      Option.bind_some]
  | stopExpiration ok hs =>
    rw [hs] at hmain hlisten
    exact ⟨[.main .act], _, Lifecycle.run_draining hmain, h.sup, h.calm, rfl, hlisten,
      h.accepting, h.announced⟩
  | beginDrain hs =>
    rw [hs] at hmain hlisten
    exact ⟨[.main .act], _, Lifecycle.run_draining hmain, h.sup, h.calm, rfl, hlisten,
      rfl, h.announced⟩
  | closeDraining hs =>
    rw [hs] at hmain hlisten
    exact ⟨[.main .act], _, Lifecycle.run_draining hmain, h.sup, h.calm, rfl, hlisten,
      h.accepting, rfl⟩
  | unlock hs =>
    rw [hs] at hmain
    refine h.turn [.main .act, .main .act] ?_ rfl (by rw [hs]; rfl) rfl rfl
    simp only [runSteps, Lifecycle.step, Lifecycle.mainStep, hmain, Stage.main, Gates.act,
      Option.bind_some]
  | drained hs =>
    rw [hs] at hmain
    refine h.turn [.main (.waited .conns)] ?_ rfl (by rw [hs]; rfl) rfl rfl
    simp only [runSteps, Lifecycle.step, Lifecycle.mainStep, hmain, Stage.main,
      Lifecycle.waitConns, Option.map_some, Option.bind_some]
  | undrained d hs =>
    rw [hs] at hmain
    refine h.turn [.main (.waited .elapsed)] ?_ rfl (by rw [hs]; rfl) rfl rfl
    simp only [runSteps, Lifecycle.step, Lifecycle.mainStep, hmain, Stage.main,
      Lifecycle.waitConns, Option.map_some, Option.bind_some]
  | finalizeOff d hs hl | closeDone d l hs hl hd hf =>
    rw [hs] at hmain
    refine h.turn [.main (.finalized none)] ?_ rfl (by rw [hs]; rfl) rfl rfl
    simp only [runSteps, Lifecycle.step, Lifecycle.mainStep, hmain, Stage.main, Option.bind_some]
  | closeFailed d log err hs hl hd hf => exact h.finalize_failed hs (.log err)
  | closeTimeout d hs => exact h.finalize_failed hs .closeTimeout
  | judge d hs =>
    rw [hs] at hmain
    obtain ⟨ds, hrun⟩ := Lifecycle.run_judge h.sup hmain
    rw [← outcome_eq] at hrun
    exact h.turn ds hrun rfl (by rw [hs]; rfl) rfl rfl
  | fatal code => exact h.report (.engine code)
  | log e log log' fatal hl hl' hne hf =>
    have hset : (s.setLog log').Lived l :=
      ⟨h.sup, h.calm, h.main, h.listening, h.accepting, h.announced⟩
    rcases hf with rfl | ⟨cause, rfl⟩
    · exact hset.frame rfl rfl rfl rfl rfl
    · exact hset.report cause
  | exec c now op pc e hp hn ho he =>
    exact h.frame rfl rfl rfl ((accepting_of_awaits he).trans (Engine.exec_accepting ..)) rfl
  | lock hs | visit c now todo hs hc hn | waitDone d hs hw | finalize d log log' hs hl hl'
  | signalClose d log log' hs hl hl' =>
    exact h.frame rfl (by rw [hs]; rfl) (by rw [hs]; rfl) rfl rfl
  | _ => exact h.frame rfl rfl rfl rfl rfl

/-- Every run of the server is seen as a run of the lifecycle that is at the same point. -/
theorem lived_run {cfg : Config} {engine : Engine} {clock : ℤ} {es : List ServerEvent}
    (ha : engine.acceptingMutations = true)
    (hrun : runSteps step (start cfg engine clock) es = some s) :
    ∃ ds l, runSteps Lifecycle.step .start ds = some l ∧ s.Lived l :=
  runSteps_simulates (fun _ _ _ _ h hl => lived_moves (step_moves h) hl) hrun
    (lived_start cfg clock ha)

/-- What the lifecycle knows at its end holds of the server. -/
theorem shut_of_returned {cfg : Config} {engine : Engine} {clock : ℤ} {es : List ServerEvent}
    (ha : engine.acceptingMutations = true)
    (hrun : runSteps step (start cfg engine clock) es = some s) {res : Option (RunErr Fatal)}
    (hs : s.stage = .returned res) :
    s.engine.acceptingMutations = false ∧ s.draining = true ∧
      ∀ cause, res = some (.fatal cause) → s.fatal = some cause := by
  obtain ⟨ds, l, hl, h⟩ := lived_run ha hrun
  have hm : l.main = .returned res := by rw [h.main, hs]; rfl
  rw [← h.accepting, ← h.announced, ← h.sup.cause]
  exact Lifecycle.shut_of_returned hl hm

end Server

/-! ## The scan sessions -/

namespace Sessions

/-- What was reported when this shutdown began. -/
def Path.first : Path → Option Unit
  | .graceful => none
  | .fatal => some ()

def Path.main (todo : List Action) : Path → RunPc Unit
  | .graceful => .draining todo
  | .fatal => .aborting (some ()) todo

def Path.actions : Path → List Action
  | .graceful => gracefulActions
  | .fatal => fatalActions

/-- What is left once the listener is closed. -/
def Path.unlistened : Path → List Action
  | .graceful => [.stopExpiration, .beginDrain, .closeDraining, .passDeadlines]
  | .fatal => [.beginDrain, .closeDraining, .closeConns]

/-- What is left once the draining channel is closed. -/
def Path.announced : Path → List Action
  | .graceful => [.passDeadlines]
  | .fatal => [.closeConns]

/-- After the wait for the connections, which is the last thing fatalShutdown does. -/
def Path.waited (drained : Bool) : Path → RunPc Unit
  | .graceful => .finalizing drained
  | .fatal => .returned (some (.fatal ()))

/-- What a stage says of the first report and of RunWithReady. -/
def Stage.Shows (first : Option Unit) (main : RunPc Unit) : Stage → Prop
  | .serving => first = none ∧ main = .serving
  | .begun p => first = p.first ∧ main = p.main p.actions
  | .listenerClosed p => first = p.first ∧ main = p.main p.unlistened
  | .signalled p => first = p.first ∧ main = p.main p.announced
  | .waited p drained => first = p.first ∧ main = p.waited drained
  | .returning _ | .returned _ => ∃ res, main = .returned res

structure State.Lived (s : State) (l : Lifecycle Unit) : Prop where
  sup : l.sup.Quiet l.sup.cause
  calm : l.panics 0 = .calm
  shows : s.stage.Shows l.sup.cause l.main
  listening : l.gates.listening = s.stage.listens
  announced : l.gates.announced = s.draining

theorem Path.run_acts (p : Path) {l : Lifecycle Unit} (done : List Action) {rest : List Action}
    (hm : l.main = p.main (done ++ rest)) :
    ∃ ds, runSteps Lifecycle.step l ds =
      some { l with gates := done.foldl .act l.gates, main := p.main rest } := by
  induction done generalizing l with
  | nil => exact ⟨[], by rw [← show l.main = p.main rest from hm]; rfl⟩
  | cons a done ih =>
    have hstep : l.step (.main .act) =
        some { l with gates := l.gates.act a, main := p.main (done ++ rest) } := by
      cases p with
      | graceful => exact Lifecycle.step_draining hm
      | fatal => exact Lifecycle.step_aborting hm
    obtain ⟨ds, hrun⟩ :=
      ih (l := { l with gates := l.gates.act a, main := p.main (done ++ rest) }) rfl
    exact ⟨.main .act :: ds, runSteps_cons_eq_some.mpr ⟨_, hstep, hrun⟩⟩

namespace State

variable {s t : State} {l : Lifecycle Unit}

/-- What a connection leaves alone. -/
structure Stays (s t : State) : Prop where
  stage : t.stage = s.stage
  draining : t.draining = s.draining

private theorem stays_releaseConn (s : State) (c : ℕ) : s.Stays (s.releaseConn c).2 := by
  unfold releaseConn
  split_ifs <;> exact ⟨rfl, rfl⟩

private theorem stays_handlerStep {c : ℕ} {e : HandlerEvent} (h : s.handlerStep c e = some t) :
    s.Stays t := by
  cases e with
  | admitConn =>
    simp only [handlerStep] at h
    split_ifs at h <;> cases h <;> exact ⟨rfl, rfl⟩
  | scan call =>
    cases call with
    | clear => cases h
    | _ =>
      simp only [handlerStep] at h
      split_ifs at h
      obtain ⟨_, -, rfl⟩ := Option.map_eq_some_iff.mp h
      exact ⟨rfl, rfl⟩
  | release =>
    refine of_guard (fun _ => ?_) h
    obtain ⟨hs, hd⟩ := stays_releaseConn s c
    exact ⟨hs, hd⟩
  | _ =>
    refine of_guard (fun _ => ?_) h
    exact ⟨rfl, rfl⟩

theorem lived_start (maxClients : ℤ) (limits : ScanLimits) :
    (start maxClients limits).Lived .start :=
  ⟨⟨rfl, rfl, rfl, fun _ => rfl⟩, rfl, ⟨rfl, rfl⟩, rfl, rfl⟩

theorem Lived.shows_at (h : s.Lived l) {stage : Stage} (hs : s.stage = stage) :
    stage.Shows l.sup.cause l.main := hs ▸ h.shows

theorem Lived.listening_at (h : s.Lived l) {stage : Stage} (hs : s.stage = stage) :
    l.gates.listening = stage.listens := hs ▸ h.listening

private theorem lived_begin (h : s.Lived l) (hs : s.stage = .serving) (p : Path) :
    l.Reaches (Lived { s with stage := .begun p }) := by
  obtain ⟨hfirst, hmain⟩ : l.sup.cause = none ∧ l.main = .serving := h.shows_at hs
  have hl : l.gates.listening = true := h.listening_at hs
  cases p with
  | graceful =>
    refine ⟨[.main .cancelled], { l with main := .draining gracefulActions }, ?_, h.sup, h.calm,
      ⟨hfirst, rfl⟩, hl, h.announced⟩
    simp only [runSteps, Lifecycle.step, Lifecycle.mainStep, hmain, Option.bind_some]
  | fatal =>
    obtain ⟨ds, sup, hrun, hq⟩ := Lifecycle.run_report h.sup h.calm ()
    rw [hfirst] at hq
    have hfired : sup.fired = true := hq.done
    refine ⟨ds ++ [.main .supDone, .main .cause],
      { l with sup := sup, main := .aborting (some ()) fatalActions },
      runSteps_append_eq_some.mpr ⟨_, hrun, ?_⟩, hq.cause ▸ hq, h.calm, ⟨hq.cause, rfl⟩, hl,
      h.announced⟩
    simp only [runSteps, Lifecycle.step, Lifecycle.mainStep, hmain, hfired, hq.cause, if_true,
      Option.none_or, Option.bind_some]

private theorem lived_closeListener (h : s.Lived l) {p : Path} (hs : s.stage = .begun p) :
    l.Reaches (Lived { s with stage := .listenerClosed p }) := by
  obtain ⟨hfirst, hmain⟩ : l.sup.cause = p.first ∧ l.main = p.main p.actions := h.shows_at hs
  cases p with
  | graceful =>
    obtain ⟨ds, hrun⟩ := Path.graceful.run_acts [.closeListener] hmain
    exact ⟨ds, _, hrun, h.sup, h.calm, ⟨hfirst, rfl⟩, rfl, h.announced⟩
  | fatal =>
    obtain ⟨ds, hrun⟩ := Path.fatal.run_acts [.stopExpiration, .closeListener] hmain
    exact ⟨ds, _, hrun, h.sup, h.calm, ⟨hfirst, rfl⟩, rfl, h.announced⟩

private theorem lived_closeDraining (h : s.Lived l) {p : Path} (hs : s.stage = .listenerClosed p) :
    l.Reaches (Lived { s with stage := .signalled p, draining := true }) := by
  obtain ⟨hfirst, hmain⟩ : l.sup.cause = p.first ∧ l.main = p.main p.unlistened := h.shows_at hs
  have hl : l.gates.listening = false := h.listening_at hs
  cases p with
  | graceful =>
    obtain ⟨ds, hrun⟩ :=
      Path.graceful.run_acts [.stopExpiration, .beginDrain, .closeDraining] hmain
    exact ⟨ds, _, hrun, h.sup, h.calm, ⟨hfirst, rfl⟩, hl, rfl⟩
  | fatal =>
    obtain ⟨ds, hrun⟩ := Path.fatal.run_acts [.beginDrain, .closeDraining] hmain
    exact ⟨ds, _, hrun, h.sup, h.calm, ⟨hfirst, rfl⟩, hl, rfl⟩

private theorem lived_waitConns (h : s.Lived l) {p : Path} (hs : s.stage = .signalled p)
    (drained : Bool) :
    l.Reaches (Lived { s with stage := .waited p drained }) := by
  obtain ⟨hfirst, hmain⟩ : l.sup.cause = p.first ∧ l.main = p.main p.announced := h.shows_at hs
  have hl : l.gates.listening = false := h.listening_at hs
  have hwaited : ∃ ds, runSteps Lifecycle.step l ds = some { l with main := p.waited drained } := by
    cases p with
    | graceful =>
      refine ⟨[.main .act, .main .act, .main (.waited (if drained then .conns else .elapsed))], ?_⟩
      cases drained <;>
        simp [runSteps, Lifecycle.step, Lifecycle.mainStep, hmain, Path.main, Path.announced,
          Path.waited, Gates.act, Lifecycle.waitConns]
    | fatal =>
      refine ⟨[.main .act, .main .act, .main (.leave .elapsed)], ?_⟩
      simp [runSteps, Lifecycle.step, Lifecycle.mainStep, hmain, Path.main, Path.announced,
        Path.waited, Gates.act, Lifecycle.waitConns]
  obtain ⟨ds, hrun⟩ := hwaited
  exact ⟨ds, _, hrun, h.sup, h.calm, ⟨hfirst, rfl⟩, hl, h.announced⟩

/-- A second wait follows the first one's timeout, or a report that came at the end. -/
theorem lived_waitAgain (h : s.Lived l) {drained : Bool}
    (hs : s.stage = .waited .graceful drained) :
    l.Reaches (Lived { s with stage := .returning .graceful }) := by
  obtain ⟨-, hmain⟩ : l.sup.cause = none ∧ l.main = .finalizing drained := h.shows_at hs
  have hl : l.gates.listening = false := h.listening_at hs
  obtain ⟨ds, sup, hrun, hq⟩ := Lifecycle.run_finalize_failed h.sup hmain ()
  obtain ⟨ds', hrun'⟩ := Lifecycle.run_judge
    (l := { l with sup := sup, main := .judging drained }) hq rfl
  exact ⟨ds ++ ds', _, runSteps_append_eq_some.mpr ⟨_, hrun, hrun'⟩, hq.cause ▸ hq, h.calm,
    ⟨_, rfl⟩, hl, h.announced⟩

private theorem lived_leave (h : s.Lived l) {p : Path} {drained : Bool}
    (hs : s.stage = .waited p drained) (hp : p = .fatal ∨ drained = true) :
    l.Reaches (Lived { s with stage := .returning p }) := by
  obtain ⟨hfirst, hmain⟩ : l.sup.cause = p.first ∧ l.main = p.waited drained := h.shows_at hs
  have hl : l.gates.listening = false := h.listening_at hs
  cases p with
  | fatal => exact ⟨[], l, rfl, h.sup, h.calm, ⟨_, hmain⟩, hl, h.announced⟩
  | graceful =>
    obtain rfl : drained = true := hp.resolve_left nofun
    obtain ⟨ds, hrun⟩ := Lifecycle.run_judge (l := { l with main := .judging true }) h.sup rfl
    refine ⟨.main (.finalized none) :: ds, _, runSteps_cons_eq_some.mpr ⟨_, ?_, hrun⟩, h.sup,
      h.calm, ⟨_, rfl⟩, hl, h.announced⟩
    simp only [Lifecycle.step, Lifecycle.mainStep, hmain, Path.waited]

theorem lived_step {e : Event} (hstep : s.step e = some t) (h : s.Lived l) :
    l.Reaches t.Lived := by
  cases e with
  | handler c e =>
    obtain ⟨hs, hd⟩ := stays_handlerStep hstep
    exact ⟨[], l, rfl, h.sup, h.calm, hs ▸ h.shows, hs ▸ h.listening, hd ▸ h.announced⟩
  | shutdown e =>
    cases advances_shutdownStep hstep with
    | begin p hs => exact lived_begin h hs p
    | closeListener p hs => exact lived_closeListener h hs
    | closeDraining p hs => exact lived_closeDraining h hs
    | waitConns p drained hs => exact lived_waitConns h hs drained
    | waitAgain drained hs => exact lived_waitAgain h hs
    | leave p drained hs hp => exact lived_leave h hs hp
    | clear p hs =>
      obtain ⟨res, hmain⟩ : ∃ res, l.main = .returned res := h.shows_at hs
      have hl : l.gates.listening = false := h.listening_at hs
      exact ⟨[], l, rfl, h.sup, h.calm, ⟨res, hmain⟩, hl, h.announced⟩

/-- Every run of the sessions' server is seen as a run of the lifecycle that is at the same
point. -/
theorem lived_run {maxClients : ℤ} {limits : ScanLimits} {es : List Event}
    (hrun : runSteps step (start maxClients limits) es = some s) :
    ∃ ds l, runSteps Lifecycle.step .start ds = some l ∧ s.Lived l :=
  runSteps_simulates (fun _ _ _ _ h hl => lived_step h hl) hrun (lived_start maxClients limits)

theorem draining_of_returned {maxClients : ℤ} {limits : ScanLimits} {es : List Event}
    (hrun : runSteps step (start maxClients limits) es = some s) {p : Path}
    (hs : s.stage = .returned p) : s.draining = true := by
  obtain ⟨ds, l, hl, h⟩ := lived_run hrun
  obtain ⟨res, hm⟩ : ∃ res, l.main = .returned res := h.shows_at hs
  rw [← h.announced]
  exact (Lifecycle.shut_of_returned hl hm).2.1

end State

end Sessions

end GoKv
