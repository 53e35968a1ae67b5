import GoKv.Server.Server

/-! What each step of the server can do. -/
namespace GoKv
open GoLib GoKv.Aof

/-- The moves of a goroutine that touch nothing shared. -/
inductive Pc.Alone : HandlerEvent → Pc → Pc → Prop where
  | read : Alone .read .reading .blocked
  | recv : Alone .recv .blocked .reading
  | command : Alone .command .reading .dispatching
  | readErr : Alone .readErr .reading .leaving
  | readErrBlocked : Alone .readErr .blocked .leaving
  | other : Alone .other .dispatching .replying
  | panicked : Alone .panicked .dispatching .leaving
  | awaited : Alone .awaited .awaiting .replying
  | reply : Alone .reply .replying .top
  | replyErr : Alone .replyErr .replying .leaving

namespace Server

/-- The engine an operation leaves: with its caller in Await, if it has one. -/
def Awaits (e : Engine) (c : ℕ) (pc : Pc) (e' : Engine) : Prop :=
  (pc = .replying ∧ e' = e) ∨
    pc = .awaiting ∧ ∃ l l' seq p, e.log = some l ∧ l.step (.await c seq p) = some l' ∧
      e' = { e with log := some l' }

inductive Moves (s : Server) : ServerEvent → Server → Prop where
  | accept (c : ℕ) (hp : (s.handlers c).pc = .absent) :
      Moves s (.handler c .accept) (s.setPc c .accepted)
  | admitConn (c : ℕ) (hp : (s.handlers c).pc = .accepted) (hl : s.locked = false) :
      Moves s (.handler c .admitConn) { s.setPc c .admitted with conns := c :: s.conns }
  | reject (c : ℕ) (hp : (s.handlers c).pc = .accepted) :
      Moves s (.handler c .admitConn) (s.setPc c .finished)
  | start (c : ℕ) (hp : (s.handlers c).pc = .admitted) :
      Moves s (.handler c .start) { s.setPc c .top with wg := c :: s.wg }
  | checkDraining (c : ℕ) (hp : (s.handlers c).pc = .top) (hd : s.draining = true) :
      Moves s (.handler c .check) (s.setPc c .leaving)
  | checkOpen (c : ℕ) (hp : (s.handlers c).pc = .top) (hd : s.draining = false) :
      Moves s (.handler c .check) (s.setPc c .arming)
  | arm (c : ℕ) (now : ℤ) (hp : (s.handlers c).pc = .arming) (hn : s.clock ≤ now) :
      Moves s (.handler c (.arm now)) (s.armed c now)
  | alone (c : ℕ) (e : HandlerEvent) (pc : Pc) (h : Pc.Alone e (s.handlers c).pc pc) :
      Moves s (.handler c e) (s.setPc c pc)
  | timeout (c : ℕ) (now : ℤ) (hp : (s.handlers c).pc = .blocked) (hn : s.clock ≤ now) :
      Moves s (.handler c (.timeout now)) { s.setPc c .leaving with clock := now }
  | exec (c : ℕ) (now : ℤ) (op : Op) (pc : Pc) (e : Engine)
      (hp : (s.handlers c).pc = .dispatching) (hn : s.clock ≤ now)
      (ho : op.Iterates s.engine.store) (he : Awaits (s.engine.exec now op).2 c pc e) :
      Moves s (.handler c (.exec now op))
        ({ s with
            engine := e
            clock := now
            applied := s.applied ++ s.engine.effects now op (s.engine.exec now op).1 }.setPc c pc)
  | release (c : ℕ) (hp : (s.handlers c).pc = .leaving) (hl : s.locked = false) :
      Moves s (.handler c .release) { s.setPc c .released with conns := s.conns.erase c }
  | finish (c : ℕ) (hp : (s.handlers c).pc = .released) :
      Moves s (.handler c .finish) { s.setPc c .finished with wg := s.wg.erase c }
  | begin (hs : s.stage = .serving) : Moves s (.shutdown .begin) { s with stage := .listenerClosed }
  | stopExpiration (ok : Bool) (hs : s.stage = .listenerClosed) :
      Moves s (.shutdown (.stopExpiration ok))
        { s with stage := .expirationStopped, expiring := s.expiring && !ok }
  | beginDrain (hs : s.stage = .expirationStopped) :
      Moves s (.shutdown .beginDrain)
        { s with stage := .admissionClosed, engine := s.engine.beginDrain }
  | closeDraining (hs : s.stage = .admissionClosed) :
      Moves s (.shutdown .closeDraining) { s with stage := .signalled, draining := true }
  | lock (hs : s.stage = .signalled) :
      Moves s (.shutdown .lock) { s with stage := .passing s.conns }
  | visit (c : ℕ) (now : ℤ) (todo : List ℕ) (hs : s.stage = .passing todo) (hc : c ∈ todo)
      (hn : s.clock ≤ now) :
      Moves s (.shutdown (.visit c now)) (s.visited todo c now)
  | unlock (hs : s.stage = .passing []) :
      Moves s (.shutdown .unlock) { s with stage := .waiting false, passed := some s.clock }
  | waitDone (d : Bool) (hs : s.stage = .waiting d) (hw : s.wg = []) :
      Moves s (.shutdown .waitDone) { s with stage := .waiting true }
  | drained (hs : s.stage = .waiting true) :
      Moves s (.shutdown .drained) { s with stage := .finalizing true }
  | undrained (d : Bool) (hs : s.stage = .waiting d) :
      Moves s (.shutdown .undrained) { s with stage := .finalizing false }
  | finalizeOff (d : Bool) (hs : s.stage = .finalizing d) (hl : s.engine.log = none) :
      Moves s (.shutdown .finalize) { s with stage := .finalized d }
  | finalize (d : Bool) (l l' : Sys) (hs : s.stage = .finalizing d) (hl : s.engine.log = some l)
      (hl' : l.step .beginClose = some l') :
      Moves s (.shutdown .finalize) { s.setLog l' with stage := .closing d }
  | signalClose (d : Bool) (l l' : Sys) (hs : s.stage = .closing d) (hl : s.engine.log = some l)
      (hl' : l.step .signalClose = some l') :
      Moves s (.shutdown .signalClose) { s.setLog l' with stage := .awaitingClose d }
  | closeFailed (d : Bool) (l : Sys) (err : FileErr) (hs : s.stage = .awaitingClose d)
      (hl : s.engine.log = some l) (hd : l.log.done = true) (hf : l.log.failed = some err) :
      Moves s (.shutdown .closeDone) { s.report (.log err) with stage := .finalized d }
  | closeDone (d : Bool) (l : Sys) (hs : s.stage = .awaitingClose d) (hl : s.engine.log = some l)
      (hd : l.log.done = true) (hf : l.log.failed = none) :
      Moves s (.shutdown .closeDone) { s with stage := .finalized d }
  | closeTimeout (d : Bool) (hs : s.stage = .awaitingClose d) :
      Moves s (.shutdown .closeTimeout) { s.report .closeTimeout with stage := .finalized d }
  | judge (d : Bool) (hs : s.stage = .finalized d) :
      Moves s (.shutdown .judge) { s with stage := .returned (outcome s.fatal d) }
  | sweep (now : ℤ) (order : List Bytes) (hn : s.clock ≤ now) :
      Moves s (.sweep now order)
        { s with engine := (s.engine.reclaimOnce now order).2, clock := now }
  | fatal (code : ℕ) : Moves s (.fatal code) (s.report (.engine code))
  | log (e : Aof.Event) (l l' : Sys) (fatal : Option Fatal) (hl : s.engine.log = some l)
      (hl' : l.step e = some l') (hne : ∀ r, e ≠ .append r)
      (hf : fatal = s.fatal ∨ ∃ cause, fatal = s.fatal.or (some cause)) :
      Moves s (.log e) { s.setLog l' with fatal := fatal }

theorem moves_alone {s t : Server} {c : ℕ} {e : HandlerEvent} {pc pc' : Pc}
    (ha : Pc.Alone e pc pc')
    (h : (if (s.handlers c).pc = pc then some (s.setPc c pc') else none) = some t) :
    Moves s (.handler c e) t := by
  refine of_guard (fun hc => .alone c e pc' ?_) h
  rw [hc]
  exact ha

private theorem moves_exec {s t : Server} {c : ℕ} {now : ℤ} {op : Op}
    (hp : (s.handlers c).pc = .dispatching) (hn : s.clock ≤ now)
    (ho : op.Iterates s.engine.store) (h : s.exec c now op = some t) :
    Moves s (.handler c (.exec now op)) t := by
  unfold Server.exec at h
  dsimp only at h
  split_ifs at h with hseq
  · cases h
    exact .exec c now op .replying _ hp hn ho (Or.inl ⟨rfl, rfl⟩)
  · cases hl : (s.engine.exec now op).2.log with
    | none =>
      simp only [hl] at h
      cases h
      exact .exec c now op .replying _ hp hn ho (Or.inl ⟨rfl, rfl⟩)
    | some l =>
      simp only [hl] at h
      obtain ⟨l', hl', rfl⟩ := Option.map_eq_some_iff.mp h
      exact .exec c now op .awaiting _ hp hn ho (Or.inr ⟨rfl, l, l', _, _, hl, hl', rfl⟩)

theorem moves_handler {s t : Server} {c : ℕ} {e : HandlerEvent} (h : s.handlerStep c e = some t) :
    Moves s (.handler c e) t := by
  cases e with
  | accept => exact of_guard (fun hc => .accept c hc.1) h
  | admitConn =>
    simp only [handlerStep] at h
    split_ifs at h with hc hmax
    · cases h; exact .admitConn c hc.1 hc.2
    · cases h; exact .reject c hc.1
  | start => exact of_guard (.start c) h
  | check =>
    simp only [handlerStep] at h
    split_ifs at h with hc hd
    · cases h; exact .checkDraining c hc hd
    · cases h; exact .checkOpen c hc (by simpa using hd)
  | arm now => exact of_guard (fun hc => .arm c now hc.1 hc.2) h
  | timeout now =>
    simp only [handlerStep] at h
    cases hd : (s.handlers c).deadline with
    | none => simp [hd] at h
    | some d =>
      simp only [hd] at h
      exact of_guard (fun hc => .timeout c now hc.1 hc.2.2) h
  | exec now op =>
    simp only [handlerStep] at h
    split_ifs at h with hc
    exact moves_exec hc.1 hc.2.1 hc.2.2 h
  | readErr =>
    simp only [handlerStep] at h
    by_cases hr : (s.handlers c).pc = .reading
    · exact moves_alone .readErr (by simpa [hr] using h)
    · exact moves_alone .readErrBlocked (by simpa [hr] using h)
  | awaited =>
    simp only [handlerStep] at h
    cases hl : s.engine.log with
    | none => simp [hl] at h
    | some l =>
      simp only [hl] at h
      cases hk : l.callers c with
      | returned seq p res => exact moves_alone .awaited (by simpa only [hk] using h)
      | _ => simp [hk] at h
  | read => exact moves_alone .read h
  | recv => exact moves_alone .recv h
  | command => exact moves_alone .command h
  | other => exact moves_alone .other h
  | panicked => exact moves_alone .panicked h
  | reply => exact moves_alone .reply h
  | replyErr => exact moves_alone .replyErr h
  | release => exact of_guard (fun hc => .release c hc.1 hc.2) h
  | finish => exact of_guard (.finish c) h

theorem moves_shutdown {s t : Server} {e : ShutdownEvent} (h : s.shutdownStep e = some t) :
    Moves s (.shutdown e) t := by
  cases e with
  | begin => exact of_guard .begin h
  | stopExpiration ok => exact of_guard (.stopExpiration ok) h
  | beginDrain => exact of_guard .beginDrain h
  | closeDraining => exact of_guard .closeDraining h
  | lock => exact of_guard .lock h
  | visit c now =>
    simp only [shutdownStep] at h
    cases hs : s.stage with
    | passing todo =>
      simp only [hs] at h
      exact of_guard (fun hc => .visit c now todo hs hc.1 hc.2) h
    | _ => simp [hs] at h
  | unlock => exact of_guard .unlock h
  | waitDone =>
    simp only [shutdownStep] at h
    cases hs : s.stage with
    | waiting d =>
      simp only [hs] at h
      exact of_guard (.waitDone d hs) h
    | _ => simp [hs] at h
  | drained => exact of_guard .drained h
  | undrained =>
    simp only [shutdownStep] at h
    cases hs : s.stage with
    | waiting d => simp only [hs] at h; cases h; exact .undrained d hs
    | _ => simp [hs] at h
  | finalize =>
    simp only [shutdownStep] at h
    cases hs : s.stage with
    | finalizing d =>
      cases hl : s.engine.log with
      | none => simp only [hs, hl] at h; cases h; exact .finalizeOff d hs hl
      | some l =>
        simp only [hs, hl] at h
        obtain ⟨l', hl', rfl⟩ := Option.map_eq_some_iff.mp h
        exact .finalize d l l' hs hl hl'
    | _ => simp [hs] at h
  | signalClose =>
    simp only [shutdownStep] at h
    cases hs : s.stage with
    | closing d =>
      cases hl : s.engine.log with
      | none => simp [hs, hl] at h
      | some l =>
        simp only [hs, hl] at h
        obtain ⟨l', hl', rfl⟩ := Option.map_eq_some_iff.mp h
        exact .signalClose d l l' hs hl hl'
    | _ => simp [hs] at h
  | closeDone =>
    simp only [shutdownStep] at h
    cases hs : s.stage with
    | awaitingClose d =>
      cases hl : s.engine.log with
      | none => simp [hs, hl] at h
      | some l =>
        simp only [hs, hl] at h
        split_ifs at h with hd
        cases hf : l.log.failed with
        | none => simp only [hf] at h; cases h; exact .closeDone d l hs hl hd hf
        | some err => simp only [hf] at h; cases h; exact .closeFailed d l err hs hl hd hf
    | _ => simp [hs] at h
  | closeTimeout =>
    simp only [shutdownStep] at h
    cases hs : s.stage with
    | awaitingClose d => simp only [hs] at h; cases h; exact .closeTimeout d hs
    | _ => simp [hs] at h
  | judge =>
    simp only [shutdownStep] at h
    cases hs : s.stage with
    | finalized d => simp only [hs] at h; cases h; exact .judge d hs
    | _ => simp [hs] at h

private theorem moves_log {s t : Server} {e : Aof.Event} (h : s.logStep e = some t) :
    Moves s (.log e) t := by
  cases hl : s.engine.log with
  | none => cases e <;> simp [logStep, hl] at h
  | some l =>
    by_cases hr : e = .report
    · subst hr
      simp only [logStep, hl] at h
      obtain ⟨l', hl', rfl⟩ := Option.map_eq_some_iff.mp h
      cases hf : l.log.failed with
      | none => exact .log .report l l' s.fatal hl hl' nofun (.inl rfl)
      | some err =>
        exact .log .report l l' (s.fatal.or (some (.log err))) hl hl' nofun (.inr ⟨_, rfl⟩)
    · have hne : ∀ r, e ≠ .append r := by
        rintro r rfl
        simp [logStep] at h
      have hmap : (l.step e).map s.setLog = some t := by
        cases e <;> first
          | exact absurd rfl hr
          | (simp [logStep] at h; done)
          | simpa only [logStep, hl] using h
      obtain ⟨l', hl', rfl⟩ := Option.map_eq_some_iff.mp hmap
      exact .log e l l' s.fatal hl hl' hne (.inl rfl)

theorem step_moves {s t : Server} {e : ServerEvent} (h : s.step e = some t) : Moves s e t := by
  cases e with
  | handler c e => exact moves_handler h
  | shutdown e => exact moves_shutdown h
  | sweep now order => exact of_guard (fun hc => .sweep now order hc.2.1) h
  | fatal code => cases h; exact .fatal code
  | log e => exact moves_log h

end Server

end GoKv
