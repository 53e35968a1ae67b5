import GoKv.Engine.ScanSessions
import GoKv.Lib.Schedule

/-! Scan sessions and the life of the server. Connections come, open and continue sessions and
leave, while a graceful or a fatal shutdown goes on; what happens under one lock is one step. The
deadlines and closes of connections only decide when their reads and writes fail, which they may
do at any time here. -/
namespace GoKv.Sessions
open GoLib

/-- Where a connection is: handed out by Accept, turned away, registered, at the top of its loop,
past the drain check, with a command, with a reply, on its way out, unregistered with the sessions
still to clear, unregistered, over. -/
inductive Place where
  | absent
  | accepted
  | rejected
  | admitted
  | top
  | reading
  | dispatching
  | replying
  | leaving
  | clearing
  | closing
  | finished
  deriving DecidableEq

inductive Path where
  | graceful
  | fatal
  deriving DecidableEq

/-- How far it has come; its deferred clear is all that is left to do when it is `returning`. -/
inductive Stage where
  | serving
  | begun (p : Path)
  | listenerClosed (p : Path)
  | signalled (p : Path)
  | waited (p : Path) (drained : Bool)
  | returning (p : Path)
  | returned (p : Path)
  deriving DecidableEq

structure State where
  maxClients : ℤ
  conns : List ℕ
  nClient : ℤ
  wg : ℕ
  draining : Bool
  place : ℕ → Place
  scans : ScanManager
  stage : Stage

inductive HandlerEvent where
  | accept
  | admitConn
  | start
  | check
  | command
  | readErr
  | scan (call : ScanCall)
  | scanPanicked (now : ℤ) (order : List ℕ)
  | other
  | panicked
  | reply
  | replyErr
  | release
  | clear
  | finish

inductive ShutdownEvent where
  | begin (p : Path)
  | closeListener
  | closeDraining
  | waitConns (drained : Bool)
  | waitAgain
  | leave
  | clear

inductive Event where
  | handler (c : ℕ) (e : HandlerEvent)
  | shutdown (e : ShutdownEvent)

/-- Accept can still hand out a connection. -/
def Stage.listens : Stage → Bool
  | .serving | .begun _ => true
  | _ => false

/-- The goroutine runs its loop, where a panic is recovered. -/
def Place.looping : Place → Bool
  | .top | .reading | .dispatching | .replying => true
  | _ => false

namespace State

def start (maxClients : ℤ) (limits : ScanLimits) : State where
  maxClients := maxClients
  conns := []
  nClient := 0
  wg := 0
  draining := false
  place _ := .absent
  scans := .new limits
  stage := .serving

def move (s : State) (c : ℕ) (p : Place) : State :=
  { s with place := Function.update s.place c p }

/-- The part of releaseConn under the mutex: whether the sessions are to be cleared. -/
def releaseConn (s : State) (c : ℕ) : Bool × State :=
  if c ∈ s.conns then
    let s := { s with conns := s.conns.erase c, nClient := s.nClient - 1 }
    (s.nClient = 0 ∧ s.draining, s)
  else (false, s)

def handlerStep (s : State) (c : ℕ) : HandlerEvent → Option State
  | .accept =>
    if s.place c = .absent ∧ s.stage.listens then some (s.move c .accepted) else none
  | .admitConn =>
    if s.place c = .accepted then
      if s.maxClients ≤ s.nClient then some (s.move c .rejected)
      else some { s.move c .admitted with nClient := s.nClient + 1, conns := c :: s.conns }
    else none
  | .start =>
    if s.place c = .admitted then some { s.move c .top with wg := s.wg + 1 } else none
  | .check =>
    if s.place c = .top then some (s.move c (if s.draining then .leaving else .reading)) else none
  | .command => if s.place c = .reading then some (s.move c .dispatching) else none
  | .readErr => if s.place c = .reading then some (s.move c .leaving) else none
  | .scan .clear => none
  | .scan call =>
    if s.place c = .dispatching then
      (s.scans.step call).map fun (m, _) => { s.move c .replying with scans := m }
    else none
  | .scanPanicked now order =>
    -- The session lock is released by a deferred call, after the expiry at most.
    if s.place c = .dispatching ∧ order.Perm s.scans.sessions.keys then
      some { s.move c .leaving with scans := s.scans.expireLocked now order }
    else none
  | .other => if s.place c = .dispatching then some (s.move c .replying) else none
  | .panicked => if (s.place c).looping then some (s.move c .leaving) else none
  | .reply => if s.place c = .replying then some (s.move c .top) else none
  | .replyErr => if s.place c = .replying then some (s.move c .leaving) else none
  | .release =>
    if s.place c = .leaving then
      let (clearScanSessions, s) := s.releaseConn c
      some (s.move c (if clearScanSessions then .clearing else .closing))
    else none
  | .clear =>
    if s.place c = .clearing then some { s.move c .closing with scans := s.scans.clear } else none
  | .finish =>
    if s.place c = .closing then some { s.move c .finished with wg := s.wg - 1 } else none

def shutdownStep (s : State) : ShutdownEvent → Option State
  | .begin p => if s.stage = .serving then some { s with stage := .begun p } else none
  | .closeListener =>
    match s.stage with
    | .begun p => some { s with stage := .listenerClosed p }
    | _ => none
  | .closeDraining =>
    match s.stage with
    | .listenerClosed p => some { s with stage := .signalled p, draining := true }
    | _ => none
  | .waitConns drained =>
    -- Without all goroutines done the wait ends by its timeout or by a fatal report.
    match s.stage with
    | .signalled p =>
      if drained → s.wg = 0 then some { s with stage := .waited p drained } else none
    | _ => none
  | .waitAgain =>
    match s.stage with
    | .waited .graceful _ => some { s with stage := .returning .graceful }
    | _ => none
  | .leave =>
    match s.stage with
    | .waited p drained =>
      if p = .fatal ∨ drained then some { s with stage := .returning p } else none
    | _ => none
  | .clear =>
    match s.stage with
    | .returning p => some { s with stage := .returned p, scans := s.scans.clear }
    | _ => none

def step (s : State) : Event → Option State
  | .handler c e => s.handlerStep c e
  | .shutdown e => s.shutdownStep e

end State

def Place.registered : Place → Bool
  | .admitted | .top | .reading | .dispatching | .replying | .leaving => true
  | _ => false

/-- The connection was admitted and its handler is not finished. -/
def Place.running : Place → Bool
  | .clearing | .closing => true
  | p => p.registered

theorem Place.running_of_registered {p : Place} (h : p.registered = true) : p.running = true := by
  cases p <;> first | rfl | cases h

def Stage.drains : Stage → Bool
  | .serving | .begun _ | .listenerClosed _ => false
  | _ => true

def Stage.over : Stage → Bool
  | .returned _ => true
  | _ => false

namespace State

/-! ## What a step does -/

inductive Moves (s : State) : State → Prop where
  /-- A connection goes on without touching the set. -/
  | alone (c : ℕ) (p : Place) (wg : ℕ) (hp : p.registered = (s.place c).registered)
      (hc : s.place c ≠ .clearing) : Moves s { s.move c p with wg := wg }
  | admitConn (c : ℕ) (hp : (s.place c).registered = false) (hc : s.place c ≠ .clearing)
      (hmax : s.nClient < s.maxClients) :
      Moves s { s.move c .admitted with nClient := s.nClient + 1, conns := c :: s.conns }
  /-- A connection uses the sessions. -/
  | scan (c : ℕ) (p : Place) (m : ScanManager) (hc : s.place c = .dispatching)
      (hp : p.registered = true) : Moves s { s.move c p with scans := m }
  | release (c : ℕ) (hc : s.place c = .leaving) :
      Moves s ((s.releaseConn c).2.move c
        (if (s.releaseConn c).1 then .clearing else .closing))
  | clear (c : ℕ) (hc : s.place c = .clearing) :
      Moves s { s.move c .closing with scans := s.scans.clear }
  /-- The shutdown goes on. -/
  | advance (stage : Stage) (draining : Bool) (hd : s.draining = true → draining = true)
      (hs : stage.drains = true → s.stage.drains = true ∨ draining = true)
      (ho : stage.over = false) : Moves s { s with stage := stage, draining := draining }
  | returned (p : Path) (hs : s.stage.drains = true) :
      Moves s { s with stage := .returned p, scans := s.scans.clear }

theorem moves_alone {s t : State} {c : ℕ} {p q : Place}
    (h : (if s.place c = q then some (s.move c p) else none) = some t)
    (hp : p.registered = q.registered) (hq : q ≠ .clearing) : Moves s t := by
  refine of_guard (fun hc => .alone c p s.wg ?_ ?_) h
  · rw [hc]; exact hp
  · rw [hc]; exact hq

private theorem moves_scan {s t : State} {c : ℕ} {call : ScanCall}
    (h : (if s.place c = .dispatching then
      (s.scans.step call).map fun (m, _) => { s.move c .replying with scans := m }
      else none) = some t) : Moves s t := by
  split_ifs at h with hc
  obtain ⟨⟨m, entry⟩, -, rfl⟩ := Option.map_eq_some_iff.mp h
  exact .scan c .replying m hc rfl

theorem moves_handler {s t : State} {c : ℕ} {e : HandlerEvent} (h : s.handlerStep c e = some t) :
    Moves s t := by
  cases e with
  | accept =>
    refine of_guard (fun hc => .alone c .accepted s.wg ?_ ?_) h <;> rw [hc.1] <;> decide
  | admitConn =>
    simp only [handlerStep] at h
    split_ifs at h with hc hmax
    · cases h
      refine .alone c .rejected s.wg ?_ ?_ <;> rw [hc] <;> decide
    · cases h
      refine .admitConn c ?_ ?_ (not_le.mp hmax) <;> rw [hc] <;> decide
  | start =>
    refine of_guard (fun hc => .alone c .top (s.wg + 1) ?_ ?_) h <;> rw [hc] <;> decide
  | check =>
    refine moves_alone h ?_ (by decide)
    split_ifs <;> rfl
  | command => exact moves_alone h rfl (by decide)
  | readErr => exact moves_alone h rfl (by decide)
  | scan call =>
    cases call with
    | clear => cases h
    | _ => exact moves_scan h
  | scanPanicked now order => exact of_guard (fun hc => .scan c .leaving _ hc.1 rfl) h
  | other => exact moves_alone h rfl (by decide)
  | panicked =>
    refine of_guard (fun hc => .alone c .leaving s.wg ?_ ?_) h <;>
      cases hp : s.place c <;> rw [hp] at hc <;> first | rfl | decide | cases hc
  | reply => exact moves_alone h rfl (by decide)
  | replyErr => exact moves_alone h rfl (by decide)
  | release => exact of_guard (.release c) h
  | clear => exact of_guard (.clear c) h
  | finish =>
    refine of_guard (fun hc => .alone c .finished (s.wg - 1) ?_ ?_) h <;> rw [hc] <;> decide

/-- The steps of the two shutdown functions. -/
inductive Advances (s : State) : State → Prop where
  | begin (p : Path) (hs : s.stage = .serving) : Advances s { s with stage := .begun p }
  | closeListener (p : Path) (hs : s.stage = .begun p) :
      Advances s { s with stage := .listenerClosed p }
  | closeDraining (p : Path) (hs : s.stage = .listenerClosed p) :
      Advances s { s with stage := .signalled p, draining := true }
  | waitConns (p : Path) (drained : Bool) (hs : s.stage = .signalled p) :
      Advances s { s with stage := .waited p drained }
  | waitAgain (drained : Bool) (hs : s.stage = .waited .graceful drained) :
      Advances s { s with stage := .returning .graceful }
  | leave (p : Path) (drained : Bool) (hs : s.stage = .waited p drained)
      (hp : p = .fatal ∨ drained = true) : Advances s { s with stage := .returning p }
  | clear (p : Path) (hs : s.stage = .returning p) :
      Advances s { s with stage := .returned p, scans := s.scans.clear }

theorem advances_shutdownStep {s t : State} {e : ShutdownEvent} (h : s.shutdownStep e = some t) :
    Advances s t := by
  cases e with
  | begin p => exact of_guard (.begin p) h
  | closeListener =>
    cases hs : s.stage <;> simp only [shutdownStep, hs, reduceCtorEq, Option.some.injEq] at h
    subst h
    exact .closeListener _ hs
  | closeDraining =>
    cases hs : s.stage <;> simp only [shutdownStep, hs, reduceCtorEq, Option.some.injEq] at h
    subst h
    exact .closeDraining _ hs
  | waitConns drained =>
    cases hs : s.stage <;> simp only [shutdownStep, hs, reduceCtorEq] at h
    exact of_guard (fun _ => .waitConns _ drained hs) h
  | waitAgain =>
    cases hs : s.stage with
    | waited p d =>
      cases p <;> simp only [shutdownStep, hs, reduceCtorEq, Option.some.injEq] at h
      subst h
      exact .waitAgain d hs
    | _ => simp [shutdownStep, hs] at h
  | leave =>
    cases hs : s.stage <;> simp only [shutdownStep, hs, reduceCtorEq] at h
    exact of_guard (.leave _ _ hs) h
  | clear =>
    cases hs : s.stage <;> simp only [shutdownStep, hs, reduceCtorEq, Option.some.injEq] at h
    subst h
    exact .clear _ hs

private theorem moves_advances {s t : State} (h : Advances s t) : Moves s t := by
  cases h with
  | begin p hs => exact .advance _ s.draining id nofun rfl
  | closeListener p hs => exact .advance _ s.draining id nofun rfl
  | closeDraining p hs => exact .advance _ true (fun _ => rfl) (fun _ => .inr rfl) rfl
  | waitConns p drained hs =>
    exact .advance _ s.draining id (fun _ => .inl (by rw [hs]; rfl)) rfl
  | waitAgain drained hs =>
    exact .advance _ s.draining id (fun _ => .inl (by rw [hs]; rfl)) rfl
  | leave p drained hs hp =>
    exact .advance _ s.draining id (fun _ => .inl (by rw [hs]; rfl)) rfl
  | clear p hs => exact .returned _ (by rw [hs]; rfl)

theorem step_moves {s t : State} {e : Event} (h : s.step e = some t) : Moves s t := by
  cases e with
  | handler c e => exact moves_handler h
  | shutdown e => exact moves_advances (advances_shutdownStep h)

/-! ## The invariant -/

/-- The client count is that of the connection set. Once the shutdown function has returned, a
session is left only while a connection is registered or one still has the sessions to clear. -/
structure Ordered (s : State) : Prop where
  nodup : s.conns.Nodup
  registered : ∀ c, c ∈ s.conns ↔ (s.place c).registered = true
  count : s.nClient = s.conns.length
  bound : s.nClient ≤ max 0 s.maxClients
  drains : s.stage.drains = true → s.draining = true
  cleared : s.stage.over = true → s.scans = s.scans.clear ∨ s.conns ≠ [] ∨
    ∃ c, s.place c = .clearing

theorem registered_move {s : State} {c j : ℕ} {p : Place} {conns : List ℕ}
    (hc : c ∈ conns ↔ p.registered = true)
    (hj : j ≠ c → (j ∈ conns ↔ (s.place j).registered = true)) :
    j ∈ conns ↔ ((s.move c p).place j).registered = true := by
  change j ∈ conns ↔ (Function.update s.place c p j).registered = true
  rw [Function.update_apply]
  split_ifs with h
  · rw [h]; exact hc
  · exact hj h

private theorem clearing_move {s : State} {c : ℕ} (hc : s.place c ≠ .clearing) (p : Place)
    (h : ∃ j, s.place j = .clearing) : ∃ j, (s.move c p).place j = .clearing := by
  obtain ⟨j, hj⟩ := h
  refine ⟨j, ?_⟩
  have hne : j ≠ c := fun h => hc (h ▸ hj)
  change Function.update s.place c p j = .clearing
  rw [Function.update_of_ne hne]
  exact hj

theorem ordered_start (maxClients : ℤ) (limits : ScanLimits) :
    (start maxClients limits).Ordered where
  nodup := List.nodup_nil
  registered _ := iff_of_false List.not_mem_nil nofun
  count := rfl
  bound := le_max_left _ _
  drains := nofun
  cleared := nofun

private theorem ordered_release {s : State} (h : s.Ordered) {c : ℕ} (hc : s.place c = .leaving) :
    ((s.releaseConn c).2.move c
      (if (s.releaseConn c).1 then .clearing else .closing)).Ordered := by
  have hmem : c ∈ s.conns := (h.registered c).mpr (by rw [hc]; rfl)
  have hlen : ((s.conns.erase c).length : ℤ) = s.nClient - 1 := by
    have hpos := List.length_pos_of_mem hmem
    have hcount := h.count
    rw [List.length_erase_of_mem hmem]
    omega
  rw [releaseConn, if_pos hmem]
  dsimp only
  refine ⟨h.nodup.erase c, fun j => ?_, hlen.symm, ?_, h.drains, fun ho => .inr ?_⟩
  · refine registered_move (s := { s with conns := s.conns.erase c, nClient := s.nClient - 1 })
      ?_ fun hne => ?_
    · refine iff_of_false h.nodup.not_mem_erase ?_
      split_ifs <;> nofun
    · change j ∈ s.conns.erase c ↔ (s.place j).registered = true
      rw [List.mem_erase_of_ne hne]
      exact h.registered j
  · have := h.bound
    change s.nClient - 1 ≤ max 0 s.maxClients
    omega
  · -- the last connection of a draining server has the sessions to clear
    obtain ⟨p, hp⟩ : ∃ p, s.stage = .returned p := by
      change s.stage.over = true at ho
      cases hs : s.stage <;> rw [hs] at ho <;> first | exact ⟨_, rfl⟩ | cases ho
    have hdrain : s.draining = true := h.drains (by rw [hp]; rfl)
    by_cases hnil : s.conns.erase c = []
    · right
      refine ⟨c, ?_⟩
      rw [hnil] at hlen
      have hz : s.nClient - 1 = 0 := hlen.symm
      change Function.update s.place c _ c = _
      rw [Function.update_self, if_pos (by simp [hz, hdrain])]
    · exact .inl hnil

theorem ordered_moves {s t : State} (hm : Moves s t) (h : s.Ordered) : t.Ordered := by
  cases hm with
  | alone c p wg hp hc =>
    refine ⟨h.nodup, fun j => ?_, h.count, h.bound, h.drains, fun ho => ?_⟩
    · exact registered_move (by rw [hp]; exact h.registered c) fun _ => h.registered j
    · exact (h.cleared ho).imp_right (Or.imp_right (clearing_move hc p))
  | admitConn c hp hc hmax =>
    have hnew : c ∉ s.conns := fun hmem => by
      rw [(h.registered c).mp hmem] at hp
      cases hp
    have hcount := h.count
    refine ⟨List.nodup_cons.mpr ⟨hnew, h.nodup⟩, fun j => ?_, ?_, ?_, h.drains, fun _ => ?_⟩
    · refine registered_move (iff_of_true List.mem_cons_self rfl) fun hne => ?_
      rw [List.mem_cons, or_iff_right hne]
      exact h.registered j
    · change s.nClient + 1 = ((c :: s.conns).length : ℤ)
      rw [List.length_cons]
      omega
    · change s.nClient + 1 ≤ _
      exact le_max_of_le_right hmax
    · exact .inr (.inl (List.cons_ne_nil _ _))
  | scan c p m hc hp =>
    have hmem : c ∈ s.conns := (h.registered c).mpr (by rw [hc]; rfl)
    refine ⟨h.nodup, fun j => ?_, h.count, h.bound, h.drains, fun _ => ?_⟩
    · exact registered_move (iff_of_true hmem hp) fun _ => h.registered j
    · exact .inr (.inl (List.ne_nil_of_mem hmem))
  | release c hc => exact ordered_release h hc
  | clear c hc =>
    refine ⟨h.nodup, fun j => ?_, h.count, h.bound, h.drains, fun _ => .inl rfl⟩
    refine registered_move (iff_of_false (fun hmem => ?_) nofun) fun _ => h.registered j
    have := (h.registered c).mp hmem
    rw [hc] at this
    cases this
  | advance stage draining hd hs ho =>
    refine ⟨h.nodup, h.registered, h.count, h.bound, fun hdr => ?_, fun hov => ?_⟩
    · exact (hs hdr).elim (fun hold => hd (h.drains hold)) id
    · change stage.over = true at hov
      rw [ho] at hov
      cases hov
  | returned p hs =>
    exact ⟨h.nodup, h.registered, h.count, h.bound, fun _ => h.drains hs, fun _ => .inl rfl⟩

theorem ordered_run {maxClients : ℤ} {limits : ScanLimits} {es : List Event} {s : State}
    (hrun : runSteps step (start maxClients limits) es = some s) : s.Ordered :=
  runSteps_invariant (fun _ _ _ hstep => ordered_moves (step_moves hstep)) hrun
    (ordered_start maxClients limits)

theorem maxClients_moves {s t : State} (hm : Moves s t) : t.maxClients = s.maxClients := by
  cases hm with
  | release c => unfold releaseConn; split_ifs <;> rfl
  | _ => rfl

theorem maxClients_run {maxClients : ℤ} {limits : ScanLimits} {es : List Event} {s : State}
    (hrun : runSteps step (start maxClients limits) es = some s) : s.maxClients = maxClients :=
  runSteps_invariant (I := fun s => s.maxClients = maxClients)
    (fun _ _ _ hstep h => (maxClients_moves (step_moves hstep)).trans h) hrun rfl

/-- In every state that is reached the client count is the number of registered connections and
within its limit. When a shutdown function has returned and no admitted connection's handler is
still running, no session is left and no byte is accounted for. -/
theorem no_session_survives {maxClients : ℤ} {limits : ScanLimits} {es : List Event} {s : State}
    (hrun : runSteps step (start maxClients limits) es = some s) :
    (s.conns.Nodup ∧ (∀ c, c ∈ s.conns ↔ (s.place c).registered = true) ∧
      s.nClient = s.conns.length ∧ s.nClient ≤ max 0 maxClients) ∧
    (s.stage.over = true → (∀ c, (s.place c).running = false) →
      s.scans.sessions = ∅ ∧ s.scans.bytes = 0) := by
  have h := ordered_run hrun
  refine ⟨⟨h.nodup, h.registered, h.count, maxClients_run hrun ▸ h.bound⟩, fun hover hdone => ?_⟩
  rcases h.cleared hover with hclear | hconns | ⟨c, hc⟩
  · rw [hclear]
    exact ⟨rfl, rfl⟩
  · obtain ⟨c, hmem⟩ := List.exists_mem_of_ne_nil _ hconns
    have hrest := hdone c
    rw [Place.running_of_registered ((h.registered c).mp hmem)] at hrest
    cases hrest
  · have hrest := hdone c
    rw [hc] at hrest
    cases hrest

/-- A connection opens a session after a fatal shutdown has returned, and is the last to go. -/
def lateSession : List Event :=
  [.handler 1 .accept, .handler 1 .admitConn, .handler 1 .start, .handler 1 .check,
    .handler 1 .command, .shutdown (.begin .fatal), .shutdown .closeListener,
    .shutdown .closeDraining, .shutdown (.waitConns false), .shutdown .leave, .shutdown .clear,
    .handler 1 (.scan (.start ⟨[[97], [98]], 2, le_rfl⟩ [42] 1 0 [] [some 7])), .handler 1 .reply,
    .handler 1 .check, .handler 1 .release, .handler 1 .clear, .handler 1 .finish]

theorem no_session_survives_late :
    ∃ s, runSteps step (start 1 defaultScanSessionLimits) lateSession = some s ∧
      s.stage.over = true ∧ (∀ c, (s.place c).running = false) ∧ s.scans.sessions = ∅ := by
  have hrun : ∃ s, runSteps step (start 1 defaultScanSessionLimits) lateSession = some s ∧
      s.stage.over = true ∧ (s.place 1).running = false ∧
      ∀ c, c ≠ 1 → (s.place c).running = false :=
    ⟨_, rfl, rfl, rfl, fun c hc => by simp [move, start, Function.update, hc, Place.running,
      Place.registered]⟩
  obtain ⟨s, hrun, hover, hone, hothers⟩ := hrun
  have hdone : ∀ c, (s.place c).running = false := by
    intro c
    by_cases hc : c = 1
    · rw [hc]; exact hone
    · exact hothers c hc
  exact ⟨s, hrun, hover, hdone, ((no_session_survives hrun).2 hover hdone).1⟩

/-- With a negative limit the count is over it from the start. -/
theorem no_session_survives_negative :
    ∃ s, runSteps step (start (-1) defaultScanSessionLimits) [] = some s ∧
      ¬ s.nClient ≤ s.maxClients :=
  ⟨_, rfl, by decide⟩

end State

end GoKv.Sessions
