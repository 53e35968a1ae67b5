import GoKv.Server.Steps

/-! Draining and idle connections. The shutdown's pass gives every registered connection an
immediate read deadline. A goroutine that has passed its drain check but not yet set its own
deadline then overwrites the pass's and blocks; every other one is released. -/
namespace GoKv
open GoLib GoKv.Aof

def Pc.registered : Pc → Bool
  | .absent | .accepted | .released | .finished => false
  | _ => true

/-- The pass over the connections is complete. -/
def Stage.over : Stage → Bool
  | .waiting _ | .finalizing _ | .closing _ | .awaitingClose _ | .finalized _ | .returned _ => true
  | _ => false

def Stage.drains : Stage → Bool
  | .signalled | .passing _ => true
  | stage => stage.over

/-- A goroutine that will not set a deadline again, and whose read, if it is in one or comes to
one, ends by `t`. -/
structure Handler.Settled (t : ℤ) (h : Handler) : Prop where
  unarmed : h.pc ≠ .arming
  expired : h.pc = .reading ∨ h.pc = .blocked → ∃ d, h.deadline = some d ∧ d ≤ t

theorem Handler.Settled.mono {t u : ℤ} {h : Handler} (hs : h.Settled t) (hle : t ≤ u) :
    h.Settled u :=
  ⟨hs.unarmed, fun hp => (hs.expired hp).imp fun _ hd => ⟨hd.1, hd.2.trans hle⟩⟩

/-- A goroutine outside the part of its loop that reads. -/
def Pc.outside : Pc → Bool
  | .arming | .reading | .blocked => false
  | _ => true

theorem Handler.settled_of_outside {t : ℤ} {h : Handler} (ho : h.pc.outside = true) :
    h.Settled t := by
  constructor
  · intro hp
    rw [hp] at ho
    cases ho
  · rintro (hp | hp) <;> (rw [hp] at ho; cases ho)

theorem Handler.settled_alone {t : ℤ} {h : Handler} {e : HandlerEvent} {pc : Pc}
    (ha : Pc.Alone e h.pc pc) (hs : h.Settled t) : Handler.Settled t { h with pc := pc } := by
  obtain ⟨pc₀, deadline⟩ := h
  cases ha with
  | read => exact ⟨nofun, fun _ => hs.expired (Or.inl rfl)⟩
  | recv => exact ⟨nofun, fun _ => hs.expired (Or.inr rfl)⟩
  | _ => exact settled_of_outside rfl

namespace Server

/-- The connection set holds every connection being served; once draining is closed, the
connections the pass has been to are settled. -/
structure Draining (s : Server) : Prop where
  registered : ∀ c, (s.handlers c).pc.registered = true → c ∈ s.conns
  closed : s.stage.drains = true → s.draining = true
  once : s.stage.over = false → s.passed = none
  visited : ∀ todo, s.stage = .passing todo → ∀ c ∉ todo, (s.handlers c).Settled s.clock
  settled : ∀ t, s.passed = some t → ∀ c, (s.handlers c).Settled t

/-- The pass comes to a connection between its drain check and its own deadline. -/
def visitsArming (s : Server) : ServerEvent → Bool
  | .shutdown (.visit c _) => (s.handlers c).pc = .arming
  | _ => false

private theorem drains_of_over {stage : Stage} (h : stage.over = true) : stage.drains = true := by
  cases stage <;> first | rfl | cases h

theorem Draining.draining_of_passed {s : Server} (h : s.Draining) {t : ℤ} (hp : s.passed = some t) :
    s.draining = true := by
  refine h.closed (drains_of_over ?_)
  by_contra ho
  rw [h.once (by simpa using ho)] at hp
  cases hp

theorem draining_handler {s t : Server} (h : s.Draining) {c : ℕ} {k : Handler}
    (hh : t.handlers = Function.update s.handlers c k) (hst : t.stage = s.stage)
    (hd : t.draining = s.draining) (hp : t.passed = s.passed) (hclock : s.clock ≤ t.clock)
    (hconns : ∀ j, (t.handlers j).pc.registered = true → j ∈ t.conns)
    (hk : s.draining = true → ∀ u, (s.handlers c).Settled u → k.Settled u) : t.Draining := by
  have hkeep : s.draining = true → ∀ u j, (s.handlers j).Settled u → (t.handlers j).Settled u := by
    intro hdr u j hj
    rw [hh, Function.update_apply]
    split_ifs with hjc
    · subst hjc; exact hk hdr u hj
    · exact hj
  refine ⟨hconns, by rw [hst, hd]; exact h.closed, by rw [hst, hp]; exact h.once, ?_, ?_⟩
  · intro todo hs j hj
    rw [hst] at hs
    have hdr := h.closed (by rw [hs]; rfl)
    exact (hkeep hdr _ j (h.visited todo hs j hj)).mono hclock
  · intro u hu j
    rw [hp] at hu
    exact hkeep (h.draining_of_passed hu) u j (h.settled u hu j)

theorem registered_update {s : Server} (h : s.Draining) {c j : ℕ} {k : Handler}
    (hj : (Function.update s.handlers c k j).pc.registered = true) :
    (j = c ∧ k.pc.registered = true) ∨ j ≠ c ∧ j ∈ s.conns := by
  rw [Function.update_apply] at hj
  split_ifs at hj with hjc
  · exact Or.inl ⟨hjc, hj⟩
  · exact Or.inr ⟨hjc, h.registered j hj⟩

theorem registered_keep {s : Server} (h : s.Draining) {c : ℕ} {k : Handler}
    (hc : k.pc.registered = true → (s.handlers c).pc.registered = true) (j : ℕ)
    (hj : (Function.update s.handlers c k j).pc.registered = true) : j ∈ s.conns := by
  rcases registered_update h hj with ⟨rfl, hk⟩ | ⟨-, hj⟩
  · exact h.registered j (hc hk)
  · exact hj

private theorem registered_of_alone {e : HandlerEvent} {pc pc' : Pc} (h : Pc.Alone e pc pc') :
    pc.registered = true := by
  cases h <;> rfl

theorem draining_frame {s t : Server} (h : s.Draining) (hh : t.handlers = s.handlers)
    (hc : t.conns = s.conns) (hst : t.stage = s.stage) (hd : t.draining = s.draining)
    (hp : t.passed = s.passed) (hclock : s.clock ≤ t.clock) : t.Draining where
  registered := by rw [hh, hc]; exact h.registered
  closed := by rw [hst, hd]; exact h.closed
  once := by rw [hst, hp]; exact h.once
  visited todo hs c hj := by
    rw [hh]
    exact (h.visited todo (hst ▸ hs) c hj).mono hclock
  settled := by rw [hh, hp]; exact h.settled

theorem draining_stage {s t : Server} (h : s.Draining) (hh : t.handlers = s.handlers)
    (hc : t.conns = s.conns) (hp : t.passed = s.passed)
    (hd : t.stage.drains = true → t.draining = true)
    (ho : t.stage.over = false → s.stage.over = false) (hs : ∀ todo, t.stage ≠ .passing todo) :
    t.Draining where
  registered := by rw [hh, hc]; exact h.registered
  closed := hd
  once hov := by rw [hp]; exact h.once (ho hov)
  visited todo hst := absurd hst (hs todo)
  settled := by rw [hh, hp]; exact h.settled

theorem draining_moves {s t : Server} {e : ServerEvent} (hm : Moves s e t)
    (hu : s.visitsArming e = false) (h : s.Draining) : t.Draining := by
  cases hm with
  | accept c hp | reject c hp | finish c hp =>
    exact draining_handler h rfl rfl rfl rfl le_rfl (registered_keep h nofun)
      fun _ _ _ => Handler.settled_of_outside rfl
  | admitConn c hp hl =>
    refine draining_handler h rfl rfl rfl rfl le_rfl (fun j hj => ?_)
      fun _ _ _ => Handler.settled_of_outside rfl
    rcases registered_update h hj with ⟨rfl, -⟩ | ⟨-, hj⟩
    · exact List.mem_cons_self
    · exact List.mem_cons_of_mem _ hj
  | start c hp | checkDraining c hp hd =>
    exact draining_handler h rfl rfl rfl rfl le_rfl (registered_keep h fun _ => by rw [hp]; rfl)
      fun _ _ _ => Handler.settled_of_outside rfl
  | checkOpen c hp hd =>
    exact draining_handler h rfl rfl rfl rfl le_rfl (registered_keep h fun _ => by rw [hp]; rfl)
      fun hdr => by rw [hd] at hdr; cases hdr
  | arm c now hp hn =>
    exact draining_handler h rfl rfl rfl rfl hn (registered_keep h fun _ => by rw [hp]; rfl)
      fun _ u hs => absurd hp hs.unarmed
  | alone c e pc ha =>
    exact draining_handler h rfl rfl rfl rfl le_rfl
      (registered_keep h fun _ => registered_of_alone ha) fun _ u hs => Handler.settled_alone ha hs
  | timeout c now hp hn =>
    exact draining_handler h rfl rfl rfl rfl hn (registered_keep h fun _ => by rw [hp]; rfl)
      fun _ _ _ => Handler.settled_of_outside rfl
  | exec c now op pc e hp hn ho he =>
    refine draining_handler h rfl rfl rfl rfl hn (registered_keep h fun _ => by rw [hp]; rfl) ?_
    rcases he with ⟨rfl, -⟩ | ⟨rfl, -⟩ <;> exact fun _ _ _ => Handler.settled_of_outside rfl
  | release c hp hl =>
    refine draining_handler h rfl rfl rfl rfl le_rfl (fun j hj => ?_)
      fun _ _ _ => Handler.settled_of_outside rfl
    rcases registered_update h hj with ⟨rfl, hk⟩ | ⟨hne, hj⟩
    · cases hk
    · exact (List.mem_erase_of_ne hne).mpr hj
  | begin hs | stopExpiration ok hs | beginDrain hs =>
    exact draining_stage h rfl rfl rfl nofun (fun _ => by rw [hs]; rfl) nofun
  | closeDraining hs =>
    exact draining_stage h rfl rfl rfl (fun _ => rfl) (fun _ => by rw [hs]; rfl) nofun
  | lock hs =>
    refine ⟨h.registered, fun _ => h.closed (by rw [hs]; rfl), fun _ => h.once (by rw [hs]; rfl),
      ?_, h.settled⟩
    rintro todo hst c hc
    cases hst
    -- A connection that is not registered is before its loop or past it.
    have hreg : (s.handlers c).pc.registered = false := by
      by_contra hr
      exact hc (h.registered c (by simpa using hr))
    apply Handler.settled_of_outside
    cases hpc : (s.handlers c).pc <;> first | rfl | (rw [hpc] at hreg; cases hreg)
  | visit c now todo hs hc hn =>
    have hnone : s.passed = none := h.once (by rw [hs]; rfl)
    refine ⟨registered_keep h id, fun _ => h.closed (by rw [hs]; rfl), fun _ => hnone, ?_, ?_⟩
    · rintro todo' hst j hj
      cases hst
      change (Function.update s.handlers c _ j).Settled now
      rw [Function.update_apply]
      split_ifs with hjc
      · exact ⟨by simpa [visitsArming] using hu, fun _ => ⟨now, rfl, le_rfl⟩⟩
      · rw [List.mem_erase_of_ne hjc] at hj
        exact (h.visited todo hs j hj).mono hn
    · intro u hu'
      change s.passed = some u at hu'
      rw [hnone] at hu'
      cases hu'
  | unlock hs =>
    refine ⟨h.registered, fun _ => h.closed (by rw [hs]; rfl), nofun, nofun, ?_⟩
    rintro u hu' c
    cases hu'
    exact h.visited [] hs c List.not_mem_nil
  | waitDone d hs | drained hs | undrained d hs | finalizeOff d hs | finalize d l l' hs
  | signalClose d l l' hs | closeFailed d l err hs | closeDone d l hs | closeTimeout d hs
  | judge d hs =>
    exact draining_stage h rfl rfl rfl (fun _ => h.closed (by rw [hs]; rfl)) nofun nofun
  | sweep now order hn => exact draining_frame h rfl rfl rfl rfl rfl hn
  | fatal code => exact draining_frame h rfl rfl rfl rfl rfl le_rfl
  | log e l l' fatal hl hl' hne hf => exact draining_frame h rfl rfl rfl rfl rfl le_rfl

theorem draining_start (cfg : Config) (engine : Engine) (clock : ℤ) :
    (start cfg engine clock).Draining :=
  ⟨nofun, nofun, fun _ => rfl, nofun, nofun⟩

/-- In every run in which the pass never comes to a connection between its drain check and its
own deadline: once the pass is complete, a connection blocked in a read has a deadline no later
than the pass. -/
theorem idle_released {cfg : Config} {engine : Engine} {clock : ℤ} {es : List ServerEvent}
    {s : Server}
    (hrun : runSteps (guarded (fun s e => s.visitsArming e = false) step)
      (start cfg engine clock) es = some s) {t : ℤ} (hp : s.passed = some t) {c : ℕ}
    (hb : (s.handlers c).pc = .blocked) :
    ∃ d, (s.handlers c).deadline = some d ∧ d ≤ t := by
  have h : s.Draining := by
    refine runSteps_invariant (fun u e v hstep hu => ?_) hrun (draining_start cfg engine clock)
    obtain ⟨hguard, hstep⟩ := guarded_eq_some.mp hstep
    exact draining_moves (step_moves hstep) hguard hu
  exact (h.settled t hp c).expired (Or.inr hb)

theorem pc_visited (s : Server) (todo : List ℕ) (c j : ℕ) (now : ℤ) :
    ((s.visited todo c now).handlers j).pc = (s.handlers j).pc := by
  simp only [visited, Function.update_apply]
  split_ifs with hj
  · rw [hj]
  · rfl

/-- The pass can go over the connections it has left, whatever their goroutines are at. -/
theorem exists_pass {s : Server} {todo : List ℕ} (hs : s.stage = .passing todo) :
    ∃ es t, runSteps step s es = some t ∧ t.stage = .passing [] ∧
      ∀ c, (t.handlers c).pc = (s.handlers c).pc := by
  induction todo generalizing s with
  | nil => exact ⟨[], s, rfl, hs, fun _ => rfl⟩
  | cons c cs ih =>
    have hvisit : s.step (.shutdown (.visit c s.clock)) = some (s.visited (c :: cs) c s.clock) := by
      simp [step, shutdownStep, hs]
    have hst : (s.visited (c :: cs) c s.clock).stage = .passing cs := by simp [visited]
    obtain ⟨es, t, hrun, ht, hpc⟩ := ih hst
    exact ⟨_ :: es, t, runSteps_cons_eq_some.mpr ⟨_, hvisit, hrun⟩, ht,
      fun j => (hpc j).trans (pc_visited s _ c j _)⟩

/-- The condition is exact: where the pass does come to such a connection, the run can go on to a
state in which it is blocked with no deadline, or with one after the pass. -/
theorem exists_stranded {s t : Server} {c : ℕ} {now : ℤ}
    (hvisit : s.step (.shutdown (.visit c now)) = some t) (ha : (s.handlers c).pc = .arming) :
    ∃ es u p, runSteps step t es = some u ∧ u.passed = some p ∧
      (u.handlers c).pc = .blocked ∧ ∀ d, (u.handlers c).deadline = some d → p < d := by
  cases step_moves hvisit with
  | visit _ _ todo hs hc hn =>
    obtain ⟨es, u, hrun, hst, hpc⟩ := exists_pass (s := s.visited todo c now) rfl
    have hu : (u.handlers c).pc = .arming := by rw [hpc c, pc_visited, ha]
    have hlast : runSteps step u
        [.shutdown .unlock, .handler c (.arm u.clock), .handler c .read] =
          some ((({ u with stage := .waiting false, passed := some u.clock }).armed c
            u.clock).setPc c .blocked) := by
      simp [runSteps, step, shutdownStep, handlerStep, hst, hu, armed]
    refine ⟨_, _, u.clock, runSteps_append_eq_some.mpr ⟨u, hrun, hlast⟩, rfl, by simp [setPc], ?_⟩
    intro d hd
    simp only [setPc, armed, Function.update_self] at hd
    split_ifs at hd with hpos
    have hd := Option.some.inj hd
    have hpos : 0 < u.cfg.readTimeout.toInt := by simpa using Int64.lt_iff_toInt_lt.mp hpos
    rw [timeAdd] at hd
    omega

def idleSchedule : List ServerEvent :=
  [.handler 0 .accept, .handler 0 .admitConn, .handler 0 .start, .handler 0 .check,
    .handler 0 (.arm 1), .handler 0 .read, .shutdown .begin, .shutdown (.stopExpiration true),
    .shutdown .beginDrain, .shutdown .closeDraining, .shutdown .lock, .shutdown (.visit 0 2),
    .shutdown .unlock]

theorem idle_released_visited :
    ∃ s, runSteps (guarded (fun s e => s.visitsArming e = false) step)
        (start ⟨1024, 0⟩ .new 0) idleSchedule = some s ∧
      ∃ d, (s.handlers 0).deadline = some d ∧ d ≤ 2 := by
  have hrun : runSteps (guarded (fun s e => s.visitsArming e = false) step)
      (start ⟨1024, 0⟩ .new 0) idleSchedule = some _ := rfl
  exact ⟨_, hrun, idle_released hrun rfl rfl⟩

/-- The pass comes to a connection between its drain check and its own deadline. -/
def strandedSchedule : List ServerEvent :=
  [.handler 0 .accept, .handler 0 .admitConn, .handler 0 .start, .handler 0 .check,
    .shutdown .begin, .shutdown (.stopExpiration true), .shutdown .beginDrain,
    .shutdown .closeDraining, .shutdown .lock, .shutdown (.visit 0 1), .shutdown .unlock,
    .handler 0 (.arm 2), .handler 0 .read]

/-- It clears the pass's deadline and blocks for good. -/
theorem idle_stranded :
    ∃ s, runSteps step (start ⟨1024, 0⟩ .new 0) strandedSchedule = some s ∧
      s.passed = some 1 ∧ 0 ∈ s.conns ∧ (s.handlers 0).pc = .blocked ∧
      (s.handlers 0).deadline = none :=
  ⟨_, rfl, rfl, List.mem_cons_self, rfl, rfl⟩

end Server

end GoKv
