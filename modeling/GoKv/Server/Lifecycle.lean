import GoKv.Server.Supervisor

/-! The life of the server: RunWithReady waits for a signal or a fatal condition and shuts down
either way, while other goroutines report fatal conditions and panic. -/
namespace GoKv
open GoLib

/-- What both shutdowns do on the way, in an order of their own. -/
inductive Action where
  | closeListener
  | stopExpiration
  | beginDrain
  | closeDraining
  | passDeadlines
  | closeConns
  deriving DecidableEq

/-- gracefulShutdown, up to the wait for the connections. -/
def gracefulActions : List Action :=
  [.closeListener, .stopExpiration, .beginDrain, .closeDraining, .passDeadlines]

/-- fatalShutdown, up to its last wait. -/
def fatalActions : List Action :=
  [.stopExpiration, .closeListener, .beginDrain, .closeDraining, .closeConns]

/-- Where RunWithReady is: in its select; in gracefulShutdown before, in and after the wait for the
connections, in Finalize, in Fatal, at Fired, at Cause; in fatalShutdown; at its last wait. -/
inductive RunPc (ε : Type*) where
  | serving
  | draining (todo : List Action)
  | waiting
  | finalizing (drained : Bool)
  | reporting (drained : Bool)
  | judging (drained : Bool)
  | condemned
  | seen
  | aborting (cause : Option ε) (todo : List Action)
  | closing (res : Option (RunErr ε))
  | leaving (res : Option (RunErr ε))
  | returned (res : Option (RunErr ε))

def RunPc.verdict {ε : Type*} (fired drained : Bool) : RunPc ε :=
  if fired then .condemned else if drained then .returned none else .closing (some .timeout)

/-- A panic in a handler: `guard` reports it if it comes from a mutation, and recoverConn asks
whether a fatal condition was reported. -/
inductive PanicPc where
  | calm
  | guarded
  | unwinding (reported : Bool)
  | recovered (reported fired : Bool)
  deriving DecidableEq

/-- A panic that was reported finds the channel closed. -/
def PanicPc.Heard (done : Bool) : PanicPc → Prop
  | .calm | .guarded => True
  | .unwinding reported => reported = true → done = true
  | .recovered reported fired => reported = true → fired = true

theorem PanicPc.Heard.mono {done done' : Bool} {p : PanicPc} (h : p.Heard done)
    (hd : done = true → done' = true) : p.Heard done' := by
  cases p with
  | unwinding reported => exact fun hr => hd (h hr)
  | _ => exact h

/-- Whether the listener is open, the engine admits mutations, and the draining channel is closed.
Closing a closed channel panics, which is `crashed`. -/
structure Gates where
  listening : Bool
  accepting : Bool
  announced : Bool
  crashed : Bool

namespace Gates

variable {s : Gates} {a : Action} {todo : List Action}

def act (s : Gates) : Action → Gates
  | .closeListener => { s with listening := false }
  | .beginDrain => { s with accepting := false }
  | .closeDraining => { s with announced := true, crashed := s.crashed || s.announced }
  | .stopExpiration | .passDeadlines | .closeConns => s

/-- What is not done yet is still to come, and the draining channel is closed once. -/
structure Ahead (s : Gates) (todo : List Action) : Prop where
  listener : s.listening = true → .closeListener ∈ todo
  gate : s.accepting = true → .beginDrain ∈ todo
  announce : s.announced = false ↔ .closeDraining ∈ todo
  once : todo.Nodup
  sane : s.crashed = false

theorem ahead_act (h : s.Ahead (a :: todo)) : (s.act a).Ahead todo := by
  obtain ⟨hl, hg, ha, hn, hs⟩ := h
  obtain ⟨hna, hn⟩ := List.nodup_cons.mp hn
  cases a <;> constructor <;> simp_all [act]

theorem ahead_start (ha : s.announced = false) (hs : s.crashed = false)
    (hl : .closeListener ∈ todo) (hg : .beginDrain ∈ todo)
    (hd : .closeDraining ∈ todo) (hn : todo.Nodup) : s.Ahead todo :=
  ⟨fun _ => hl, fun _ => hg, ⟨fun _ => hd, fun _ => ha⟩, hn, hs⟩

end Gates

/-- In the supervisor the goroutine of RunWithReady is `none`. -/
structure Lifecycle (ε : Type*) where
  sup : Supervisor (Option ℕ) ε
  main : RunPc ε
  gates : Gates
  panics : ℕ → PanicPc

inductive Waited where
  | conns
  | supDone
  | elapsed

inductive MainEvent (ε : Type*) where
  | cancelled
  | supDone
  | act
  | waited (w : Waited)
  | finalized (err : Option ε)
  | fatal (e : FatalEvent ε)
  | resume
  | fired
  | cause
  | closeConns
  | leave (w : Waited)

inductive LifeEvent (ε : Type*) where
  | main (e : MainEvent ε)
  | fatal (g : ℕ) (e : FatalEvent ε)
  | panicked (g : ℕ) (err : ε)
  | unguarded (g : ℕ)
  | repanic (g : ℕ)
  | recovered (g : ℕ)

namespace Lifecycle

variable {ε : Type*}

def start : Lifecycle ε where
  sup := .new
  main := .serving
  gates := ⟨true, true, false, false⟩
  panics _ := .calm

def waitConns (s : Lifecycle ε) : Waited → Option Bool
  | .conns => some true
  | .supDone => if s.sup.fired then some false else none
  | .elapsed => some false

def mainStep (s : Lifecycle ε) : MainEvent ε → Option (Lifecycle ε)
  | .cancelled =>
    match s.main with
    | .serving => some { s with main := .draining gracefulActions }
    | _ => none
  | .supDone =>
    match s.main with
    | .serving => if s.sup.fired then some { s with main := .seen } else none
    | _ => none
  | .act =>
    match s.main with
    | .draining [] => some { s with main := .waiting }
    | .draining (a :: todo) => some { s with gates := s.gates.act a, main := .draining todo }
    | .aborting cause [] => some { s with main := .leaving (cause.map .fatal) }
    | .aborting cause (a :: todo) =>
      some { s with gates := s.gates.act a, main := .aborting cause todo }
    | _ => none
  | .waited w =>
    match s.main with
    | .waiting => (s.waitConns w).map fun drained => { s with main := .finalizing drained }
    | _ => none
  | .finalized err =>
    match s.main with
    | .finalizing drained =>
      match err with
      | none => some { s with main := .judging drained }
      | some err => (s.sup.step none (.call err)).map fun sup =>
          { s with sup := sup, main := .reporting drained }
    | _ => none
  | .fatal e =>
    if e.inner then (s.sup.step none e).map fun sup => { s with sup := sup } else none
  | .resume =>
    match s.main with
    | .reporting drained => (s.sup.step none .forget).map fun sup =>
        { s with sup := sup, main := .judging drained }
    | _ => none
  | .fired =>
    match s.main with
    | .judging drained =>
      some { s with main := .verdict s.sup.fired drained }
    | _ => none
  | .cause =>
    match s.main with
    | .condemned => some { s with main := .closing (s.sup.cause.map .fatal) }
    | .seen => some { s with main := .aborting s.sup.cause fatalActions }
    | _ => none
  | .closeConns =>
    match s.main with
    | .closing res => some { s with main := .leaving res }
    | _ => none
  | .leave w =>
    match s.main with
    | .leaving res => (s.waitConns w).map fun _ => { s with main := .returned res }
    | _ => none

def setPanic (s : Lifecycle ε) (g : ℕ) (p : PanicPc) : Lifecycle ε :=
  { s with panics := Function.update s.panics g p }

def step (s : Lifecycle ε) : LifeEvent ε → Option (Lifecycle ε)
  | .main e => s.mainStep e
  -- A goroutine that panicked takes no other step than those of the report.
  | .fatal g e =>
    if e.inner ∨ s.panics g = .calm then
      (s.sup.step (some g) e).map fun sup => { s with sup := sup }
    else none
  | .panicked g err =>
    if s.panics g = .calm then
      (s.sup.step (some g) (.call err)).map fun sup => { s.setPanic g .guarded with sup := sup }
    else none
  | .unguarded g =>
    match s.panics g, s.sup.pcs (some g) with
    | .calm, .away => some (s.setPanic g (.unwinding false))
    | _, _ => none
  | .repanic g =>
    if s.panics g = .guarded then
      (s.sup.step (some g) .forget).map fun sup =>
        { s.setPanic g (.unwinding true) with sup := sup }
    else none
  | .recovered g =>
    match s.panics g with
    | .unwinding reported => some (s.setPanic g (.recovered reported s.sup.fired))
    | _ => none

/-! ## What each step can do -/

/-- The moves of RunWithReady that change nothing else. -/
inductive Turns (sup : Supervisor (Option ℕ) ε) : RunPc ε → RunPc ε → Prop where
  | cancelled : Turns sup .serving (.draining gracefulActions)
  | supDone (hd : sup.done = true) : Turns sup .serving .seen
  | drained : Turns sup (.draining []) .waiting
  | aborted (cause : Option ε) : Turns sup (.aborting cause []) (.leaving (cause.map .fatal))
  | waited (drained : Bool) : Turns sup .waiting (.finalizing drained)
  | finalized (drained : Bool) : Turns sup (.finalizing drained) (.judging drained)
  | condemned (drained : Bool) (hd : sup.done = true) : Turns sup (.judging drained) .condemned
  | spared (hd : sup.done = false) : Turns sup (.judging true) (.returned none)
  | timedOut (hd : sup.done = false) : Turns sup (.judging false) (.closing (some .timeout))
  | cause : Turns sup .condemned (.closing (sup.cause.map .fatal))
  | seen : Turns sup .seen (.aborting sup.cause fatalActions)
  | closeConns (res : Option (RunErr ε)) : Turns sup (.closing res) (.leaving res)
  | leave (res : Option (RunErr ε)) : Turns sup (.leaving res) (.returned res)

inductive Moves (s : Lifecycle ε) : Lifecycle ε → Prop where
  | turn (m : RunPc ε) (hm : Turns s.sup s.main m) : Moves s { s with main := m }
  | drain (a : Action) (todo : List Action) (hm : s.main = .draining (a :: todo)) :
      Moves s { s with gates := s.gates.act a, main := .draining todo }
  | abort (cause : Option ε) (a : Action) (todo : List Action)
      (hm : s.main = .aborting cause (a :: todo)) :
      Moves s { s with gates := s.gates.act a, main := .aborting cause todo }
  | fatal (g : Option ℕ) (e : FatalEvent ε) (sup : Supervisor (Option ℕ) ε)
      (hs : s.sup.Moves g e sup) (he : g = none → e.inner = true) : Moves s { s with sup := sup }
  | report (drained : Bool) (err : ε) (sup : Supervisor (Option ℕ) ε)
      (hm : s.main = .finalizing drained) (hs : s.sup.Moves none (.call err) sup) :
      Moves s { s with sup := sup, main := .reporting drained }
  | resume (drained : Bool) (sup : Supervisor (Option ℕ) ε) (hm : s.main = .reporting drained)
      (hs : s.sup.Moves none .forget sup) :
      Moves s { s with sup := sup, main := .judging drained }
  | panicked (g : ℕ) (err : ε) (sup : Supervisor (Option ℕ) ε)
      (hs : s.sup.Moves (some g) (.call err) sup) :
      Moves s { s.setPanic g .guarded with sup := sup }
  | unguarded (g : ℕ) : Moves s (s.setPanic g (.unwinding false))
  | repanic (g : ℕ) (sup : Supervisor (Option ℕ) ε) (hs : s.sup.Moves (some g) .forget sup) :
      Moves s { s.setPanic g (.unwinding true) with sup := sup }
  | recovered (g : ℕ) (reported : Bool) (hp : s.panics g = .unwinding reported) :
      Moves s (s.setPanic g (.recovered reported s.sup.done))

variable {s t : Lifecycle ε}

private theorem moves_main {e : MainEvent ε} (h : s.mainStep e = some t) : s.Moves t := by
  cases e with
  | cancelled =>
    simp only [mainStep] at h
    cases hm : s.main with
    | serving => simp only [hm] at h; cases h; exact .turn _ (hm ▸ .cancelled)
    | _ => simp [hm] at h
  | supDone =>
    simp only [mainStep] at h
    cases hm : s.main with
    | serving =>
      simp only [hm] at h
      exact of_guard (fun hd => .turn _ (hm ▸ .supDone hd)) h
    | _ => simp [hm] at h
  | act =>
    simp only [mainStep] at h
    cases hm : s.main with
    | draining todo =>
      cases todo with
      | nil => simp only [hm] at h; cases h; exact .turn _ (hm ▸ .drained)
      | cons a todo => simp only [hm] at h; cases h; exact .drain a todo hm
    | aborting cause todo =>
      cases todo with
      | nil => simp only [hm] at h; cases h; exact .turn _ (hm ▸ .aborted cause)
      | cons a todo => simp only [hm] at h; cases h; exact .abort cause a todo hm
    | _ => simp [hm] at h
  | waited w =>
    simp only [mainStep] at h
    cases hm : s.main with
    | waiting =>
      simp only [hm] at h
      obtain ⟨drained, -, rfl⟩ := Option.map_eq_some_iff.mp h
      exact .turn _ (hm ▸ .waited drained)
    | _ => simp [hm] at h
  | finalized err =>
    simp only [mainStep] at h
    cases hm : s.main with
    | finalizing drained =>
      cases err with
      | none => simp only [hm] at h; cases h; exact .turn _ (hm ▸ .finalized drained)
      | some err =>
        simp only [hm] at h
        obtain ⟨sup, hs, rfl⟩ := Option.map_eq_some_iff.mp h
        exact .report drained err sup hm (Supervisor.step_moves hs)
    | _ => simp [hm] at h
  | fatal e =>
    simp only [mainStep] at h
    split_ifs at h with he
    obtain ⟨sup, hs, rfl⟩ := Option.map_eq_some_iff.mp h
    exact .fatal none e sup (Supervisor.step_moves hs) fun _ => he
  | resume =>
    simp only [mainStep] at h
    cases hm : s.main with
    | reporting drained =>
      simp only [hm] at h
      obtain ⟨sup, hs, rfl⟩ := Option.map_eq_some_iff.mp h
      exact .resume drained sup hm (Supervisor.step_moves hs)
    | _ => simp [hm] at h
  | fired =>
    simp only [mainStep] at h
    cases hm : s.main with
    | judging drained =>
      simp only [hm] at h
      cases h
      refine .turn _ ?_
      rw [hm, RunPc.verdict]
      split_ifs with hd hdrained
      · exact .condemned drained hd
      · exact hdrained ▸ .spared (Bool.eq_false_iff.mpr hd)
      · exact (Bool.eq_false_iff.mpr hdrained) ▸ .timedOut (Bool.eq_false_iff.mpr hd)
    | _ => simp [hm] at h
  | cause =>
    simp only [mainStep] at h
    cases hm : s.main with
    | condemned => simp only [hm] at h; cases h; exact .turn _ (hm ▸ .cause)
    | seen => simp only [hm] at h; cases h; exact .turn _ (hm ▸ .seen)
    | _ => simp [hm] at h
  | closeConns =>
    simp only [mainStep] at h
    cases hm : s.main with
    | closing res => simp only [hm] at h; cases h; exact .turn _ (hm ▸ .closeConns res)
    | _ => simp [hm] at h
  | leave w =>
    simp only [mainStep] at h
    cases hm : s.main with
    | leaving res =>
      simp only [hm] at h
      obtain ⟨-, -, rfl⟩ := Option.map_eq_some_iff.mp h
      exact .turn _ (hm ▸ .leave res)
    | _ => simp [hm] at h

theorem step_moves {e : LifeEvent ε} (h : s.step e = some t) : s.Moves t := by
  cases e with
  | main e => exact moves_main h
  | fatal g e =>
    simp only [step] at h
    split_ifs at h
    obtain ⟨sup, hs, rfl⟩ := Option.map_eq_some_iff.mp h
    exact .fatal (some g) e sup (Supervisor.step_moves hs) nofun
  | panicked g err =>
    simp only [step] at h
    split_ifs at h
    obtain ⟨sup, hs, rfl⟩ := Option.map_eq_some_iff.mp h
    exact .panicked g err sup (Supervisor.step_moves hs)
  | unguarded g =>
    simp only [step] at h
    split at h
    · cases h
      exact .unguarded g
    · cases h
  | repanic g =>
    simp only [step] at h
    split_ifs at h
    obtain ⟨sup, hs, rfl⟩ := Option.map_eq_some_iff.mp h
    exact .repanic g sup (Supervisor.step_moves hs)
  | recovered g =>
    simp only [step] at h
    cases hp : s.panics g with
    | unwinding reported => simp only [hp] at h; cases h; exact .recovered g reported hp
    | _ => simp [hp] at h

theorem sup_moves (hm : s.Moves t) : t.sup = s.sup ∨ ∃ g e, s.sup.Moves g e t.sup := by
  cases hm with
  | fatal g e sup hs _ => exact .inr ⟨_, _, hs⟩
  | report drained err sup hm hs => exact .inr ⟨_, _, hs⟩
  | resume drained sup hm hs => exact .inr ⟨_, _, hs⟩
  | panicked g err sup hs => exact .inr ⟨_, _, hs⟩
  | repanic g sup hs => exact .inr ⟨_, _, hs⟩
  | _ => exact .inl rfl

theorem done_moves (hm : s.Moves t) (hd : s.sup.done = true) : t.sup.done = true := by
  rcases sup_moves hm with hs | ⟨g, e, hs⟩
  · rw [hs]
    exact hd
  · exact Supervisor.done_step hs hd

theorem step_draining {a : Action} {todo : List Action} (hm : s.main = .draining (a :: todo)) :
    s.step (.main .act) = some { s with gates := s.gates.act a, main := .draining todo } := by
  simp only [step, mainStep, hm]

theorem step_aborting {cause : Option ε} {a : Action} {todo : List Action}
    (hm : s.main = .aborting cause (a :: todo)) :
    s.step (.main .act) = some { s with gates := s.gates.act a, main := .aborting cause todo } := by
  simp only [step, mainStep, hm]

/-- A step inside Fatal as a step of the goroutine that takes it. -/
def ofFatal : Option ℕ × FatalEvent ε → LifeEvent ε
  | (none, e) => .main (.fatal e)
  | (some g, e) => .fatal g e

theorem run_ofFatal {es : List (Option ℕ × FatalEvent ε)} {sup : Supervisor (Option ℕ) ε}
    (hes : ∀ x ∈ es, x.2.inner = true)
    (hrun : runSteps Supervisor.advance s.sup es = some sup) :
    runSteps step s (es.map ofFatal) = some { s with sup := sup } := by
  induction es generalizing s with
  | nil =>
    cases hrun
    rfl
  | cons x es ih =>
    obtain ⟨he, hes⟩ := List.forall_mem_cons.mp hes
    obtain ⟨u, hu, hrest⟩ := runSteps_cons_eq_some.mp hrun
    refine runSteps_cons_eq_some.mpr ⟨{ s with sup := u }, ?_, ih hes hrest⟩
    obtain ⟨g, e⟩ := x
    simp only [Supervisor.advance] at hu
    cases g with
    | none => simp only [ofFatal, step, mainStep, if_pos he, hu, Option.map_some]
    | some g => simp only [ofFatal, step, he, true_or, if_true, hu, Option.map_some]

/-! ## The two shutdowns -/

def Placed (s : Lifecycle ε) : Prop :=
  match s.main with
  | .serving | .seen => s.gates.announced = false ∧ s.gates.crashed = false
  | .draining todo | .aborting _ todo => s.gates.Ahead todo
  | _ => s.gates.Ahead []

def Told (s : Lifecycle ε) : Prop :=
  match s.main with
  | .seen | .condemned => s.sup.done = true
  | .aborting cause _ => s.sup.done = true ∧ cause = s.sup.cause
  | .closing res | .leaving res | .returned res =>
    ∀ cause, res = some (.fatal cause) → s.sup.done = true ∧ s.sup.cause = some cause
  | _ => True

structure Sound (s : Lifecycle ε) : Prop where
  sup : s.sup.Sound
  inFatal : ∀ drained, s.main = .reporting drained → s.sup.pcs none ≠ .away
  placed : s.Placed
  told : s.Told
  heard : ∀ g, (s.panics g).Heard s.sup.done

theorem sound_start : Sound (start : Lifecycle ε) where
  sup := Supervisor.sound_new
  inFatal _ h := by cases h
  placed := ⟨rfl, rfl⟩
  told := trivial
  heard _ := trivial

/-- RunWithReady keeps what it knows while others report. -/
theorem told_sup (h : s.Sound) {g : Option ℕ} {e : FatalEvent ε} {sup : Supervisor (Option ℕ) ε}
    (hs : s.sup.Moves g e sup) : ({ s with sup := sup } : Lifecycle ε).Told := by
  have ht := h.told
  have hdone := Supervisor.done_step hs
  have hkeep : ∀ cause, s.sup.done = true ∧ s.sup.cause = some cause →
      sup.done = true ∧ sup.cause = some cause :=
    fun cause ⟨hd, hc⟩ => ⟨hdone hd, Supervisor.cause_step h.sup hs hc⟩
  unfold Told at ht ⊢
  dsimp only
  split at ht
  · exact hdone ht
  · exact hdone ht
  · obtain ⟨hd, rfl⟩ := ht
    obtain ⟨err, hc⟩ := h.sup.cause_of_done hd
    exact ⟨hdone hd, hc.trans (hkeep err ⟨hd, hc⟩).2.symm⟩
  · exact fun cause hres => hkeep cause (ht cause hres)
  · exact fun cause hres => hkeep cause (ht cause hres)
  · exact fun cause hres => hkeep cause (ht cause hres)
  · trivial

private theorem told_turn (h : s.Sound) {m : RunPc ε} (hm : Turns s.sup s.main m) :
    ({ s with main := m } : Lifecycle ε).Told := by
  have ht := h.told
  unfold Told at ht
  generalize s.main = m₀ at hm ht
  cases hm with
  | supDone hd => exact hd
  | condemned drained hd => exact hd
  | spared hd => exact nofun
  | timedOut hd => exact nofun
  | aborted cause =>
    intro c hres
    obtain ⟨x, hx, hc⟩ := Option.map_eq_some_iff.mp hres
    cases hc
    exact ⟨ht.1, ht.2.symm.trans hx⟩
  | cause =>
    intro c hres
    obtain ⟨x, hx, hc⟩ := Option.map_eq_some_iff.mp hres
    cases hc
    exact ⟨ht, hx⟩
  | seen => exact ⟨ht, rfl⟩
  | closeConns res => exact ht
  | leave res => exact ht
  | _ => trivial

theorem told_step (h : s.Sound) (hm : s.Moves t) : t.Told := by
  cases hm with
  | turn m hm => exact told_turn h hm
  | abort cause a todo hm =>
    have ht := h.told
    simp only [Told, hm] at ht
    exact ht
  | fatal g e sup hs _ => exact told_sup h hs
  | panicked g err sup hs => exact told_sup h hs
  | repanic g sup hs => exact told_sup h hs
  | unguarded g => exact h.told
  | recovered g reported hp => exact h.told
  | _ => trivial

private theorem placed_turn (h : s.Placed) {m : RunPc ε} (hm : Turns s.sup s.main m) :
    ({ s with main := m } : Lifecycle ε).Placed := by
  unfold Placed at h
  generalize s.main = m₀ at hm h
  cases hm with
  | cancelled => exact Gates.ahead_start h.1 h.2 (by decide) (by decide) (by decide) (by decide)
  | seen => exact Gates.ahead_start h.1 h.2 (by decide) (by decide) (by decide) (by decide)
  | _ => exact h

theorem placed_step (h : s.Placed) (hm : s.Moves t) : t.Placed := by
  cases hm with
  | turn m hm => exact placed_turn h hm
  | drain a todo hm =>
    simp only [Placed, hm] at h
    exact Gates.ahead_act h
  | abort cause a todo hm =>
    simp only [Placed, hm] at h
    exact Gates.ahead_act h
  | report drained err sup hm hs =>
    simp only [Placed, hm] at h
    exact h
  | resume drained sup hm hs =>
    simp only [Placed, hm] at h
    exact h
  | _ => exact h

theorem heard_setPanic {done : Bool} (h : ∀ g, (s.panics g).Heard s.sup.done)
    (hd : s.sup.done = true → done = true) (g : ℕ) (p : PanicPc) (hp : p.Heard done) (j : ℕ) :
    ((s.setPanic g p).panics j).Heard done := by
  by_cases hj : j = g
  · subst hj
    simpa [setPanic] using hp
  · simpa [setPanic, Function.update_of_ne hj] using (h j).mono hd

theorem heard_step (h : s.Sound) (hm : s.Moves t) (j : ℕ) : (t.panics j).Heard t.sup.done := by
  cases hm with
  | turn m hm => exact h.heard j
  | drain a todo hm => exact h.heard j
  | abort cause a todo hm => exact h.heard j
  | fatal g e sup hs _ => exact (h.heard j).mono (Supervisor.done_step hs)
  | report drained err sup _ hs => exact (h.heard j).mono (Supervisor.done_step hs)
  | resume drained sup _ hs => exact (h.heard j).mono (Supervisor.done_step hs)
  | panicked g err sup hs =>
    exact heard_setPanic h.heard (Supervisor.done_step hs) g .guarded trivial j
  | unguarded g =>
    refine heard_setPanic h.heard id g (.unwinding false) (fun hr => ?_) j
    cases hr
  | repanic g sup hs =>
    cases hs with
    | forget err hp =>
      exact heard_setPanic h.heard id g (.unwinding true) (fun _ => h.sup.done_of_back hp) j
  | recovered g reported hp =>
    have hg := h.heard g
    rw [hp] at hg
    exact heard_setPanic h.heard id g (.recovered reported s.sup.done) hg j

theorem inFatal_step (h : s.Sound) (hm : s.Moves t) (drained : Bool)
    (ht : t.main = .reporting drained) : t.sup.pcs none ≠ .away := by
  cases hm with
  | turn m hm =>
    cases ht
    generalize s.main = m₀ at hm
    cases hm
  | drain a todo hm => cases ht
  | abort cause a todo hm => cases ht
  | fatal g e sup hs he =>
    by_cases hg : g = none
    · subst hg
      exact Supervisor.pcs_inner hs (he rfl)
    · rw [Supervisor.pcs_step hs (Ne.symm hg)]
      exact h.inFatal drained ht
  | report d err sup hm hs =>
    cases hs with
    | call err hp => simp [Supervisor.setPc]
  | resume d sup hm hs => cases ht
  | panicked g err sup hs =>
    rw [Supervisor.pcs_step hs (by simp)]
    exact h.inFatal drained ht
  | unguarded g => exact h.inFatal drained ht
  | repanic g sup hs =>
    rw [Supervisor.pcs_step hs (by simp)]
    exact h.inFatal drained ht
  | recovered g reported hp => exact h.inFatal drained ht

theorem sound_step (h : s.Sound) {e : LifeEvent ε} (hstep : s.step e = some t) : t.Sound := by
  have hm := step_moves hstep
  refine ⟨?_, inFatal_step h hm, placed_step h.placed hm, told_step h hm, heard_step h hm⟩
  rcases sup_moves hm with hs | ⟨g, e, hs⟩
  · rw [hs]
    exact h.sup
  · exact Supervisor.sound_step h.sup hs

theorem sound_run {es : List (LifeEvent ε)} (hrun : runSteps step start es = some s) : s.Sound :=
  runSteps_invariant (fun _ _ _ hstep h => sound_step h hstep) hrun sound_start

end Lifecycle

end GoKv
