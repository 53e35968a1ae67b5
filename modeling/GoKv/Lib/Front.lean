import GoKv.Lib.Critical

/-! Requests that make at most one call on an object behind a lock. A request is read, its call is
made and its answer is worked out in steps of their own; to those who make requests each is still
performed at once. -/
namespace GoLib

variable {σ ε τ χ κ ρ κ' ρ' α S T : Type*}

/-- Requests `κ'` in terms of calls `κ`: the call a request makes, if it makes one, and what it
answers from what the call answered. -/
structure Front (κ ρ κ' ρ' : Type*) where
  plan : κ' → Option κ
  answer : κ' → Option ρ → ρ'

/-- Requests performed at once on an object that performs calls at once. -/
def AtomicObject.front (A : AtomicObject S τ χ κ ρ α) (F : Front κ ρ κ' ρ') :
    AtomicObject S τ χ κ' ρ' α where
  time := A.time
  fits k x s :=
    match F.plan k with
    | none => true
    | some j => A.fits j x s
  run k x s :=
    match F.plan k with
    | none => (F.answer k none, s)
    | some j =>
      let (r, s) := A.run j x s
      (F.answer k (some r), s)
  env := A.env

namespace AtomicObject

variable {A : AtomicObject S τ χ κ ρ α} {F : Front κ ρ κ' ρ'} {k : κ'} {j : κ}

theorem front_fits (h : F.plan k = some j) (x : χ) (s : S) :
    (A.front F).fits k x s = A.fits j x s := by
  simp only [front, h]

theorem front_run (h : F.plan k = some j) (x : χ) (s : S) :
    (A.front F).run k x s = (F.answer k (some (A.run j x s).1), (A.run j x s).2) := by
  simp only [front, h]

theorem front_run_none (h : F.plan k = none) (x : χ) (s : S) :
    (A.front F).run k x s = (F.answer k none, s) := by
  simp only [front, h]

/-- Requests do not tell objects apart that calls do not. -/
theorem Refines.front [LinearOrder τ] {B : AtomicObject T τ χ κ ρ α} {R : τ → S → T → Prop}
    (h : A.Refines B R) (hlater : ∀ {t t' s u}, R t s u → t ≤ t' → R t' s u)
    (F : Front κ ρ κ' ρ') : (A.front F).Refines (B.front F) R where
  time := h.time
  fits {clock s u k x} hR hfits := by
    cases hplan : F.plan k with
    | none => simp only [AtomicObject.front, hplan]
    | some j =>
      rw [front_fits hplan] at hfits ⊢
      exact h.fits hR hfits
  run {clock s u k x} hR hle hfits := by
    cases hplan : F.plan k with
    | none =>
      rw [front_run_none hplan, front_run_none hplan]
      exact ⟨rfl, hlater hR hle⟩
    | some j =>
      rw [front_fits hplan] at hfits
      obtain ⟨hreply, hnext⟩ := h.run hR hle hfits
      rw [front_run hplan, front_run hplan, hreply]
      exact ⟨rfl, hnext⟩
  env := h.env

end AtomicObject

/-- Requests in front of a lock. A stage that is pending has its call under way. -/
structure Fronted (σ ε τ χ κ ρ κ' ρ' : Type*) where
  below : Guarded σ ε τ χ κ ρ
  desk : ℕ → Stage κ' ρ'
  trace : List (Visible κ' ρ')

inductive FrontEvent (χ κ κ' α : Type*) where
  | request (c : ℕ) (k : κ')
  | below (e : GuardedEvent χ κ α)
  | reply (c : ℕ)

namespace Fronted

def start (s : σ) (e : ε) (clock : τ) : Fronted σ ε τ χ κ ρ κ' ρ' :=
  ⟨.start s e clock, fun _ => .out, []⟩

def move (f : Fronted σ ε τ χ κ ρ κ' ρ') (c : ℕ) (p : Stage κ' ρ') :
    Fronted σ ε τ χ κ ρ κ' ρ' :=
  { f with desk := Function.update f.desk c p }

section Step

variable [LinearOrder τ] (O : LockedObject σ ε τ χ κ ρ α) (F : Front κ ρ κ' ρ')

def requested (f : Fronted σ ε τ χ κ ρ κ' ρ') (c : ℕ) (k : κ') :
    Option (Fronted σ ε τ χ κ ρ κ' ρ') :=
  match F.plan k with
  | none => some { f.move c (.answered k (F.answer k none)) with trace := f.trace ++ [.call c k] }
  | some j => (f.below.step O (.call c j)).map fun g =>
      { f.move c (.pending k) with below := g, trace := f.trace ++ [.call c k] }

def finished (f : Fronted σ ε τ χ κ ρ κ' ρ') (c : ℕ) (k : κ') (r : ρ) :
    Option (Fronted σ ε τ χ κ ρ κ' ρ') :=
  (f.below.step O (.release c)).map fun g =>
    { f.move c (.answered k (F.answer k (some r))) with below := g }

def step (f : Fronted σ ε τ χ κ ρ κ' ρ') :
    FrontEvent χ κ κ' α → Option (Fronted σ ε τ χ κ ρ κ' ρ')
  | .request c k =>
    match f.desk c with
    | .out => f.requested O F c k
    | _ => none
  | .below (.call _ _) => none
  | .below (.release c) =>
    match f.desk c, f.below.spot c with
    | .pending k, .changing _ _ (.done r) => f.finished O F c k r
    | _, _ => none
  | .below e => (f.below.step O e).map fun g => { f with below := g }
  | .reply c =>
    match f.desk c with
    | .answered k r => some { f.move c .out with trace := f.trace ++ [.answer c k r] }
    | _ => none

/-! ## What each step can do -/

inductive Moves (f : Fronted σ ε τ χ κ ρ κ' ρ') :
    FrontEvent χ κ κ' α → Fronted σ ε τ χ κ ρ κ' ρ' → Prop where
  | served (c : ℕ) (k : κ') (hd : f.desk c = .out) (hplan : F.plan k = none) :
      Moves f (.request c k)
        { f.move c (.answered k (F.answer k none)) with trace := f.trace ++ [.call c k] }
  | called (c : ℕ) (k : κ') (j : κ) (hd : f.desk c = .out) (hplan : F.plan k = some j)
      (hc : f.below.spot c = .out) :
      Moves f (.request c k)
        { f.move c (.pending k) with
          below := { f.below.move c (.waiting j) with trace := f.below.trace ++ [.call c j] }
          trace := f.trace ++ [.call c k] }
  | below (e : GuardedEvent χ κ α) (g : Guarded σ ε τ χ κ ρ) (he : e.visible = false)
      (hg : f.below.step O e = some g) : Moves f (.below e) { f with below := g }
  | finished (c : ℕ) (k : κ') (j : κ) (x : χ) (r : ρ) (hd : f.desk c = .pending k)
      (hc : f.below.spot c = .changing j x (.done r)) :
      Moves f (.below (.release c))
        { f.move c (.answered k (F.answer k (some r))) with below := f.below.released O c j r }
  | replied (c : ℕ) (k : κ') (r : ρ') (hd : f.desk c = .answered k r) :
      Moves f (.reply c) { f.move c .out with trace := f.trace ++ [.answer c k r] }

variable {O F} {f t : Fronted σ ε τ χ κ ρ κ' ρ'}

private theorem moves_requested {c : ℕ} {k : κ'} (hd : f.desk c = .out)
    (ht : f.requested O F c k = some t) : f.Moves O F (.request c k) t := by
  unfold requested at ht
  cases hplan : F.plan k with
  | none =>
    rw [hplan] at ht
    cases ht
    exact .served c k hd hplan
  | some j =>
    rw [hplan] at ht
    obtain ⟨g, hg, rfl⟩ := Option.map_eq_some_iff.mp ht
    simp only [Guarded.step] at hg
    cases hc : f.below.spot c with
    | out =>
      simp only [hc] at hg
      cases hg
      exact .called c k j hd hplan hc
    | _ => simp [hc] at hg

theorem step_moves {e : FrontEvent χ κ κ' α} (hstep : f.step O F e = some t) :
    f.Moves O F e t := by
  cases e with
  | request c k =>
    simp only [step] at hstep
    cases hd : f.desk c with
    | out =>
      rw [hd] at hstep
      exact moves_requested hd hstep
    | _ => simp [hd] at hstep
  | reply c =>
    simp only [step] at hstep
    cases hd : f.desk c with
    | answered k r =>
      rw [hd] at hstep
      cases hstep
      exact .replied c k r hd
    | _ => simp [hd] at hstep
  | below e =>
    cases e with
    | call c j => cases hstep
    | release c =>
      simp only [step] at hstep
      split at hstep
      · rename_i k j x r hd hc
        simp only [finished, Guarded.step, hc, Option.map_some] at hstep
        cases hstep
        exact .finished c k j x r hd hc
      · cases hstep
    | _ =>
      obtain ⟨g, hg, rfl⟩ := Option.map_eq_some_iff.mp hstep
      exact .below _ g rfl hg

end Step

/-! ## The simulation -/

variable {F : Front κ ρ κ' ρ'}

variable (F) in
/-- What a desk and the call behind it are, taken together. -/
def lift : Stage κ' ρ' → Stage κ ρ → Stage κ' ρ'
  | .pending k, .answered _ r => .answered k (F.answer k (some r))
  | p, _ => p

variable (F) in
/-- The call behind a desk is the one that was planned. -/
inductive Serves : Stage κ' ρ' → Stage κ ρ → Prop where
  | out : Serves .out .out
  | answered (k : κ') (r : ρ') : Serves (.answered k r) .out
  | calling {k : κ'} {j : κ} (hp : F.plan k = some j) : Serves (.pending k) (.pending j)
  | called {k : κ'} {j : κ} (hp : F.plan k = some j) (r : ρ) : Serves (.pending k) (.answered j r)

theorem Serves.eq_out {p : Stage κ' ρ'} {q : Stage κ ρ} (h : Serves F p q)
    (hp : ∀ k, p ≠ .pending k) : q = .out := by
  cases h with
  | out | answered => rfl
  | @calling k | @called k => exact absurd rfl (hp k)

variable (F) in
/-- The requests performed at once, from the calls performed at once. -/
def lifted (f : Fronted σ ε τ χ κ ρ κ' ρ') (a : AtomicState S τ κ ρ) : AtomicState S τ κ' ρ' where
  state := a.state
  clock := a.clock
  stage c := lift F (f.desk c) (a.stage c)
  trace := f.trace

theorem serves_update {desk : ℕ → Stage κ' ρ'} {stage : ℕ → Stage κ ρ} {c : ℕ} {p : Stage κ' ρ'}
    {q : Stage κ ρ} (h : ∀ d, Serves F (desk d) (stage d)) (hc : Serves F p q) (d : ℕ) :
    Serves F (Function.update desk c p d) (Function.update stage c q d) := by
  by_cases hd : d = c
  · subst hd
    rw [Function.update_self, Function.update_self]
    exact hc
  · rw [Function.update_of_ne hd, Function.update_of_ne hd]
    exact h d

theorem lift_update (desk : ℕ → Stage κ' ρ') (stage : ℕ → Stage κ ρ) (c : ℕ) (p : Stage κ' ρ')
    (q : Stage κ ρ) :
    (fun d => lift F (Function.update desk c p d) (Function.update stage c q d)) =
      Function.update (fun d => lift F (desk d) (stage d)) c (lift F p q) := by
  funext d
  by_cases hd : d = c
  · subst hd
    simp only [Function.update_self]
  · simp only [Function.update_of_ne hd]

variable [LinearOrder τ] {O : LockedObject σ ε τ χ κ ρ α} {A : AtomicObject S τ χ κ ρ α}
  {f t : Fronted σ ε τ χ κ ρ κ' ρ'}

def ofSilent : AtomicEvent χ κ α → AtomicEvent χ κ' α
  | .call c _ | .answer c => .answer c
  | .point c x => .point c x
  | .env e => .env e

/-- A step that the callers do not see is one of requests that nobody sees. -/
theorem step_lifted {a b : AtomicState S τ κ ρ} {d : AtomicEvent χ κ α}
    (hstep : a.step A d = some b) (hd : d.silent = true)
    (h : ∀ c, Serves F (f.desk c) (a.stage c)) :
    (f.lifted F a).step (A.front F) (ofSilent d) = some (f.lifted F b) ∧
      ∀ c, Serves F (f.desk c) (b.stage c) := by
  cases d with
  | call c k => cases hd
  | answer c => cases hd
  | point c x =>
    simp only [AtomicState.step] at hstep
    cases hc : a.stage c with
    | pending j =>
      simp only [hc] at hstep
      split_ifs at hstep with hguard
      cases hstep
      have hserves := h c
      rw [hc] at hserves
      generalize hk : f.desk c = p at hserves
      cases hserves with
      | @calling k _ hp =>
        have hstage : (f.lifted F a).stage c = .pending k := by
          simp only [lifted, hk, hc, lift]
        have hfits : (f.lifted F a).clock ≤ (A.front F).time x ∧
            (A.front F).fits k x (f.lifted F a).state = true := by
          rw [AtomicObject.front_fits hp]
          exact hguard
        simp only [ofSilent, AtomicState.step, hstage, if_pos hfits, AtomicObject.front_run hp]
        have hdesk : Function.update f.desk c (.pending k) = f.desk := by
          rw [← hk, Function.update_eq_self]
        have hnext := serves_update (c := c) h (.called hp (A.run j x a.state).1)
        have hlift := lift_update (F := F) f.desk a.stage c (.pending k)
          (.answered j (A.run j x a.state).1)
        rw [hdesk] at hnext hlift
        have hstage' := congrArg (fun stage =>
          some (AtomicState.mk (A.run j x a.state).2 (A.time x) stage f.trace)) hlift.symm
        exact ⟨hstage', hnext⟩
    | _ => simp [hc] at hstep
  | env e =>
    obtain ⟨s, hs, rfl⟩ := Option.map_eq_some_iff.mp hstep
    refine ⟨?_, h⟩
    have henv : (A.front F).env (f.lifted F a).state e = some s := hs
    simp only [ofSilent, AtomicState.step, henv, Option.map_some]
    rfl

private theorem run_lifted {a b : AtomicState S τ κ ρ} {ds : List (AtomicEvent χ κ α)}
    (hrun : runSteps (AtomicState.step A) a ds = some b) (hds : ∀ d ∈ ds, d.silent = true)
    (h : ∀ c, Serves F (f.desk c) (a.stage c)) :
    runSteps (AtomicState.step (A.front F)) (f.lifted F a) (ds.map ofSilent) =
        some (f.lifted F b) ∧
      ∀ c, Serves F (f.desk c) (b.stage c) := by
  induction ds generalizing a with
  | nil =>
    cases hrun
    exact ⟨rfl, h⟩
  | cons d ds ih =>
    obtain ⟨u, hu, hrest⟩ := runSteps_cons_eq_some.mp hrun
    obtain ⟨hd, hds⟩ := List.forall_mem_cons.mp hds
    obtain ⟨hstep, hserves⟩ := step_lifted hu hd h
    obtain ⟨hsteps, hend⟩ := ih hrest hds hserves
    exact ⟨runSteps_cons_eq_some.mpr ⟨_, hstep, hsteps⟩, hend⟩

variable (F O) in
/-- The requests performed at once that a state in front of the lock stands for. -/
def Simulates (f : Fronted σ ε τ χ κ ρ κ' ρ') (a : AtomicState (σ × ε) τ κ' ρ') : Prop :=
  ∃ b, f.below.Simulates O b ∧ (∀ c, Serves F (f.desk c) (b.stage c)) ∧ a = f.lifted F b

variable (F O) in
/-- The requests performed at once can go on to a state that matches. -/
def Follows (a : AtomicState (σ × ε) τ κ' ρ') (t : Fronted σ ε τ χ κ ρ κ' ρ') : Prop :=
  ∃ ds b, runSteps (AtomicState.step (O.atomic.front F)) a ds = some b ∧ t.Simulates F O b

variable {a : AtomicState (σ × ε) τ κ' ρ'} {c : ℕ} {k : κ'}

private theorem follows_below {g : Guarded σ ε τ χ κ ρ} {e : GuardedEvent χ κ α}
    (h : f.Simulates F O a) (hstep : f.below.step O e = some g) (htrace : g.trace = f.below.trace) :
    Follows F O a { f with below := g } := by
  obtain ⟨b, hsim, hserves, rfl⟩ := h
  obtain ⟨ds, b', hrun, hnext⟩ := Guarded.follows_moves (Guarded.step_moves hstep) hsim
  have hsame : b'.trace = b.trace := by rw [hnext.trace, htrace, hsim.trace]
  obtain ⟨hlift, hend⟩ := run_lifted (f := f) hrun
    (AtomicState.silent_of_trace hrun (by rw [hsame])) hserves
  exact ⟨_, _, hlift, b', hnext, hend, rfl⟩

/-- A call ends: its request was performed when the call was. -/
theorem follows_finished {j : κ} {x : χ} {r : ρ} (h : f.Simulates F O a)
    (hd : f.desk c = .pending k) (hc : f.below.spot c = .changing j x (.done r)) :
    Follows F O a { f.move c (.answered k (F.answer k (some r))) with
      below := f.below.released O c j r } := by
  obtain ⟨b, hsim, hserves, rfl⟩ := h
  have hstage := Guarded.stage_of_done hsim hc
  have hlift := lift_update (F := F) f.desk b.stage c (.answered k (F.answer k (some r))) .out
  have hsame : Function.update (fun d => lift F (f.desk d) (b.stage d)) c
      (.answered k (F.answer k (some r))) = fun d => lift F (f.desk d) (b.stage d) := by
    have hc' : lift F (f.desk c) (b.stage c) = .answered k (F.answer k (some r)) := by
      rw [hd, hstage]
      rfl
    rw [← hc']
    exact Function.update_eq_self c fun d => lift F (f.desk d) (b.stage d)
  refine ⟨[], _, rfl, _, Guarded.simulates_release hsim hc,
    serves_update hserves (.answered k _), ?_⟩
  exact congrArg (fun stage => AtomicState.mk b.state b.clock stage f.trace)
    (hsame.symm.trans hlift.symm)

private theorem follows_reply {r : ρ'} (h : f.Simulates F O a) (hd : f.desk c = .answered k r) :
    Follows F O a { f.move c .out with trace := f.trace ++ [.answer c k r] } := by
  obtain ⟨b, hsim, hserves, rfl⟩ := h
  have hout : b.stage c = .out := (hserves c).eq_out (by simp [hd])
  have hstage : (f.lifted F b).stage c = .answered k r := by
    simp only [lifted, hd, lift]
  have hstep : (f.lifted F b).step (O.atomic.front F) (.answer c) = some { f.lifted F b with
      stage := Function.update (f.lifted F b).stage c .out
      trace := f.trace ++ [.answer c k r] } := by
    simp only [AtomicState.step, hstage]
    rfl
  have hsame : Function.update b.stage c .out = b.stage := by
    rw [← hout, Function.update_eq_self]
  have hnext := serves_update (c := c) hserves .out
  have hlift := lift_update (F := F) f.desk b.stage c .out .out
  rw [hsame] at hnext hlift
  refine ⟨[.answer c], _, runSteps_cons_eq_some.mpr ⟨_, hstep, rfl⟩, b, hsim, hnext, ?_⟩
  exact congrArg (fun stage =>
    AtomicState.mk b.state b.clock stage (f.trace ++ [.answer c k r])) hlift.symm

theorem call_lifted {b : AtomicState (σ × ε) τ κ ρ} (hd : f.desk c = .out) (k : κ') :
    (f.lifted F b).step (O.atomic.front F) (.call c k) = some { f.lifted F b with
      stage := Function.update (f.lifted F b).stage c (.pending k)
      trace := f.trace ++ [.call c k] } := by
  have hout : (f.lifted F b).stage c = .out := by
    simp only [lifted, hd, lift]
  simp only [AtomicState.step, hout]
  rfl

/-- One that makes no call is performed at once, whatever the time. -/
theorem follows_served (htime : ∀ clock, ∃ x, O.time x = clock) (h : f.Simulates F O a)
    (hd : f.desk c = .out) (hplan : F.plan k = none) :
    Follows F O a
      { f.move c (.answered k (F.answer k none)) with trace := f.trace ++ [.call c k] } := by
  obtain ⟨b, hsim, hserves, rfl⟩ := h
  obtain ⟨x, hx⟩ := htime b.clock
  have hout : b.stage c = .out := (hserves c).eq_out (by simp [hd])
  have hsame : Function.update b.stage c .out = b.stage := by
    rw [← hout, Function.update_eq_self]
  have hnext := serves_update (c := c) hserves (.answered k (F.answer k none))
  have hlift := lift_update (F := F) f.desk b.stage c (.answered k (F.answer k none)) .out
  rw [hsame] at hnext hlift
  have hpoint : AtomicState.step (O.atomic.front F) { f.lifted F b with
      stage := Function.update (f.lifted F b).stage c (.pending k)
      trace := f.trace ++ [.call c k] } (.point c x) = some { f.lifted F b with
        stage := Function.update (f.lifted F b).stage c (.answered k (F.answer k none))
        trace := f.trace ++ [.call c k] } := by
    have hguard : (f.lifted F b).clock ≤ (O.atomic.front F).time x ∧
        (O.atomic.front F).fits k x (f.lifted F b).state = true := by
      refine ⟨hx.ge, ?_⟩
      simp only [AtomicObject.front, hplan]
    simp only [AtomicState.step, Function.update_self, if_pos hguard,
      AtomicObject.front_run_none hplan, Function.update_idem]
    rw [show (O.atomic.front F).time x = (f.lifted F b).clock from hx]
  refine ⟨[.call c k, .point c x], _, runSteps_cons_eq_some.mpr ⟨_, call_lifted hd k,
    runSteps_cons_eq_some.mpr ⟨_, hpoint, rfl⟩⟩, b, hsim, hnext, ?_⟩
  exact congrArg (fun stage =>
    AtomicState.mk b.state b.clock stage (f.trace ++ [.call c k])) hlift.symm

private theorem follows_called {j : κ} (h : f.Simulates F O a) (hd : f.desk c = .out)
    (hplan : F.plan k = some j) (hc : f.below.spot c = .out) :
    Follows F O a { f.move c (.pending k) with
      below := { f.below.move c (.waiting j) with trace := f.below.trace ++ [.call c j] }
      trace := f.trace ++ [.call c k] } := by
  obtain ⟨b, hsim, hserves, rfl⟩ := h
  have hlift := lift_update (F := F) f.desk b.stage c (.pending k) (.pending j)
  refine ⟨[.call c k], _, runSteps_cons_eq_some.mpr ⟨_, call_lifted hd k, rfl⟩, _,
    Guarded.simulates_call hsim hc j, serves_update hserves (.calling hplan), ?_⟩
  exact congrArg (fun stage =>
    AtomicState.mk b.state b.clock stage (f.trace ++ [.call c k])) hlift.symm

/-- Whatever happens in front of the lock or behind it, requests performed at once can follow. -/
theorem follows_moves (htime : ∀ clock, ∃ x, O.time x = clock) {e : FrontEvent χ κ κ' α}
    (hm : f.Moves O F e t) (h : f.Simulates F O a) : Follows F O a t := by
  cases hm with
  | served c k hd hplan => exact follows_served htime h hd hplan
  | called c k j hd hplan hc => exact follows_called h hd hplan hc
  | below e g he hg => exact follows_below h hg (Guarded.trace_moves (Guarded.step_moves hg) he)
  | finished c k j x r hd hc => exact follows_finished h hd hc
  | replied c k r hd => exact follows_reply h hd

/-- Every run in front of the lock has the trace of a run of requests performed at once on an
object that the guarded one refines; the states are related once the writer at work, if any, is
done. -/
theorem linearizes (htime : ∀ clock, ∃ x, O.time x = clock) {B : AtomicObject T τ χ κ' ρ' α}
    {R : τ → σ × ε → T → Prop} (href : (O.atomic.front F).Refines B R) {s : σ} {e : ε} {u : T}
    {clock : τ} (hstart : R clock (s, e) u) {es : List (FrontEvent χ κ κ' α)}
    (hrun : runSteps (step O F) (start s e clock) es = some t) :
    ∃ ds b, runSteps (AtomicState.step B) (.start u clock) ds = some b ∧ b.trace = t.trace ∧
      b.clock ≤ t.below.clock ∧ R b.clock (t.below.settled, t.below.world) b.state := by
  have hsim : (start s e clock).Simulates F O (.start (s, e) clock) :=
    ⟨_, Guarded.simulates_start s e clock, fun _ => .out, rfl⟩
  obtain ⟨ds, a, ha, b, hb, -, rfl⟩ :=
    runSteps_simulates (fun _ _ _ _ hstep h => follows_moves htime (step_moves hstep) h) hrun hsim
  obtain ⟨ds', u', hu, hau⟩ := href.runs ha (b := .start u clock) ⟨hstart, rfl, rfl, rfl⟩
  refine ⟨ds', u', hu, hau.trace, hau.clock.trans_le hb.clock, ?_⟩
  have hstate := hau.state
  rw [← hau.clock] at hstate
  rwa [← hb.state]

end Fronted

end GoLib
