import GoKv.Lib.Schedule
import Mathlib.Logic.Function.Basic
import Mathlib.Order.Lattice

/-! An object whose calls are performed at once, each at one moment between the call and its
answer. -/
namespace GoLib

variable {τ χ κ ρ α S : Type*}

/-- Calls performed at once on a state `S`. -/
structure AtomicObject (S τ χ κ ρ α : Type*) where
  time : χ → τ
  fits : κ → χ → S → Bool
  run : κ → χ → S → ρ × S
  env : S → α → Option S

inductive Visible (κ ρ : Type*) where
  | call (c : ℕ) (k : κ)
  | answer (c : ℕ) (k : κ) (r : ρ)

inductive Stage (κ ρ : Type*) where
  | out
  | pending (k : κ)
  | answered (k : κ) (r : ρ)

structure AtomicState (S τ κ ρ : Type*) where
  state : S
  clock : τ
  stage : ℕ → Stage κ ρ
  trace : List (Visible κ ρ)

inductive AtomicEvent (χ κ α : Type*) where
  | call (c : ℕ) (k : κ)
  | point (c : ℕ) (x : χ)
  | answer (c : ℕ)
  | env (a : α)

namespace AtomicState

def start (s : S) (clock : τ) : AtomicState S τ κ ρ := ⟨s, clock, fun _ => .out, []⟩

/-- A call is performed at one point, at a time not before the last. -/
def step [LinearOrder τ] (A : AtomicObject S τ χ κ ρ α) (a : AtomicState S τ κ ρ) :
    AtomicEvent χ κ α → Option (AtomicState S τ κ ρ)
  | .call c k =>
    match a.stage c with
    | .out => some { a with
        stage := Function.update a.stage c (.pending k), trace := a.trace ++ [.call c k] }
    | _ => none
  | .point c x =>
    match a.stage c with
    | .pending k =>
      if a.clock ≤ A.time x ∧ A.fits k x a.state then
        let (r, s) := A.run k x a.state
        some { a with
          state := s, clock := A.time x, stage := Function.update a.stage c (.answered k r) }
      else none
    | _ => none
  | .answer c =>
    match a.stage c with
    | .answered k r => some { a with
        stage := Function.update a.stage c .out, trace := a.trace ++ [.answer c k r] }
    | _ => none
  | .env e => (A.env a.state e).map fun s => { a with state := s }

end AtomicState

/-- Calls on `A` are answered as the same calls on `B` are, from states that are related at the
time of the last call. -/
structure AtomicObject.Refines [LinearOrder τ] {T : Type*} (A : AtomicObject S τ χ κ ρ α)
    (B : AtomicObject T τ χ κ ρ α) (R : τ → S → T → Prop) : Prop where
  time : A.time = B.time
  fits : ∀ {clock s t k x}, R clock s t → A.fits k x s = true → B.fits k x t = true
  run : ∀ {clock s t k x}, R clock s t → clock ≤ A.time x → A.fits k x s = true →
    (A.run k x s).1 = (B.run k x t).1 ∧ R (A.time x) (A.run k x s).2 (B.run k x t).2
  env : ∀ {clock s t a s'}, R clock s t → A.env s a = some s' →
    ∃ t', B.env t a = some t' ∧ R clock s' t'

namespace AtomicObject

variable [LinearOrder τ] {T : Type*} {A : AtomicObject S τ χ κ ρ α} {B : AtomicObject T τ χ κ ρ α}
  {R : τ → S → T → Prop}

/-- The callers of the two objects are at the same place and have seen the same. -/
structure Related (R : τ → S → T → Prop) (a : AtomicState S τ κ ρ) (b : AtomicState T τ κ ρ) :
    Prop where
  state : R a.clock a.state b.state
  clock : b.clock = a.clock
  stage : b.stage = a.stage
  trace : b.trace = a.trace

theorem Refines.step (h : A.Refines B R) {a a' : AtomicState S τ κ ρ} {e : AtomicEvent χ κ α}
    (hstep : a.step A e = some a') {b : AtomicState T τ κ ρ} (hab : Related R a b) :
    ∃ b', b.step B e = some b' ∧ Related R a' b' := by
  obtain ⟨hstate, hclock, hstage, htrace⟩ := hab
  cases e with
  | call c k =>
    simp only [AtomicState.step, hstage] at hstep ⊢
    cases hc : a.stage c with
    | out =>
      simp only [hc] at hstep ⊢
      cases hstep
      exact ⟨_, rfl, hstate, hclock, rfl, congrArg (· ++ _) htrace⟩
    | _ => simp [hc] at hstep
  | point c x =>
    simp only [AtomicState.step, hstage, hclock, ← h.time] at hstep ⊢
    cases hc : a.stage c with
    | pending k =>
      simp only [hc] at hstep ⊢
      split_ifs at hstep with hguard
      cases hstep
      obtain ⟨hreply, hnext⟩ := h.run hstate hguard.1 hguard.2
      rw [if_pos ⟨hguard.1, h.fits hstate hguard.2⟩, hreply]
      exact ⟨_, rfl, hnext, rfl, rfl, htrace⟩
    | _ => simp [hc] at hstep
  | answer c =>
    simp only [AtomicState.step, hstage] at hstep ⊢
    cases hc : a.stage c with
    | answered k r =>
      simp only [hc] at hstep ⊢
      cases hstep
      exact ⟨_, rfl, hstate, hclock, rfl, congrArg (· ++ _) htrace⟩
    | _ => simp [hc] at hstep
  | env e =>
    obtain ⟨s', hs', rfl⟩ := Option.map_eq_some_iff.mp hstep
    obtain ⟨t', ht', hnext⟩ := h.env hstate hs'
    refine ⟨{ b with state := t' }, ?_, hnext, hclock, hstage, htrace⟩
    simp only [AtomicState.step, ht', Option.map_some]

theorem Refines.runs (h : A.Refines B R) {a a' : AtomicState S τ κ ρ}
    {es : List (AtomicEvent χ κ α)} (hrun : runSteps (AtomicState.step A) a es = some a')
    {b : AtomicState T τ κ ρ} (hab : Related R a b) :
    ∃ ds b', runSteps (AtomicState.step B) b ds = some b' ∧ Related R a' b' := by
  refine runSteps_simulates (fun a e a' b hstep hab => ?_) hrun hab
  obtain ⟨b', hb', hnext⟩ := h.step hstep hab
  exact ⟨[e], b', runSteps_cons_eq_some.mpr ⟨b', hb', rfl⟩, hnext⟩

/-- The object in a world where calls only ever meet what `P` allows. -/
def within (P : χ → Prop) [DecidablePred P] (A : AtomicObject S τ χ κ ρ α) :
    AtomicObject S τ χ κ ρ α :=
  { A with fits := fun k x s => A.fits k x s && decide (P x) }

theorem Refines.within (P : χ → Prop) [DecidablePred P] (h : A.Refines B R) :
    (A.within P).Refines (B.within P) R where
  time := h.time
  fits hR hfits := by
    obtain ⟨hA, hx⟩ := Bool.and_eq_true_iff.mp hfits
    exact Bool.and_eq_true_iff.mpr ⟨h.fits hR hA, hx⟩
  run hR hle hfits := h.run hR hle (Bool.and_eq_true_iff.mp hfits).1
  env := h.env

end AtomicObject

namespace AtomicState

variable [LinearOrder τ] {A : AtomicObject S τ χ κ ρ α} {P : χ → Prop} [DecidablePred P]
  {b b' : AtomicState S τ κ ρ}

private theorem step_of_within {e : AtomicEvent χ κ α} (h : b.step (A.within P) e = some b') :
    b.step A e = some b' := by
  cases e with
  | point c x =>
    simp only [step] at h ⊢
    cases hc : b.stage c with
    | pending k =>
      simp only [hc] at h
      split_ifs at h with hguard
      cases h
      exact if_pos ⟨hguard.1, (Bool.and_eq_true_iff.mp hguard.2).1⟩
    | _ => simp [hc] at h
  | _ => exact h

theorem run_of_within {ds : List (AtomicEvent χ κ α)}
    (h : runSteps (step (A.within P)) b ds = some b') : runSteps (step A) b ds = some b' := by
  induction ds generalizing b with
  | nil => exact h
  | cons d ds ih =>
    obtain ⟨u, hu, hrest⟩ := runSteps_cons_eq_some.mp h
    exact runSteps_cons_eq_some.mpr ⟨u, step_of_within hu, ih hrest⟩

/-- What a step does to the state: nothing, a call, or a step of the object itself. -/
inductive Changes (A : AtomicObject S τ χ κ ρ α) (P : χ → Prop) (b b' : AtomicState S τ κ ρ) :
    Prop where
  | none (hs : b'.state = b.state) (hc : b'.clock = b.clock)
  | call (k : κ) (x : χ) (hle : b.clock ≤ A.time x) (hfits : A.fits k x b.state = true) (hx : P x)
      (hs : b'.state = (A.run k x b.state).2) (hc : b'.clock = A.time x)
  | env (a : α) (hs : A.env b.state a = some b'.state) (hc : b'.clock = b.clock)

theorem changes_of_step {e : AtomicEvent χ κ α} (hstep : b.step (A.within P) e = some b') :
    Changes A P b b' := by
  cases e with
  | call c k =>
    simp only [step] at hstep
    cases hc : b.stage c with
    | out =>
      simp only [hc] at hstep
      cases hstep
      exact .none rfl rfl
    | _ => simp [hc] at hstep
  | point c x =>
    simp only [step] at hstep
    cases hc : b.stage c with
    | pending k =>
      simp only [hc] at hstep
      split_ifs at hstep with hguard
      cases hstep
      obtain ⟨hfits, hx⟩ := Bool.and_eq_true_iff.mp hguard.2
      exact .call k x hguard.1 hfits (of_decide_eq_true hx) rfl rfl
    | _ => simp [hc] at hstep
  | answer c =>
    simp only [step] at hstep
    cases hc : b.stage c with
    | answered k r =>
      simp only [hc] at hstep
      cases hstep
      exact .none rfl rfl
    | _ => simp [hc] at hstep
  | env a =>
    obtain ⟨s', hs', rfl⟩ := Option.map_eq_some_iff.mp hstep
    exact .env a hs' rfl

theorem clock_run {ds : List (AtomicEvent χ κ α)}
    (h : runSteps (step (A.within P)) b ds = some b') : b.clock ≤ b'.clock := by
  refine runSteps_relates (I := fun _ => True) (r := fun b b' => b.clock ≤ b'.clock)
    (fun _ => le_rfl) (fun _ _ _ => le_trans) (fun _ _ _ _ _ => trivial)
    (fun b e b' hstep _ => ?_) h trivial
  cases changes_of_step hstep with
  | none _ hc => exact hc.ge
  | call _ _ hle _ _ _ hc => exact hle.trans hc.ge
  | env _ _ hc => exact hc.ge

end AtomicState

/-! ## Steps the callers do not see -/

def AtomicEvent.silent : AtomicEvent χ κ α → Bool
  | .call _ _ | .answer _ => false
  | .point _ _ | .env _ => true

namespace AtomicState

variable [LinearOrder τ] {A : AtomicObject S τ χ κ ρ α} {b b' : AtomicState S τ κ ρ}

/-- Exactly the calls and the answers are seen. -/
theorem length_trace_step {e : AtomicEvent χ κ α} (hstep : b.step A e = some b') :
    b'.trace.length = b.trace.length + if e.silent then 0 else 1 := by
  cases e with
  | call c k =>
    simp only [step] at hstep
    cases hc : b.stage c with
    | out =>
      simp only [hc] at hstep
      cases hstep
      exact List.length_append
    | _ => simp [hc] at hstep
  | point c x =>
    simp only [step] at hstep
    cases hc : b.stage c with
    | pending k =>
      simp only [hc] at hstep
      split_ifs at hstep
      cases hstep
      rfl
    | _ => simp [hc] at hstep
  | answer c =>
    simp only [step] at hstep
    cases hc : b.stage c with
    | answered k r =>
      simp only [hc] at hstep
      cases hstep
      exact List.length_append
    | _ => simp [hc] at hstep
  | env a =>
    obtain ⟨s', hs', rfl⟩ := Option.map_eq_some_iff.mp hstep
    rfl

/-- A run that leaves the trace as it was has no call and no answer in it. -/
theorem silent_of_trace {ds : List (AtomicEvent χ κ α)}
    (hrun : runSteps (step A) b ds = some b') (htrace : b'.trace.length ≤ b.trace.length) :
    ∀ d ∈ ds, d.silent = true := by
  have hgrows : ∀ {ds : List (AtomicEvent χ κ α)} {b b'}, runSteps (step A) b ds = some b' →
      b.trace.length ≤ b'.trace.length := by
    intro ds b b' hrun
    refine runSteps_relates (I := fun _ => True) (r := fun b b' => b.trace.length ≤ b'.trace.length)
      (fun _ => le_rfl) (fun _ _ _ => le_trans) (fun _ _ _ _ _ => trivial)
      (fun b e b' hstep _ => ?_) hrun trivial
    rw [length_trace_step hstep]
    exact Nat.le_add_right _ _
  induction ds generalizing b with
  | nil =>
    intro d hd
    cases hd
  | cons e ds ih =>
    obtain ⟨u, hu, hrest⟩ := runSteps_cons_eq_some.mp hrun
    have hlen := length_trace_step hu
    have hle := hgrows hrest
    cases he : e.silent with
    | true =>
      rw [he, if_pos rfl] at hlen
      exact List.forall_mem_cons.mpr ⟨he, ih hrest (by omega)⟩
    | false =>
      rw [he, if_neg (by decide)] at hlen
      omega

end AtomicState

/-! ## The calls that were performed -/

namespace AtomicState

/-- The call was performed with this answer, whether its caller has it yet or not. -/
def Performed (b : AtomicState S τ κ ρ) (c : ℕ) (k : κ) (r : ρ) : Prop :=
  .answer c k r ∈ b.trace ∨ b.stage c = .answered k r

variable [LinearOrder τ] {A : AtomicObject S τ χ κ ρ α} {b b' : AtomicState S τ κ ρ} {c : ℕ}
  {k : κ} {r : ρ}

/-- A call that has been performed was before, or is the one that this step performs. -/
theorem performed_step {e : AtomicEvent χ κ α} (hstep : b.step A e = some b')
    (h : b'.Performed c k r) :
    b.Performed c k r ∨ ∃ x, A.fits k x b.state = true ∧ (A.run k x b.state).1 = r ∧
      b'.state = (A.run k x b.state).2 := by
  have hother : ∀ {d : ℕ} {p : Stage κ ρ}, p ≠ .answered k r →
      Function.update b.stage d p c = .answered k r → b.stage c = .answered k r := by
    intro d p hp hc
    by_cases hd : c = d
    · subst hd
      rw [Function.update_self] at hc
      exact absurd hc hp
    · rwa [Function.update_of_ne hd] at hc
  cases e with
  | call d j =>
    simp only [step] at hstep
    cases hd : b.stage d with
    | out =>
      simp only [hd] at hstep
      cases hstep
      rcases h with h | h
      · exact .inl (.inl (by simpa using h))
      · exact .inl (.inr (hother (by simp) h))
    | _ => simp [hd] at hstep
  | point d x =>
    simp only [step] at hstep
    cases hd : b.stage d with
    | pending j =>
      simp only [hd] at hstep
      split_ifs at hstep with hguard
      cases hstep
      rcases h with h | h
      · exact .inl (.inl h)
      · by_cases hcd : c = d
        · subst hcd
          dsimp only at h
          rw [Function.update_self] at h
          cases h
          exact .inr ⟨x, hguard.2, rfl, rfl⟩
        · dsimp only at h
          rw [Function.update_of_ne hcd] at h
          exact .inl (.inr h)
    | _ => simp [hd] at hstep
  | answer d =>
    simp only [step] at hstep
    cases hd : b.stage d with
    | answered j q =>
      simp only [hd] at hstep
      cases hstep
      rcases h with h | h
      · rcases List.mem_append.mp h with h | h
        · exact .inl (.inl h)
        · cases List.mem_singleton.mp h
          exact .inl (.inr hd)
      · exact .inl (.inr (hother (by simp) h))
    | _ => simp [hd] at hstep
  | env a =>
    obtain ⟨s', hs', rfl⟩ := Option.map_eq_some_iff.mp hstep
    exact .inl h

end AtomicState

/-! ## Answers that rise -/

/-- What is read off an answer that the caller has. -/
def Visible.answered {β : Type*} (f : κ → ρ → Option β) : Visible κ ρ → Option β
  | call _ _ => none
  | answer _ k r => f k r

def Stage.answered? {β : Type*} (f : κ → ρ → Option β) : Stage κ ρ → Option β
  | answered k r => f k r
  | _ => none

/-- What is read off an answer lies above the level the call found and not above the one it left;
the level never falls while all calls are among those allowed. -/
structure AtomicObject.Rises {β : Type*} [LinearOrder β] (A : AtomicObject S τ χ κ ρ α)
    (inv : S → Prop) (level : S → β) (allowed : κ → Prop) (f : κ → ρ → Option β) : Prop where
  run : ∀ {s k x}, inv s → allowed k → A.fits k x s = true →
    inv (A.run k x s).2 ∧ level s ≤ level (A.run k x s).2 ∧
      ∀ a, f k (A.run k x s).1 = some a → level s < a ∧ a ≤ level (A.run k x s).2
  env : ∀ {s a s'}, inv s → A.env s a = some s' → inv s' ∧ level s ≤ level s'

namespace AtomicState

variable {β : Type*} [LinearOrder β] {A : AtomicObject S τ χ κ ρ α} {inv : S → Prop}
  {level : S → β} {allowed : κ → Prop} {f : κ → ρ → Option β}

/-- No two answers are the same, and none is above the level. -/
structure Rising (inv : S → Prop) (level : S → β) (f : κ → ρ → Option β)
    (b : AtomicState S τ κ ρ) : Prop where
  inv : inv b.state
  asked : ∀ c k, b.stage c = .pending k → .call c k ∈ b.trace
  told : ∀ a ∈ b.trace.filterMap (Visible.answered f), a ≤ level b.state
  nodup : (b.trace.filterMap (Visible.answered f)).Nodup
  due : ∀ c a, (b.stage c).answered? f = some a →
    a ≤ level b.state ∧ a ∉ b.trace.filterMap (Visible.answered f)
  apart : ∀ c d a, (b.stage c).answered? f = some a → (b.stage d).answered? f = some a → c = d

theorem rising_start {s : S} (hs : inv s) (clock : τ) :
    Rising inv level f (start s clock : AtomicState S τ κ ρ) where
  inv := hs
  asked _ _ h := by cases h
  told _ h := by cases h
  nodup := List.nodup_nil
  due _ _ h := by cases h
  apart _ _ _ h := by cases h

theorem update_cases {stage : ℕ → Stage κ ρ} {p : Stage κ ρ} {c d : ℕ} (Q : Stage κ ρ → Prop)
    (h : Q (Function.update stage c p d)) : d = c ∧ Q p ∨ d ≠ c ∧ Q (stage d) := by
  by_cases hd : d = c
  · subst hd
    rw [Function.update_self] at h
    exact .inl ⟨rfl, h⟩
  · rw [Function.update_of_ne hd] at h
    exact .inr ⟨hd, h⟩

theorem Rising.called {b : AtomicState S τ κ ρ} (h : Rising inv level f b) {c : ℕ} (k : κ) :
    Rising inv level f { b with
      stage := Function.update b.stage c (.pending k), trace := b.trace ++ [.call c k] } := by
  have htrace : (b.trace ++ [Visible.call c k]).filterMap (Visible.answered f) =
      b.trace.filterMap (Visible.answered f) := by simp [Visible.answered]
  have hold : ∀ {d a}, (Function.update b.stage c (.pending k) d).answered? f = some a →
      (b.stage d).answered? f = some a := fun hd => by
    rcases update_cases (·.answered? f = some _) hd with ⟨-, hp⟩ | ⟨-, hp⟩
    · cases hp
    · exact hp
  refine ⟨h.inv, fun d j hd => ?_, htrace ▸ h.told, htrace ▸ h.nodup, fun d a hd => ?_,
    fun d d' a hd hd' => h.apart d d' a (hold hd) (hold hd')⟩
  · rcases update_cases (· = .pending j) hd with ⟨rfl, hp⟩ | ⟨-, hp⟩
    · cases hp
      exact List.mem_append_right _ (List.mem_singleton.mpr rfl)
    · exact List.mem_append_left _ (h.asked d j hp)
  · rw [htrace]
    exact h.due d a (hold hd)

theorem Rising.performed {b : AtomicState S τ κ ρ} (h : Rising inv level f b) {c : ℕ} {k : κ}
    {s : S} {r : ρ} (clock : τ) (hs : inv s) (hle : level b.state ≤ level s)
    (hr : ∀ a, f k r = some a → level b.state < a ∧ a ≤ level s) :
    Rising inv level f { b with
      state := s, clock := clock, stage := Function.update b.stage c (.answered k r) } where
  inv := hs
  asked d j hd := by
    rcases update_cases (· = .pending j) hd with ⟨-, hp⟩ | ⟨-, hp⟩
    · cases hp
    · exact h.asked d j hp
  told a ha := (h.told a ha).trans hle
  nodup := h.nodup
  due d a hd := by
    rcases update_cases (·.answered? f = some _) hd with ⟨-, hp⟩ | ⟨-, hp⟩
    · obtain ⟨hlt, hle'⟩ := hr a hp
      exact ⟨hle', fun hmem => absurd (h.told a hmem) (not_le.mpr hlt)⟩
    · obtain ⟨hle', hnew⟩ := h.due d a hp
      exact ⟨hle'.trans hle, hnew⟩
  apart d d' a hd hd' := by
    rcases update_cases (·.answered? f = some _) hd with ⟨rfl, hp⟩ | ⟨-, hp⟩ <;>
      rcases update_cases (·.answered? f = some _) hd' with ⟨rfl, hp'⟩ | ⟨-, hp'⟩
    · rfl
    · exact absurd (h.due d' a hp').1 (not_le.mpr (hr a hp).1)
    · exact absurd (h.due d a hp).1 (not_le.mpr (hr a hp').1)
    · exact h.apart d d' a hp hp'

theorem Rising.returned {b : AtomicState S τ κ ρ} (h : Rising inv level f b) {c : ℕ} {k : κ}
    {r : ρ} (hc : b.stage c = .answered k r) :
    Rising inv level f { b with
      stage := Function.update b.stage c .out, trace := b.trace ++ [.answer c k r] } := by
  have htrace : (b.trace ++ [Visible.answer c k r]).filterMap (Visible.answered f) =
      b.trace.filterMap (Visible.answered f) ++ (f k r).toList := by
    rw [List.filterMap_append]
    cases hf : f k r <;> simp [Visible.answered, hf]
  have hlast : ∀ {a}, a ∈ (f k r).toList → (b.stage c).answered? f = some a := fun ha => by
    rw [hc]
    exact Option.mem_toList.mp ha
  have hold : ∀ {d a}, (Function.update b.stage c .out d).answered? f = some a →
      d ≠ c ∧ (b.stage d).answered? f = some a := fun hd => by
    rcases update_cases (·.answered? f = some _) hd with ⟨-, hp⟩ | hp
    · cases hp
    · exact hp
  refine ⟨h.inv, fun d j hd => ?_, fun a ha => ?_, ?_, fun d a hd => ?_, fun d d' a hd hd' =>
    h.apart d d' a (hold hd).2 (hold hd').2⟩
  · rcases update_cases (· = .pending j) hd with ⟨-, hp⟩ | ⟨-, hp⟩
    · cases hp
    · exact List.mem_append_left _ (h.asked d j hp)
  · rw [htrace, List.mem_append] at ha
    rcases ha with ha | ha
    · exact h.told a ha
    · exact (h.due c a (hlast ha)).1
  · rw [htrace]
    refine List.nodup_append.mpr ⟨h.nodup, ?_, fun a ha a' ha' heq => ?_⟩
    · cases f k r <;> simp
    · exact (h.due c a' (hlast ha')).2 (heq ▸ ha)
  · obtain ⟨hne, hp⟩ := hold hd
    refine ⟨(h.due d a hp).1, ?_⟩
    rw [htrace, List.mem_append, not_or]
    exact ⟨(h.due d a hp).2, fun hmem => hne (h.apart d c a hp (hlast hmem))⟩

variable [LinearOrder τ]

theorem Rising.step (hA : A.Rises inv level allowed f) {b b' : AtomicState S τ κ ρ}
    {e : AtomicEvent χ κ α} (hstep : b.step A e = some b')
    (h : (∀ c k, .call c k ∈ b.trace → allowed k) → Rising inv level f b)
    (hcalls : ∀ c k, .call c k ∈ b'.trace → allowed k) : Rising inv level f b' := by
  cases e with
  | call c k =>
    simp only [AtomicState.step] at hstep
    cases hc : b.stage c with
    | out =>
      simp only [hc] at hstep
      cases hstep
      exact (h fun d j hd => hcalls d j (List.mem_append_left _ hd)).called k
    | _ => simp [hc] at hstep
  | point c x =>
    simp only [AtomicState.step] at hstep
    cases hc : b.stage c with
    | pending k =>
      simp only [hc] at hstep
      split_ifs at hstep with hguard
      cases hstep
      have hb := h hcalls
      obtain ⟨hinv, hle, hr⟩ := hA.run hb.inv (hcalls c k (hb.asked c k hc)) hguard.2
      exact hb.performed _ hinv hle hr
    | _ => simp [hc] at hstep
  | answer c =>
    simp only [AtomicState.step] at hstep
    cases hc : b.stage c with
    | answered k r =>
      simp only [hc] at hstep
      cases hstep
      exact (h fun d j hd => hcalls d j (List.mem_append_left _ hd)).returned hc
    | _ => simp [hc] at hstep
  | env e =>
    obtain ⟨s', hs', rfl⟩ := Option.map_eq_some_iff.mp hstep
    have hb := h hcalls
    obtain ⟨hinv, hle⟩ := hA.env hb.inv hs'
    exact ⟨hinv, hb.asked, fun a ha => (hb.told a ha).trans hle, hb.nodup,
      fun c a ha => ⟨(hb.due c a ha).1.trans hle, (hb.due c a ha).2⟩, hb.apart⟩

/-- The answers of a run are distinct. -/
theorem nodup_answers (hA : A.Rises inv level allowed f) {s : S} (hs : inv s) {clock : τ}
    {es : List (AtomicEvent χ κ α)} {b : AtomicState S τ κ ρ}
    (hrun : runSteps (step A) (start s clock) es = some b)
    (hcalls : ∀ c k, .call c k ∈ b.trace → allowed k) :
    (b.trace.filterMap (Visible.answered f)).Nodup :=
  (runSteps_invariant (fun _ _ _ hstep h => Rising.step hA hstep h) hrun
    (fun _ => rising_start hs clock) hcalls).nodup

end AtomicState

end GoLib
