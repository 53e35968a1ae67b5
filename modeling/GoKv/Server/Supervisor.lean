import GoKv.Lib.Schedule
import Mathlib.Logic.Function.Basic

/-! The supervisor: any goroutine may report a fatal condition, and the first report is the one
that everybody sees. Fatal runs its body once, under a sync.Once. The goroutines that come
meanwhile wait until the body has returned. -/
namespace GoKv
open GoLib

/-- What Run returns: the fatal condition, or that the connections did not drain in time. -/
inductive RunErr (ε : Type*) where
  | fatal (cause : ε)
  | timeout
  deriving DecidableEq

/-- Where a goroutine is in Fatal: at the sync.Once, in its body before the cause is set, before
the channel is closed and after that, and back from the call. -/
inductive FatalPc (ε : Type*) where
  | away
  | calling (err : ε)
  | chosen (err : ε)
  | recorded (err : ε)
  | closed (err : ε)
  | back (err : ε)
  deriving DecidableEq

namespace FatalPc

variable {ε : Type*}

def inside : FatalPc ε → Bool
  | .chosen _ | .recorded _ | .closed _ => true
  | _ => false

def err? : FatalPc ε → Option ε
  | .away => none
  | .calling err | .chosen err | .recorded err | .closed err | .back err => some err

end FatalPc

/-- A sync.Once: its function has not begun, one goroutine runs it, or it has returned. -/
inductive OnceState (ι : Type*) where
  | fresh
  | running (g : ι)
  | ran
  deriving DecidableEq

/-- `done` says whether the channel is closed; closing it again panics, which is `crashed`.
`calls` lists what Fatal was called with. -/
structure Supervisor (ι ε : Type*) where
  once : OnceState ι
  done : Bool
  cause : Option ε
  pcs : ι → FatalPc ε
  crashed : Bool
  calls : List ε

inductive FatalEvent (ε : Type*) where
  | call (err : ε)
  | first
  | skip
  | record
  | close
  | leave
  | forget

def FatalEvent.inner {ε : Type*} : FatalEvent ε → Bool
  | .call _ | .forget => false
  | _ => true

namespace Supervisor

variable {ι ε : Type*}

def new : Supervisor ι ε where
  once := .fresh
  done := false
  cause := none
  pcs _ := .away
  crashed := false
  calls := []

def fired (s : Supervisor ι ε) : Bool := s.done

variable {s t : Supervisor ι ε} {g : ι} {e : FatalEvent ε}

section Steps

variable [DecidableEq ι]

def setPc (s : Supervisor ι ε) (g : ι) (pc : FatalPc ε) : Supervisor ι ε :=
  { s with pcs := Function.update s.pcs g pc }

def step (s : Supervisor ι ε) (g : ι) : FatalEvent ε → Option (Supervisor ι ε)
  | .call err =>
    match s.pcs g with
    | .away => some { s.setPc g (.calling err) with calls := s.calls ++ [err] }
    | _ => none
  | .first =>
    match s.pcs g, s.once with
    | .calling err, .fresh => some { s.setPc g (.chosen err) with once := .running g }
    | _, _ => none
  -- A later caller returns once the function has.
  | .skip =>
    match s.pcs g, s.once with
    | .calling err, .ran => some (s.setPc g (.back err))
    | _, _ => none
  | .record =>
    match s.pcs g with
    | .chosen err => some { s.setPc g (.recorded err) with cause := some err }
    | _ => none
  | .close =>
    match s.pcs g with
    | .recorded err =>
      some { s.setPc g (.closed err) with done := true, crashed := s.crashed || s.done }
    | _ => none
  | .leave =>
    match s.pcs g with
    | .closed err => some { s.setPc g (.back err) with once := .ran }
    | _ => none
  | .forget =>
    match s.pcs g with
    | .back _ => some (s.setPc g .away)
    | _ => none

inductive Moves (s : Supervisor ι ε) (g : ι) : FatalEvent ε → Supervisor ι ε → Prop where
  | call (err : ε) (hp : s.pcs g = .away) :
      Moves s g (.call err) { s.setPc g (.calling err) with calls := s.calls ++ [err] }
  | first (err : ε) (hp : s.pcs g = .calling err) (ho : s.once = .fresh) :
      Moves s g .first { s.setPc g (.chosen err) with once := .running g }
  | skip (err : ε) (hp : s.pcs g = .calling err) (ho : s.once = .ran) :
      Moves s g .skip (s.setPc g (.back err))
  | record (err : ε) (hp : s.pcs g = .chosen err) :
      Moves s g .record { s.setPc g (.recorded err) with cause := some err }
  | close (err : ε) (hp : s.pcs g = .recorded err) :
      Moves s g .close
        { s.setPc g (.closed err) with done := true, crashed := s.crashed || s.done }
  | leave (err : ε) (hp : s.pcs g = .closed err) :
      Moves s g .leave { s.setPc g (.back err) with once := .ran }
  | forget (err : ε) (hp : s.pcs g = .back err) : Moves s g .forget (s.setPc g .away)

theorem step_moves (h : s.step g e = some t) :
    Moves s g e t := by
  cases e with
  | call err =>
    simp only [step] at h
    cases hp : s.pcs g with
    | away => simp only [hp] at h; cases h; exact .call err hp
    | _ => simp [hp] at h
  | first =>
    simp only [step] at h
    cases hp : s.pcs g with
    | calling err =>
      cases ho : s.once with
      | fresh => simp only [hp, ho] at h; cases h; exact .first err hp ho
      | _ => simp [hp, ho] at h
    | _ => simp [hp] at h
  | skip =>
    simp only [step] at h
    cases hp : s.pcs g with
    | calling err =>
      cases ho : s.once with
      | ran => simp only [hp, ho] at h; cases h; exact .skip err hp ho
      | _ => simp [hp, ho] at h
    | _ => simp [hp] at h
  | record =>
    simp only [step] at h
    cases hp : s.pcs g with
    | chosen err => simp only [hp] at h; cases h; exact .record err hp
    | _ => simp [hp] at h
  | close =>
    simp only [step] at h
    cases hp : s.pcs g with
    | recorded err => simp only [hp] at h; cases h; exact .close err hp
    | _ => simp [hp] at h
  | leave =>
    simp only [step] at h
    cases hp : s.pcs g with
    | closed err => simp only [hp] at h; cases h; exact .leave err hp
    | _ => simp [hp] at h
  | forget =>
    simp only [step] at h
    cases hp : s.pcs g with
    | back err => simp only [hp] at h; cases h; exact .forget err hp
    | _ => simp [hp] at h

end Steps

/-! ## What is true of every supervisor -/

/-- How far the one report that counts has come. -/
def Shows (s : Supervisor ι ε) : Prop :=
  match s.once with
  | .fresh => s.done = false ∧ s.cause = none
  | .running g =>
    match s.pcs g with
    | .chosen _ => s.done = false ∧ s.cause = none
    | .recorded err => s.done = false ∧ s.cause = some err
    | .closed err => s.done = true ∧ s.cause = some err
    | _ => False
  | .ran => s.done = true ∧ ∃ err, s.cause = some err

/-- Only the goroutine the sync.Once let in is in its function, a call returns after it, the
channel is closed at most once, and what is told was reported. -/
structure Sound (s : Supervisor ι ε) : Prop where
  inside : ∀ g, (s.pcs g).inside = true → s.once = .running g
  shows : s.Shows
  back : ∀ g err, s.pcs g = .back err → s.once = .ran
  sane : s.crashed = false
  heard : ∀ g err, (s.pcs g).err? = some err → err ∈ s.calls
  told : ∀ err, s.cause = some err → err ∈ s.calls

theorem sound_new : Sound (new : Supervisor ι ε) where
  inside g h := by simp [new, FatalPc.inside] at h
  shows := ⟨rfl, rfl⟩
  back g err h := by simp [new] at h
  sane := rfl
  heard g err h := by simp [new, FatalPc.err?] at h
  told err h := by simp [new] at h

theorem Sound.inside_of_running (h : s.Sound) (ho : s.once = .running g) :
    (s.pcs g).inside = true := by
  have hs := h.shows
  simp only [Shows, ho] at hs
  cases hp : s.pcs g with
  | chosen err => rfl
  | recorded err => rfl
  | closed err => rfl
  | _ => simp [hp] at hs

/-- Until the function has returned, at most one goroutine is inside and nobody is back. -/
theorem Sound.others (h : s.Sound) (ho : s.once = .fresh ∨ s.once = .running g) {j : ι}
    (hj : j ≠ g) : (s.pcs j).inside = false ∧ ∀ err, s.pcs j ≠ .back err := by
  constructor
  · by_contra hin
    rw [Bool.not_eq_false] at hin
    rcases ho with ho | ho <;> rw [h.inside j hin] at ho <;> cases ho
    exact hj rfl
  · intro err hb
    rcases ho with ho | ho <;> rw [h.back j err hb] at ho <;> cases ho

/-- Whoever sees the channel closed finds the cause. -/
theorem Sound.cause_of_done (h : s.Sound) (hd : s.done = true) : ∃ err, s.cause = some err := by
  have hs := h.shows
  unfold Shows at hs
  split at hs
  · rw [hs.1] at hd
    cases hd
  · split at hs
    · rw [hs.1] at hd
      cases hd
    · exact ⟨_, hs.2⟩
    · exact ⟨_, hs.2⟩
    · exact hs.elim
  · exact hs.2

/-- Whoever comes back from Fatal, first or not, leaves the channel closed. -/
theorem Sound.done_of_back (h : s.Sound) {err : ε} (hb : s.pcs g = .back err) : s.done = true := by
  have hs := h.shows
  simp only [Shows, h.back g err hb] at hs
  exact hs.1

section Sound

variable [DecidableEq ι]

theorem forall_setPc {pc : FatalPc ε} {P : ι → FatalPc ε → Prop} (hg : P g pc)
    (h : ∀ j, j ≠ g → P j (s.pcs j)) (j : ι) : P j ((s.setPc g pc).pcs j) :=
  (Function.forall_update_iff s.pcs P).mpr ⟨hg, h⟩ j

/-- A goroutine outside the function changes nothing for the one inside. -/
theorem Sound.shows_setPc (h : s.Sound) (hp : (s.pcs g).inside = false) (pc : FatalPc ε) :
    (s.setPc g pc).Shows := by
  have hs := h.shows
  unfold Shows at hs ⊢
  cases ho : s.once with
  | fresh => simpa [setPc, ho] using hs
  | ran => simpa [setPc, ho] using hs
  | running j =>
    have hj : j ≠ g := by
      rintro rfl
      rw [h.inside_of_running ho] at hp
      cases hp
    simpa [setPc, ho, Function.update_of_ne hj] using hs

theorem Sound.setPc (h : s.Sound) (hp : (s.pcs g).inside = false) {pc : FatalPc ε}
    (hout : pc.inside = false) (hback : ∀ err, pc = .back err → s.once = .ran)
    (hheard : ∀ err, pc.err? = some err → err ∈ s.calls) : (s.setPc g pc).Sound where
  inside := forall_setPc (P := fun j pc => pc.inside = true → s.once = .running j)
    (fun hin => absurd hin (by simp [hout])) fun j _ => h.inside j
  shows := h.shows_setPc hp pc
  back j err := forall_setPc (P := fun _ pc => pc = .back err → s.once = .ran) (hback err)
    (fun j _ => h.back j err) j
  sane := h.sane
  heard j err := forall_setPc (P := fun _ pc => pc.err? = some err → err ∈ s.calls) (hheard err)
    (fun j _ => h.heard j err) j
  told := h.told

theorem Sound.setPc_inside (h : s.Sound) (ho : s.once = .fresh ∨ s.once = .running g)
    (pc : FatalPc ε) (hin : pc.inside = true) (herr : pc.err? = (s.pcs g).err?)
    {u : Supervisor ι ε} (hpcs : u.pcs = (s.setPc g pc).pcs) (honce : u.once = .running g)
    (hcalls : u.calls = s.calls) (hcrashed : u.crashed = false) (hshows : u.Shows)
    (hcause : ∀ err, u.cause = some err → s.cause = some err ∨ pc.err? = some err) :
    u.Sound where
  inside := by
    rw [hpcs, honce]
    exact forall_setPc (P := fun j pc => pc.inside = true → OnceState.running g = .running j)
      (fun _ => rfl) fun j hj hjin => by simp [(h.others ho hj).1] at hjin
  shows := hshows
  back j err hb := by
    rw [hpcs] at hb
    refine forall_setPc (P := fun _ pc => pc = .back err → u.once = .ran) ?_
      (fun j hj hjb => absurd hjb ((h.others ho hj).2 err)) j hb
    rintro rfl
    cases hin
  sane := hcrashed
  heard := by
    rw [hpcs, hcalls]
    exact fun j err => forall_setPc (P := fun _ pc => pc.err? = some err → err ∈ s.calls)
      (fun hx => h.heard g err (herr ▸ hx)) (fun j _ => h.heard j err) j
  told err hc := by
    rw [hcalls]
    rcases hcause err hc with hc | hc
    · exact h.told err hc
    · exact h.heard g err (herr ▸ hc)

theorem sound_step (h : s.Sound) (hm : Moves s g e t) : t.Sound := by
  cases hm with
  | call err hp =>
    have hgrow : ∀ {x}, x ∈ s.calls → x ∈ s.calls ++ [err] := List.mem_append_left _
    have hs : ({ s with calls := s.calls ++ [err] } : Supervisor ι ε).Sound :=
      { h with
        heard := fun j x hx => hgrow (h.heard j x hx)
        told := fun x hx => hgrow (h.told x hx) }
    refine hs.setPc (by simp [hp, FatalPc.inside]) rfl nofun fun x hx => ?_
    cases hx
    exact List.mem_append_right _ (List.mem_singleton_self _)
  | first err hp ho =>
    have hs := h.shows
    simp only [Shows, ho] at hs
    refine h.setPc_inside (Or.inl ho) (.chosen err) rfl (by rw [hp]; rfl) rfl rfl rfl h.sane
      ?_ fun _ => Or.inl
    simpa [Shows, Supervisor.setPc] using hs
  | skip err hp ho =>
    exact h.setPc (by simp [hp, FatalPc.inside]) rfl (fun _ _ => ho) fun x hx =>
      h.heard g x (by rw [hp]; exact hx)
  | record err hp =>
    have ho := h.inside g (by simp [hp, FatalPc.inside])
    have hs := h.shows
    simp only [Shows, ho, hp] at hs
    refine h.setPc_inside (Or.inr ho) (.recorded err) rfl (by rw [hp]; rfl) rfl ho rfl h.sane
      ?_ fun _ => Or.inr
    simp [Shows, Supervisor.setPc, ho, hs.1]
  | close err hp =>
    have ho := h.inside g (by simp [hp, FatalPc.inside])
    have hs := h.shows
    simp only [Shows, ho, hp] at hs
    refine h.setPc_inside (Or.inr ho) (.closed err) rfl (by rw [hp]; rfl) rfl ho rfl ?_
      ?_ fun _ => Or.inl
    · simp [h.sane, hs.1]
    · simp [Shows, Supervisor.setPc, ho, hs.2]
  | leave err hp =>
    have ho := h.inside g (by simp [hp, FatalPc.inside])
    have hs := h.shows
    simp only [Shows, ho, hp] at hs
    exact
      { inside := forall_setPc (P := fun j pc => pc.inside = true → OnceState.ran = .running j)
          nofun fun j hj hjin => by simp [(h.others (Or.inr ho) hj).1] at hjin
        shows := ⟨hs.1, err, hs.2⟩
        back := fun _ _ _ => rfl
        sane := h.sane
        heard := fun j x => forall_setPc (P := fun _ pc => pc.err? = some x → x ∈ s.calls)
          (fun hx => h.heard g x (by rw [hp]; exact hx)) (fun j _ => h.heard j x) j
        told := h.told }
  | forget err hp => exact h.setPc (by simp [hp, FatalPc.inside]) rfl nofun nofun

theorem cause_step (h : s.Sound) (hm : Moves s g e t) {err : ε} (hc : s.cause = some err) :
    t.cause = some err := by
  cases hm with
  | record x hp =>
    have ho := h.inside g (by simp [hp, FatalPc.inside])
    have hs := h.shows
    simp only [Shows, ho, hp] at hs
    rw [hs.2] at hc
    cases hc
  | _ => exact hc

theorem done_step (hm : Moves s g e t) (hd : s.done = true) : t.done = true := by
  cases hm with
  | close err hp => rfl
  | _ => exact hd

/-! ## Fatal returns -/

def advance (s : Supervisor ι ε) (x : ι × FatalEvent ε) : Option (Supervisor ι ε) := s.step x.1 x.2

theorem pcs_step (hm : Moves s g e t) {j : ι} (hj : j ≠ g) : t.pcs j = s.pcs j := by
  cases hm <;> exact Function.update_of_ne hj _ _

theorem pcs_inner (hm : Moves s g e t) (he : e.inner = true) : t.pcs g ≠ .away := by
  cases hm with
  | call err hp => cases he
  | forget err hp => cases he
  | _ => simp [setPc]

/-- Goroutine `g` can come back from the call it is in, by steps inside Fatal only. -/
def Returns (s : Supervisor ι ε) (g : ι) : Prop :=
  ∃ es t err, runSteps advance s es = some t ∧ (∀ x ∈ es, x.2.inner = true) ∧
    t.pcs g = .back err

theorem Returns.cons {u : Supervisor ι ε} {j : ι} (hstep : s.step j e = some u)
    (he : e.inner = true) (h : u.Returns g) : s.Returns g := by
  obtain ⟨es, t, err, hrun, hes, hb⟩ := h
  exact ⟨(j, e) :: es, t, err, runSteps_cons_eq_some.mpr ⟨u, hstep, hrun⟩,
    List.forall_mem_cons.mpr ⟨he, hes⟩, hb⟩

theorem returns_of_back {err : ε} (hp : s.pcs g = .back err) : s.Returns g :=
  ⟨[], s, err, rfl, nofun, hp⟩

theorem returns_of_ran {err : ε} (ho : s.once = .ran) (hp : s.pcs g = .calling err) :
    s.Returns g := by
  have hstep : s.step g .skip = some (s.setPc g (.back err)) := by simp only [step, hp, ho]
  exact .cons hstep rfl (returns_of_back (Function.update_self _ _ _))

/-- Goroutine `g` is the one inside the function, or waits for it. -/
def Behind (s : Supervisor ι ε) (j g : ι) : Prop := g = j ∨ ∃ err, s.pcs g = .calling err

theorem Behind.step {j : ι} (h : s.Behind j g) (hstep : s.step j e = some t) :
    t.Behind j g := by
  rcases h with h | ⟨err, hp⟩
  · exact .inl h
  · by_cases hne : g = j
    · exact .inl hne
    · exact .inr ⟨err, (pcs_step (step_moves hstep) hne).trans hp⟩

theorem returns_of_closed {j : ι} {err : ε} (hj : s.pcs j = .closed err) (hg : s.Behind j g) :
    s.Returns g := by
  have hstep : s.step j .leave = some { s.setPc j (.back err) with once := .ran } := by
    simp only [step, hj]
  refine .cons hstep rfl ?_
  rcases hg.step hstep with rfl | ⟨x, hx⟩
  · exact returns_of_back (Function.update_self _ _ _)
  · exact returns_of_ran rfl hx

theorem returns_of_recorded {j : ι} {err : ε} (hj : s.pcs j = .recorded err)
    (hg : s.Behind j g) : s.Returns g := by
  have hstep : s.step j .close =
      some { s.setPc j (.closed err) with done := true, crashed := s.crashed || s.done } := by
    simp only [step, hj]
  exact .cons hstep rfl (returns_of_closed (Function.update_self _ _ _) (hg.step hstep))

theorem returns_of_chosen {j : ι} {err : ε} (hj : s.pcs j = .chosen err) (hg : s.Behind j g) :
    s.Returns g := by
  have hstep : s.step j .record =
      some { s.setPc j (.recorded err) with cause := some err } := by
    simp only [step, hj]
  exact .cons hstep rfl (returns_of_recorded (Function.update_self _ _ _) (hg.step hstep))

/-- The goroutine inside the function gets out, and takes the waiting ones with it. -/
theorem returns_of_inside {j : ι} (hj : (s.pcs j).inside = true) (hg : s.Behind j g) :
    s.Returns g := by
  cases hp : s.pcs j with
  | chosen err => exact returns_of_chosen hp hg
  | recorded err => exact returns_of_recorded hp hg
  | closed err => exact returns_of_closed hp hg
  | _ => simp [hp, FatalPc.inside] at hj

/-- No call of Fatal gets stuck. -/
theorem Sound.returns (h : s.Sound) (hp : s.pcs g ≠ .away) : s.Returns g := by
  cases hpc : s.pcs g with
  | away => exact absurd hpc hp
  | back err => exact returns_of_back hpc
  | calling err =>
    cases ho : s.once with
    | ran => exact returns_of_ran ho hpc
    | running j => exact returns_of_inside (h.inside_of_running ho) (.inr ⟨err, hpc⟩)
    | fresh =>
      have hstep : s.step g .first =
          some { s.setPc g (.chosen err) with once := .running g } := by
        simp only [step, hpc, ho]
      exact .cons hstep rfl (returns_of_chosen (Function.update_self _ _ _) (.inl rfl))
  | _ => exact returns_of_inside (by simp [hpc, FatalPc.inside]) (.inl rfl)

end Sound

end Supervisor

end GoKv
