import GoKv.Lib.Schedule
import Mathlib.Logic.Function.Basic
import Mathlib.Order.Lattice

/-! The expiration worker's life. StartExpiration starts a worker unless there is one; a call of
StopExpiration takes the worker over, closes its stop channel and waits for it, for a time. Calls
and workers interleave; what happens under expMu is one step. -/
namespace GoKv
open GoLib

/-- Where a worker is: in its select, in reclaimOnce, or gone with its done channel closed. -/
inductive WorkerPc where
  | absent
  | selecting
  | sweeping
  | exited
  deriving DecidableEq

/-- Where a call of StopExpiration is: it has taken a worker over, it waits for one it told to
stop, or it has returned, nil or the context's error, with the worker it took over, if any. -/
inductive StopPc where
  | idle
  | took (w : ℕ)
  | waiting (w : ℕ)
  | returned (ok : Bool) (w : Option ℕ)

/-- `slot` is the worker whose channels the engine holds, and `stop` says which stop channels are
closed. Closing one twice panics, which is `crashed`. -/
structure Expiration where
  started : ℕ
  pc : ℕ → WorkerPc
  stop : ℕ → Bool
  slot : Option ℕ
  calls : ℕ → StopPc
  crashed : Bool

inductive ExpirationEvent where
  | start
  | take (c : ℕ)
  | close (c : ℕ)
  | seen (c : ℕ)
  | elapsed (c : ℕ)
  | tick (w : ℕ)
  | swept (w : ℕ)
  | exit (w : ℕ)

namespace Expiration

def new : Expiration where
  started := 0
  pc _ := .absent
  stop _ := false
  slot := none
  calls _ := .idle
  crashed := false

def setCall (s : Expiration) (c : ℕ) (p : StopPc) : Expiration :=
  { s with calls := Function.update s.calls c p }

def setWorker (s : Expiration) (w : ℕ) (p : WorkerPc) : Expiration :=
  { s with pc := Function.update s.pc w p }

def step (s : Expiration) : ExpirationEvent → Option Expiration
  | .start =>
    match s.slot with
    | some _ => some s
    | none => some { s.setWorker s.started .selecting with
        started := s.started + 1, slot := some s.started }
  | .take c =>
    match s.calls c, s.slot with
    | .idle, none => some (s.setCall c (.returned true none))
    | .idle, some w => some { s.setCall c (.took w) with slot := none }
    | _, _ => none
  | .close c =>
    match s.calls c with
    | .took w => some { s.setCall c (.waiting w) with
        stop := Function.update s.stop w true, crashed := s.crashed || s.stop w }
    | _ => none
  | .seen c =>
    match s.calls c with
    | .waiting w => if s.pc w = .exited then some (s.setCall c (.returned true (some w))) else none
    | _ => none
  | .elapsed c =>
    match s.calls c with
    | .waiting w => some (s.setCall c (.returned false (some w)))
    | _ => none
  -- With both channels ready the select may still choose the tick.
  | .tick w => if s.pc w = .selecting then some (s.setWorker w .sweeping) else none
  | .swept w => if s.pc w = .sweeping then some (s.setWorker w .selecting) else none
  | .exit w =>
    if s.pc w = .selecting ∧ s.stop w = true then some (s.setWorker w .exited) else none

/-! ## What each step can do -/

inductive Moves (s : Expiration) : Expiration → Prop where
  | start (hs : s.slot = none) : Moves s { s.setWorker s.started .selecting with
      started := s.started + 1, slot := some s.started }
  | idle : Moves s s
  | none (c : ℕ) (hc : s.calls c = .idle) (hs : s.slot = none) :
      Moves s (s.setCall c (.returned true none))
  | take (c w : ℕ) (hc : s.calls c = .idle) (hs : s.slot = some w) :
      Moves s { s.setCall c (.took w) with slot := none }
  | close (c w : ℕ) (hc : s.calls c = .took w) : Moves s { s.setCall c (.waiting w) with
      stop := Function.update s.stop w true, crashed := s.crashed || s.stop w }
  | done (c w : ℕ) (ok : Bool) (hc : s.calls c = .waiting w)
      (hok : ok = true → s.pc w = .exited) : Moves s (s.setCall c (.returned ok (some w)))
  | work (w : ℕ) (p : WorkerPc) (hw : s.pc w = .selecting ∨ s.pc w = .sweeping) (hp : p ≠ .absent)
      (hexit : p = .exited → s.stop w = true) : Moves s (s.setWorker w p)

variable {s t : Expiration}

theorem step_moves {e : ExpirationEvent} (h : s.step e = some t) : s.Moves t := by
  cases e with
  | start =>
    simp only [step] at h
    cases hs : s.slot with
    | none =>
      rw [hs] at h
      cases h
      exact .start hs
    | some w =>
      rw [hs] at h
      cases h
      exact .idle
  | take c =>
    simp only [step] at h
    split at h
    · rename_i hc hs
      cases h
      exact .none c hc hs
    · rename_i w hc hs
      cases h
      exact .take c w hc hs
    · cases h
  | close c =>
    simp only [step] at h
    split at h
    · rename_i w hc
      cases h
      exact .close c w hc
    · cases h
  | seen c =>
    simp only [step] at h
    split at h
    · rename_i w hc
      split_ifs at h with hw
      cases h
      exact .done c w true hc fun _ => hw
    · cases h
  | elapsed c =>
    simp only [step] at h
    split at h
    · rename_i w hc
      cases h
      exact .done c w false hc (by simp)
    · cases h
  | tick w =>
    simp only [step] at h
    split_ifs at h with hw
    cases h
    exact .work w .sweeping (.inl hw) (by simp) (by simp)
  | swept w =>
    simp only [step] at h
    split_ifs at h with hw
    cases h
    exact .work w .selecting (.inr hw) (by simp) (by simp)
  | exit w =>
    simp only [step] at h
    split_ifs at h with hw
    cases h
    exact .work w .exited (.inl hw.1) (by simp) fun _ => hw.2

/-! ## The invariant -/

/-- Every worker that was not told to stop has one owner: the engine, or the one call that took it
over and is about to tell it. -/
structure Sound (s : Expiration) : Prop where
  absent : ∀ w, s.started ≤ w → s.pc w = .absent ∧ s.stop w = false
  present : ∀ w, w < s.started → s.pc w ≠ .absent
  slot : ∀ w, s.slot = some w → w < s.started ∧ s.stop w = false ∧ ∀ c, s.calls c ≠ .took w
  took : ∀ c w, s.calls c = .took w →
    w < s.started ∧ s.stop w = false ∧ ∀ d, s.calls d = .took w → d = c
  owned : ∀ w, w < s.started → s.stop w = false → s.slot = some w ∨ ∃ c, s.calls c = .took w
  told : ∀ w, s.stop w = true →
    ∃ c, s.calls c = .waiting w ∨ ∃ ok, s.calls c = .returned ok (some w)
  exited : ∀ w, s.pc w = .exited → s.stop w = true
  waiting : ∀ c w, s.calls c = .waiting w → s.stop w = true
  ended : ∀ c w, s.calls c = .returned true (some w) → s.pc w = .exited
  sane : s.crashed = false

theorem sound_new : new.Sound := by
  constructor <;> simp [new]

theorem calls_of_ne {c d : ℕ} {p q : StopPc} (hc : s.calls c = p) (hd : s.calls d = q)
    (hne : q ≠ p) (r : StopPc) : (s.setCall c r).calls d = q := by
  have hdc : d ≠ c := by
    rintro rfl
    exact hne (hd.symm.trans hc)
  exact (Function.update_of_ne hdc _ _).trans hd

theorem Sound.work (h : s.Sound) {w : ℕ} {p : WorkerPc}
    (hw : s.pc w = .selecting ∨ s.pc w = .sweeping) (hp : p ≠ .absent)
    (hexit : p = .exited → s.stop w = true) : (s.setWorker w p).Sound :=
  { h with
    absent := fun v hv => by
      have hne : v ≠ w := by
        rintro rfl
        simp [(h.absent v hv).1] at hw
      exact ⟨(Function.update_of_ne hne _ _).trans (h.absent v hv).1, (h.absent v hv).2⟩
    present := (Function.forall_update_iff s.pc fun v q => v < s.started → q ≠ .absent).mpr
      ⟨fun _ => hp, fun v _ => h.present v⟩
    exited := (Function.forall_update_iff s.pc fun v q => q = .exited → s.stop v = true).mpr
      ⟨hexit, fun v _ => h.exited v⟩
    ended := fun c v hc => by
      have hv := h.ended c v hc
      have hne : v ≠ w := by
        rintro rfl
        simp [hv] at hw
      exact (Function.update_of_ne hne _ _).trans hv }

theorem Sound.start (h : s.Sound) (hs : s.slot = none) :
    Sound { s.setWorker s.started .selecting with
      started := s.started + 1, slot := some s.started } where
  absent w hw := by
    have hold := h.absent w (Nat.le_of_succ_le hw)
    exact ⟨(Function.update_of_ne (Nat.ne_of_gt hw) _ _).trans hold.1, hold.2⟩
  present := (Function.forall_update_iff s.pc fun v q => v < s.started + 1 → q ≠ .absent).mpr
    ⟨by simp, fun v hv hlt => h.present v (by omega)⟩
  slot w hw := by
    cases hw
    refine ⟨Nat.lt_succ_self _, (h.absent _ le_rfl).2, fun c hc => ?_⟩
    exact absurd (h.took c _ hc).1 (lt_irrefl _)
  took c w hc := (h.took c w hc).imp_left Nat.lt_succ_of_lt
  owned w hw hstop := by
    rcases Nat.lt_succ_iff_lt_or_eq.mp hw with hlt | rfl
    · refine .inr ((h.owned w hlt hstop).resolve_left ?_)
      simp [hs]
    · exact .inl rfl
  told := h.told
  exited := (Function.forall_update_iff s.pc fun v q => q = .exited → s.stop v = true).mpr
    ⟨by simp, fun v _ => h.exited v⟩
  waiting := h.waiting
  ended c w hc := by
    have hw := h.ended c w hc
    have hne : w ≠ s.started := by
      rintro rfl
      simp [(h.absent _ le_rfl).1] at hw
    exact (Function.update_of_ne hne _ _).trans hw
  sane := h.sane

/-- A call that has nothing to do with a worker that was not told to stop. -/
theorem Sound.returns (h : s.Sound) {c : ℕ} {ok : Bool} {w : Option ℕ}
    (hc : s.calls c = .idle ∧ w = none ∨ ∃ v, s.calls c = .waiting v ∧ w = some v)
    (hok : ∀ v, w = some v → ok = true → s.pc v = .exited) :
    (s.setCall c (.returned ok w)).Sound := by
  have htook : ∀ v, s.calls c ≠ .took v := by
    rcases hc with ⟨hc, -⟩ | ⟨u, hc, -⟩ <;> simp [hc]
  have hold : ∀ {d v}, (s.setCall c (.returned ok w)).calls d = .took v → s.calls d = .took v :=
    fun {d v} => (Function.forall_update_iff s.calls
      fun d q => q = .took v → s.calls d = .took v).mpr ⟨by simp, fun _ _ => id⟩ d
  refine
    { h with
      slot := fun v hv => ⟨(h.slot v hv).1, (h.slot v hv).2.1, fun d hd =>
        (h.slot v hv).2.2 d (hold hd)⟩
      took := fun d v hd => ⟨(h.took d v (hold hd)).1, (h.took d v (hold hd)).2.1, fun d' hd' =>
        (h.took d v (hold hd)).2.2 d' (hold hd')⟩
      owned := fun v hv hstop => (h.owned v hv hstop).imp_right ?_
      told := fun v hv => ?_
      waiting := (Function.forall_update_iff s.calls
        fun _ q => ∀ v, q = .waiting v → s.stop v = true).mpr ⟨by simp, fun d _ => h.waiting d⟩
      ended := (Function.forall_update_iff s.calls
        fun _ q => ∀ v, q = .returned true (some v) → s.pc v = .exited).mpr
          ⟨by rintro v ⟨⟩; exact hok v rfl rfl, fun d _ => h.ended d⟩ }
  · rintro ⟨d, hd⟩
    exact ⟨d, calls_of_ne rfl hd (htook v).symm _⟩
  · obtain ⟨d, hd⟩ := h.told v hv
    by_cases hdc : d = c
    · subst hdc
      rcases hc with ⟨hidle, -⟩ | ⟨u, hwait, rfl⟩
      · simp [hidle] at hd
      · have huv : u = v := by simpa [hwait] using hd
        subst huv
        exact ⟨d, .inr ⟨ok, Function.update_self _ _ _⟩⟩
    · have hsame : (s.setCall c (.returned ok w)).calls d = s.calls d :=
        Function.update_of_ne hdc _ _
      exact ⟨d, hsame.symm ▸ hd⟩

theorem Sound.take (h : s.Sound) {c w : ℕ} (hc : s.calls c = .idle) (hs : s.slot = some w) :
    Sound { s.setCall c (.took w) with slot := none } := by
  obtain ⟨hlt, hstop, hfree⟩ := h.slot w hs
  have hold : ∀ {d v}, (s.setCall c (.took w)).calls d = .took v →
      d = c ∧ v = w ∨ s.calls d = .took v :=
    fun {d v} => (Function.forall_update_iff s.calls
      fun d q => q = .took v → d = c ∧ v = w ∨ s.calls d = .took v).mpr
        ⟨by rintro ⟨⟩; exact .inl ⟨rfl, rfl⟩, fun _ _ => .inr⟩ d
  refine
    { h with
      slot := by simp
      took := fun d v hd => ?_
      owned := fun v hv hfalse => .inr ?_
      told := fun v hv => (h.told v hv).imp fun d hd =>
        hd.imp (fun hd => calls_of_ne hc hd (by simp) _)
          fun ⟨ok, hd⟩ => ⟨ok, calls_of_ne hc hd (by simp) _⟩
      waiting := (Function.forall_update_iff s.calls
        fun _ q => ∀ v, q = .waiting v → s.stop v = true).mpr ⟨by simp, fun d _ => h.waiting d⟩
      ended := (Function.forall_update_iff s.calls
        fun _ q => ∀ v, q = .returned true (some v) → s.pc v = .exited).mpr
          ⟨by simp, fun d _ => h.ended d⟩ }
  · rcases hold hd with ⟨rfl, rfl⟩ | htook
    · refine ⟨hlt, hstop, fun d' hd' => ?_⟩
      rcases hold hd' with ⟨rfl, -⟩ | hd'
      · rfl
      · exact absurd hd' (hfree d')
    · obtain ⟨hv, hfalse, huniq⟩ := h.took d v htook
      refine ⟨hv, hfalse, fun d' hd' => ?_⟩
      rcases hold hd' with ⟨-, rfl⟩ | htook'
      · exact absurd htook (hfree d)
      · exact huniq d' htook'
  · rcases h.owned v hv hfalse with hv | ⟨d, hd⟩
    · cases hs.symm.trans hv
      exact ⟨c, Function.update_self _ _ _⟩
    · exact ⟨d, calls_of_ne hc hd (by simp) _⟩

theorem Sound.close (h : s.Sound) {c w : ℕ} (hc : s.calls c = .took w) :
    Sound { s.setCall c (.waiting w) with
      stop := Function.update s.stop w true, crashed := s.crashed || s.stop w } := by
  obtain ⟨hlt, hstop, huniq⟩ := h.took c w hc
  have hold : ∀ {d v}, (s.setCall c (.waiting w)).calls d = .took v →
      v ≠ w ∧ s.calls d = .took v :=
    fun {d v} => (Function.forall_update_iff s.calls
      fun d q => q = .took v → v ≠ w ∧ s.calls d = .took v).mpr
        ⟨by simp, fun d hd htook => ⟨by rintro rfl; exact hd (huniq d htook), htook⟩⟩ d
  have hmono : ∀ {v}, s.stop v = true → Function.update s.stop w true v = true := fun {v} hv => by
    by_cases hvw : v = w
    · subst hvw
      exact Function.update_self _ _ _
    · exact (Function.update_of_ne hvw _ _).trans hv
  have hsame : ∀ {v}, v ≠ w → Function.update s.stop w true v = s.stop v :=
    fun hv => Function.update_of_ne hv _ _
  exact
    { absent := fun v hv => ⟨(h.absent v hv).1,
        (hsame (Nat.ne_of_gt (lt_of_lt_of_le hlt hv))).trans (h.absent v hv).2⟩
      present := h.present
      slot := fun v hv => by
        obtain ⟨hv', hfalse, hfree⟩ := h.slot v hv
        have hne : v ≠ w := fun heq => hfree c (heq ▸ hc)
        exact ⟨hv', (hsame hne).trans hfalse, fun d hd => hfree d (hold hd).2⟩
      took := fun d v hd => by
        obtain ⟨hne, hd⟩ := hold hd
        obtain ⟨hv, hfalse, hall⟩ := h.took d v hd
        exact ⟨hv, (hsame hne).trans hfalse, fun d' hd' => hall d' (hold hd').2⟩
      owned := fun v hv hfalse => by
        have hne : v ≠ w := by
          rintro rfl
          simp at hfalse
        refine (h.owned v hv ((hsame hne).symm.trans hfalse)).imp_right fun ⟨d, hd⟩ => ⟨d, ?_⟩
        exact calls_of_ne hc hd (by simpa using hne) _
      told := fun v hv => by
        by_cases hvw : v = w
        · subst hvw
          exact ⟨c, .inl (Function.update_self _ _ _)⟩
        · refine (h.told v ((hsame hvw).symm.trans hv)).imp fun d hd => ?_
          exact hd.imp (fun hd => calls_of_ne hc hd (by simp) _)
            fun ⟨ok, hd⟩ => ⟨ok, calls_of_ne hc hd (by simp) _⟩
      exited := fun v hv => hmono (h.exited v hv)
      waiting := (Function.forall_update_iff s.calls
        fun _ q => ∀ v, q = .waiting v → Function.update s.stop w true v = true).mpr
          ⟨by rintro v ⟨⟩; exact Function.update_self _ _ _,
            fun d _ v hd => hmono (h.waiting d v hd)⟩
      ended := (Function.forall_update_iff s.calls
        fun _ q => ∀ v, q = .returned true (some v) → s.pc v = .exited).mpr
          ⟨by simp, fun d _ => h.ended d⟩
      sane := by simp [h.sane, hstop] }

theorem sound_moves (h : s.Sound) (hm : s.Moves t) : t.Sound := by
  cases hm with
  | idle => exact h
  | start hs => exact h.start hs
  | none c hc hs => exact h.returns (.inl ⟨hc, rfl⟩) (by simp)
  | take c w hc hs => exact h.take hc hs
  | close c w hc => exact h.close hc
  | done c w ok hc hok =>
    refine h.returns (.inr ⟨w, hc, rfl⟩) fun v hv => ?_
    cases hv
    exact hok
  | work w p hw hp hexit => exact h.work hw hp hexit

theorem sound_run {es : List ExpirationEvent} (hrun : runSteps step s es = some t) (h : s.Sound) :
    t.Sound :=
  runSteps_invariant (fun _ _ _ hstep h => sound_moves h (step_moves hstep)) hrun h

/-- A worker that has gone does not come back. -/
theorem exited_run {es : List ExpirationEvent} (hrun : runSteps step s es = some t) (h : s.Sound)
    {w : ℕ} (hw : s.pc w = .exited) : t.pc w = .exited := by
  refine (runSteps_invariant (I := fun s => s.Sound ∧ s.pc w = .exited) ?_ hrun ⟨h, hw⟩).2
  rintro s e t hstep ⟨h, hw⟩
  have hm := step_moves hstep
  refine ⟨sound_moves h hm, ?_⟩
  cases hm with
  | start hs =>
    have hne : w ≠ s.started := by
      rintro rfl
      simp [(h.absent _ le_rfl).1] at hw
    exact (Function.update_of_ne hne _ _).trans hw
  | work v p hv hp hexit =>
    have hne : w ≠ v := by
      rintro rfl
      simp [hw] at hv
    exact (Function.update_of_ne hne _ _).trans hw
  | _ => exact hw

/-! ## A call that waits can be answered -/

section Answered

variable {c w : ℕ} (hc : s.calls c = .waiting w)
include hc

theorem answered_exited (hw : s.pc w = .exited) :
    ∃ t, runSteps step s [.seen c] = some t ∧ t.calls c = .returned true (some w) := by
  have hstep : s.step (.seen c) = some (s.setCall c (.returned true (some w))) := by
    simp only [step, hc, hw, if_true]
  exact ⟨_, runSteps_cons_eq_some.mpr ⟨_, hstep, rfl⟩, Function.update_self _ _ _⟩

theorem answered_selecting (hw : s.pc w = .selecting) (hstop : s.stop w = true) :
    ∃ t, runSteps step s [.exit w, .seen c] = some t ∧ t.calls c = .returned true (some w) := by
  have hstep : s.step (.exit w) = some (s.setWorker w .exited) := if_pos ⟨hw, hstop⟩
  obtain ⟨t, ht, hret⟩ := answered_exited (s := s.setWorker w .exited) hc
    (Function.update_self _ _ _)
  exact ⟨t, runSteps_cons_eq_some.mpr ⟨_, hstep, ht⟩, hret⟩

private theorem answered_sweeping (hw : s.pc w = .sweeping) (hstop : s.stop w = true) :
    ∃ t, runSteps step s [.swept w, .exit w, .seen c] = some t ∧
      t.calls c = .returned true (some w) := by
  have hstep : s.step (.swept w) = some (s.setWorker w .selecting) := if_pos hw
  obtain ⟨t, ht, hret⟩ := answered_selecting (s := s.setWorker w .selecting) hc
    (Function.update_self _ _ _) hstop
  exact ⟨t, runSteps_cons_eq_some.mpr ⟨_, hstep, ht⟩, hret⟩

end Answered

/-- In every run of any number of calls: no channel is closed twice; a worker that runs is the
engine's, or was told to stop, or is about to be told; one that a call waited for to the end is
gone for good; when every call has returned nil and the engine has no worker, none runs; and a
call that waits can be answered after at most the sweep in flight. -/
theorem stop_expiration {es : List ExpirationEvent} (hrun : runSteps step new es = some s) :
    s.crashed = false ∧
    (∀ w, s.pc w = .selecting ∨ s.pc w = .sweeping →
      s.slot = some w ∨ s.stop w = true ∨ ∃ c, s.calls c = .took w) ∧
    (∀ c w, s.calls c = .returned true (some w) → ∀ fs t, runSteps step s fs = some t →
      t.pc w = .exited) ∧
    (s.slot = none → (∀ c, s.calls c = .idle ∨ ∃ w, s.calls c = .returned true w) →
      ∀ w, s.pc w = .absent ∨ s.pc w = .exited) ∧
    ∀ c w, s.calls c = .waiting w → ∃ fs t, runSteps step s fs = some t ∧ fs.length ≤ 3 ∧
      t.calls c = .returned true (some w) := by
  have h := sound_run hrun sound_new
  have hstarted : ∀ w, s.pc w ≠ .absent → w < s.started := fun w hw =>
    lt_of_not_ge fun hge => hw (h.absent w hge).1
  refine ⟨h.sane, fun w hw => ?_, fun c w hc fs t hfs => exited_run hfs h (h.ended c w hc),
    fun hslot hcalls w => ?_, fun c w hc => ?_⟩
  · cases hstop : s.stop w with
    | true => exact .inr (.inl rfl)
    | false =>
      have hlt := hstarted w (by rcases hw with hw | hw <;> simp [hw])
      exact (h.owned w hlt hstop).imp_right .inr
  · by_cases hw : s.pc w = .absent
    · exact .inl hw
    · right
      have hstop : s.stop w = true := by
        by_contra hfalse
        rcases h.owned w (hstarted w hw) (by simpa using hfalse) with hs | ⟨c, hc⟩
        · simp [hslot] at hs
        · rcases hcalls c with hidle | ⟨v, hret⟩
          · simp [hidle] at hc
          · simp [hret] at hc
      obtain ⟨c, hc⟩ := h.told w hstop
      rcases hcalls c with hidle | ⟨v, hret⟩
      · simp [hidle] at hc
      · have hv : v = some w := by simpa [hret] using hc
        exact h.ended c w (hv ▸ hret)
  · have hstop := h.waiting c w hc
    cases hw : s.pc w with
    | absent =>
      by_cases hlt : w < s.started
      · exact absurd hw (h.present w hlt)
      · rw [(h.absent w (Nat.le_of_not_lt hlt)).2] at hstop
        cases hstop
    | selecting =>
      obtain ⟨t, ht, hret⟩ := answered_selecting hc hw hstop
      exact ⟨_, t, ht, by simp, hret⟩
    | sweeping =>
      obtain ⟨t, ht, hret⟩ := answered_sweeping hc hw hstop
      exact ⟨_, t, ht, le_rfl, hret⟩
    | exited =>
      obtain ⟨t, ht, hret⟩ := answered_exited hc hw
      exact ⟨_, t, ht, by simp, hret⟩

/-- A worker sweeps while a second call of StopExpiration finds nothing to stop; the first is told
in the end that the worker has gone. -/
def stoppedTwice : List ExpirationEvent :=
  [.start, .tick 0, .take 0, .take 1, .close 0, .swept 0, .exit 0, .seen 0]

theorem stop_expiration_twice :
    ∃ s, runSteps step new stoppedTwice = some s ∧ s.calls 0 = .returned true (some 0) ∧
      s.calls 1 = .returned true none ∧ s.crashed = false ∧
      ∀ fs t, runSteps step s fs = some t → t.pc 0 = .exited := by
  have hrun : runSteps step new stoppedTwice = some _ := rfl
  obtain ⟨hsane, -, hgone, -, -⟩ := stop_expiration hrun
  exact ⟨_, hrun, rfl, rfl, hsane, hgone 0 0 rfl⟩

end Expiration

end GoKv
