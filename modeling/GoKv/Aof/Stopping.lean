import GoKv.Aof.Closing

/-! Close comes to an end. Once closeCh is closed the writer has a bounded number of steps to take,
whatever the file answers and whoever else calls; it is never without one before it has stopped,
and then nobody is left waiting on the log. -/
namespace GoKv.Aof
open GoLib

def Event.ofWriter : Event → Bool
  | .append _ | .await _ _ _ | .check _ | .beginClose | .signalClose => false
  | _ => true

def Event.wakes : Event → Bool
  | .recvNotify | .recvTick _ => true
  | _ => false

/-- Bytes that were taken out of the batch and not offered to the file yet. -/
def Phase.unwritten : Phase → ℕ
  | .writing _ batch _ total => batch.length - total
  | _ => 0

/-- Steps after a flush until the writer has stopped. -/
def Cause.left : Cause → ℕ
  | .close => 3
  | _ => 12

/-- Steps until the writer has stopped, with one for every byte of the batch. -/
def Phase.left : Phase → ℕ
  | .stopped => 0
  | .closingFile => 1
  | .finishing => 2
  | .flushed c => c.left
  | .reporting c | .advancingSynced c => c.left + 1
  | .failing c _ => c.left + 2
  | .syncing c _ => c.left + 3
  | .unsynced c => c.left + 4
  | .advancing c _ _ _ => c.left + 5
  | .writing c batch _ total => batch.length - total + c.left + 6
  | .flushing c => c.left + 7
  | .waiting => 11
  | .dropped => 12

theorem Cause.left_le (c : Cause) : c.left ≤ 12 := by
  cases c <;> simp [Cause.left]

theorem Phase.left_le (p : Phase) : p.left ≤ p.unwritten + 19 := by
  cases p with
  | flushing c | writing c | advancing c | unsynced c | syncing c | advancingSynced c | failing c
  | reporting c | flushed c =>
    have hc := c.left_le
    simp only [Phase.left, Phase.unwritten]
    omega
  | _ => simp [Phase.left]

theorem left_afterWrite (l : Log) (c : Cause) : (Sys.afterWrite l c).left ≤ c.left + 4 := by
  unfold Sys.afterWrite
  split_ifs <;> simp [Phase.left]

namespace Sys

def unwritten (s : Sys) : ℕ := s.log.buf.length + s.phase.unwritten

/-- The steps the writer has left once no record can be appended. -/
def left (s : Sys) : ℕ := s.log.buf.length + s.phase.left

theorem left_le (s : Sys) : s.left ≤ s.unwritten + 19 := by
  have hphase := s.phase.left_le
  simp only [left, unwritten]
  omega

theorem closing_moves {s t : Sys} {e : Event} (hm : Moves s e t) (h : s.log.closing = true) :
    t.log.closing = true := by
  cases hm with
  | beginClose => rfl
  | _ => exact h

theorem closeCh_moves {s t : Sys} {e : Event} (hm : Moves s e t) (h : s.log.closeCh = true) :
    t.log.closeCh = true := by
  cases hm with
  | signalClose => rfl
  | _ => exact h

/-- A step of the writer is one less to take, unless it took a notification or a tick. -/
theorem left_moves {s t : Sys} {e : Event} (hm : Moves s e t) (h : s.log.closing = true) :
    (if e.ofWriter then 1 else 0) + t.left ≤ s.left + 9 * if e.wakes then 1 else 0 := by
  have hleft : ∀ {p}, s.phase = p → s.left = s.log.buf.length + p.left := by
    rintro p rfl
    rfl
  cases hm with
  | appended r hf hc =>
    rw [h] at hc
    cases hc
  | refused | called | returned | parked | beginClose | signalClose =>
    simp [left, Event.ofWriter, Event.wakes]
  | swapEmpty c hp =>
    have hle := left_afterWrite s.log c
    rw [hleft hp]
    change 1 + (0 + (afterWrite s.log c).left) ≤ s.log.buf.length + (c.left + 7) + 0
    omega
  | wroteAll c records n hp =>
    have hle := left_afterWrite s.log c
    rw [hleft hp]
    change 1 + (s.log.buf.length + (afterWrite s.log c).left) ≤
      s.log.buf.length + (c.left + 5) + 0
    omega
  | loopKeep now hp =>
    have hle : s.left = s.log.buf.length + 12 := by rcases hp with hp | hp <;> exact hleft hp
    rw [hle]
    simp only [left, Phase.left, Event.ofWriter, if_true]
    omega
  | recvNotify hp | recvTick now hp | dropTick now hp | recvClose hp | swapFailed c hp
  | swapBatch c hp | writeMore c batch records total n hp
  | writeStop c batch records total n err res hp | wroteErr c records n e hp | beginSync c hp
  | syncErr c began e hp | syncOk c began hp | advanceSynced c hp | fail c e hp | report c hp
  | loopClose now hp | loopTick now t hp | finish hp | closeFile hp =>
    rw [hleft hp]
    simp only [left, Phase.left, Cause.left, Event.ofWriter, Event.wakes, if_true,
      Bool.false_eq_true, if_false, List.length_nil]
    omega

/-- Until it has stopped the writer has a step to take. -/
theorem exists_step {s : Sys} (hclose : s.log.closeCh = true) (hp : s.phase ≠ .stopped) :
    ∃ e, e.ofWriter = true ∧ e.wakes = false ∧ s.step e ≠ none := by
  cases hphase : s.phase with
  | stopped => exact absurd hphase hp
  | waiting => exact ⟨.recvClose, rfl, rfl, by simp [step, hphase, hclose]⟩
  | flushing c =>
    refine ⟨.swap, rfl, rfl, ?_⟩
    simp only [step, hphase]
    split_ifs <;> simp
  | writing c batch records total => exact ⟨.write 0 none, rfl, rfl, by simp [step, hphase]⟩
  | advancing c records n err => exact ⟨.advanceWritten, rfl, rfl, by simp [step, hphase]⟩
  | unsynced c => exact ⟨.beginSync, rfl, rfl, by simp [step, hphase]⟩
  | syncing c began => exact ⟨.endSync none, rfl, rfl, by simp [step, hphase]⟩
  | advancingSynced c => exact ⟨.advanceSynced, rfl, rfl, by simp [step, hphase]⟩
  | failing c err => exact ⟨.fail, rfl, rfl, by simp [step, hphase]⟩
  | reporting c => exact ⟨.report, rfl, rfl, by simp [step, hphase]⟩
  | flushed c => cases c <;> exact ⟨.loop 0, rfl, rfl, by simp [step, hphase]⟩
  | dropped => exact ⟨.loop 0, rfl, rfl, by simp [step, hphase]⟩
  | finishing => exact ⟨.finish, rfl, rfl, by simp [step, hphase]⟩
  | closingFile => exact ⟨.closeFile, rfl, rfl, by simp [step, hphase]⟩

private theorem step_of_stopped {s : Sys} (hp : s.phase = .stopped) {e : Event}
    (he : e.ofWriter = true) :
    s.step e = none := by
  cases e with
  | append | await | check | beginClose | signalClose => cases he
  | _ => simp [step, hp]

/-- Who was told that the writer is at its end: the callers, then those in Close. -/
structure Ended (s : Sys) : Prop where
  closed : s.phase.left ≤ 1 → s.log.closed = true
  done : s.phase.left = 0 → s.log.done = true

theorem ended_moves {s t : Sys} {e : Event} (hm : Moves s e t) (h : s.Ended) : t.Ended := by
  have hcause : ∀ c : Cause, 1 < c.left := fun c => by cases c <;> simp [Cause.left]
  have hearly : 1 < t.phase.left → t.Ended :=
    fun hlt => ⟨fun hle => absurd hlt hle.not_gt, fun hz => by rw [hz] at hlt; cases hlt⟩
  cases hm with
  | appended | refused | called | returned | parked | beginClose | signalClose =>
    exact ⟨h.closed, h.done⟩
  | finish hp => exact ⟨fun _ => rfl, nofun⟩
  | closeFile hp => exact ⟨fun _ => h.closed (by rw [hp]; rfl), fun _ => rfl⟩
  | swapEmpty c | wroteAll c =>
    have hc := hcause c
    refine hearly ?_
    simp only [afterWrite]
    split_ifs <;> simp only [Phase.left] <;> omega
  | recvNotify | recvTick | dropTick | recvClose | loopClose | loopTick | loopKeep =>
    exact hearly (by simp [Phase.left, Cause.left])
  | swapFailed c | swapBatch c | writeMore c | writeStop c | wroteErr c | beginSync c | syncErr c
  | syncOk c | advanceSynced c | fail c | report c =>
    have hc := hcause c
    refine hearly ?_
    simp only [Phase.left]
    omega

/-- Close, from the moment closeCh is closed. Whatever the file answers and whoever else calls, the
writer takes at most one step for every byte it has still to write and 19 more, and 9 more for
every notification or tick that select takes first; until it has stopped it has a step to take.
Once it has stopped Close returns, nobody is parked on the log, and unless the log failed the file
holds every record, synced. -/
theorem close_returns {policy : Policy} {now : ℤ} {before es : List Event} {s t : Sys}
    (hrun : runSteps step (init policy now) before = some s) (hclose : s.log.closeCh = true)
    (ht : runSteps step s es = some t) :
    es.countP Event.ofWriter ≤ s.unwritten + 19 + 9 * es.countP Event.wakes ∧
      ((∀ e, e.ofWriter = true → e.wakes = false → t.step e = none) ↔ t.phase = .stopped) ∧
      (t.phase = .stopped → t.log.done = true ∧ (∀ c seq p, t.callers c ≠ .parked seq p) ∧
        (t.log.failed = none →
          t.log.synced = t.log.appended ∧ t.accepted = encodes t.journal ∧
            t.durable = t.accepted.length)) := by
  have hfull : runSteps step (init policy now) (before ++ es) = some t :=
    runSteps_append_eq_some.mpr ⟨s, hrun, ht⟩
  have hclosing : s.log.closing = true := (awake_run hrun).signalled.closing (.inl hclose)
  have hpaid : es.countP Event.ofWriter + t.left ≤ s.left + 9 * es.countP Event.wakes :=
    runSteps_pays (I := fun s => s.log.closing = true)
      (fun _ _ _ hstep => closing_moves (step_moves hstep))
      (fun _ _ _ hstep => left_moves (step_moves hstep)) ht hclosing
  have hclose' : t.log.closeCh = true :=
    runSteps_invariant (fun _ _ _ hstep => closeCh_moves (step_moves hstep)) ht hclose
  have hended : t.Ended := runSteps_invariant (fun _ _ _ hstep => ended_moves (step_moves hstep))
    hfull ⟨by simp [init, Phase.left], by simp [init, Phase.left]⟩
  refine ⟨?_, ⟨fun hstuck => ?_, fun hp e he _ => step_of_stopped hp he⟩, fun hp => ?_⟩
  · have hleft := s.left_le
    omega
  · by_contra hp
    obtain ⟨e, he, hw, hstep⟩ := exists_step hclose' hp
    exact hstep (hstuck e he hw)
  · have hdone := hended.done (by rw [hp]; rfl)
    refine ⟨hdone, fun c seq p hc => ?_, fun hf => ?_⟩
    · have hopen := (awaitCheck_eq_none ((awake_run hfull).waiting c seq p hc)).2.1
      rw [hended.closed (by rw [hp]; exact Nat.zero_le _)] at hopen
      cases hopen
    · obtain ⟨happ, hsync, hfile, hdur⟩ :=
        (sound_run hfull (sound_init policy now)).closed hdone hf
      exact ⟨(happ.trans hsync).symm, hfile, hdur⟩

/-- A caller parks, Close begins while the writer handles the notification, and the file takes the
record in two writes. -/
def closeSchedule : List Event :=
  parkedSchedule ++ [.recvNotify, .beginClose, .signalClose]

def closeBegun : Sys := (runSteps step (init .always 0) closeSchedule).getD (init .always 0)

def closeRest : List Event :=
  [.swap, .write 5 none, .write 15 none, .advanceWritten, .beginSync, .endSync none, .advanceSynced,
    .loop 0, .recvClose, .swap, .beginSync, .endSync none, .advanceSynced, .loop 0, .finish,
    .closeFile]

theorem close_returns_parked :
    runSteps step (init .always 0) closeSchedule = some closeBegun ∧
      closeBegun.log.closeCh = true ∧
      ∃ t, runSteps step closeBegun closeRest = some t ∧
        closeRest.countP Event.ofWriter ≤ closeBegun.unwritten + 19 ∧ t.log.done = true ∧
        t.log.synced = t.log.appended ∧ ∀ c seq p, t.callers c ≠ .parked seq p := by
  have hrun : runSteps step (init .always 0) closeSchedule = some closeBegun := rfl
  have hrest : runSteps step closeBegun closeRest = some _ := rfl
  obtain ⟨hcount, -, hstop⟩ := close_returns hrun rfl hrest
  obtain ⟨hdone, hquiet, hsafe⟩ := hstop rfl
  exact ⟨hrun, rfl, _, hrest, hcount, hdone, (hsafe rfl).1, hquiet⟩

end Sys

end GoKv.Aof
