import GoKv.Aof.Durable

/-! No caller is left parked on a record the writer will not get to. -/
namespace GoKv.Aof
open GoLib

/-- The writer has received an event and its flush has not completed. -/
def Phase.inFlush : Phase → Bool
  | .flushing _ | .writing _ _ _ _ | .advancing _ _ _ _ | .unsynced _ | .syncing _ _
  | .advancingSynced _ | .failing _ _ | .reporting _ => true
  | _ => false

/-- The batch has been taken out and its write or sync is not over. -/
def Phase.busy : Phase → Bool
  | .flushing _ => false
  | p => p.inFlush

/-- The writer is handling the close of closeCh. -/
def Phase.last : Phase → Bool
  | .flushing c | .writing c _ _ _ | .advancing c _ _ _ | .unsynced c | .syncing c _
  | .advancingSynced c | .failing c _ | .reporting c | .flushed c => c = .close
  | .finishing | .closingFile | .stopped => true
  | .waiting | .dropped => false

namespace Sys

/-- A batch that is not empty has its signal, and the final flush leaves none behind. -/
structure Signalled (s : Sys) : Prop where
  notified : s.log.failed = none → s.log.records ≠ [] →
    s.log.notify = true ∨ ∃ c, s.phase = .flushing c
  closing : s.log.closeCh = true ∨ s.phase.last = true → s.log.closing = true
  drained : s.log.failed = none → s.phase.last = true → (∀ c, s.phase ≠ .flushing c) →
    s.log.records = []
  synced : s.log.failed = none → s.log.policy = .always → s.phase.busy = false →
    s.log.synced = s.log.written

/-- A parked caller has a reason to be parked. -/
def Waiting (s : Sys) : Prop :=
  ∀ c seq p, s.callers c = .parked seq p → s.log.awaitCheck seq p = none

/-- The flush that takes the record is under way or still to come, and a record taken out is
still being written or synced. -/
def Handles (s : Sys) (seq : ℕ) : Prop :=
  if seq ≤ s.taken then s.phase.busy = true
  else (∃ c, s.phase = .flushing c) ∨ s.log.notify = true ∧ s.phase.last = false

theorem signalled_keep {s t : Sys} (h : s.Signalled) (hp : ∀ c, s.phase ≠ .flushing c)
    (hf : t.log.failed = none → s.log.failed = none) (hr : t.log.records = s.log.records)
    (hn : t.log.notify = s.log.notify) (hh : t.log.closeCh = s.log.closeCh)
    (hc : t.log.closing = s.log.closing) (hl : t.phase.last = s.phase.last)
    (hs : t.log.failed = none → t.log.policy = .always → t.phase.busy = false →
      t.log.synced = t.log.written) : t.Signalled where
  notified hn0 hr0 := by
    rw [hr] at hr0
    rcases h.notified (hf hn0) hr0 with hnt | ⟨c, hc⟩
    · exact Or.inl (hn ▸ hnt)
    · exact absurd hc (hp c)
  closing := by rw [hh, hc, hl]; exact h.closing
  drained hn0 hl0 _ := by rw [hr]; exact h.drained (hf hn0) (hl ▸ hl0) hp
  synced := hs

theorem last_afterWrite (l : Log) (c : Cause) : (afterWrite l c).last = (Phase.flushed c).last := by
  unfold afterWrite
  split_ifs <;> rfl

/-- Under always a flush that wrote its batch goes on to sync. -/
theorem busy_afterWrite {l : Log} {c : Cause} (h : l.policy = .always) :
    (afterWrite l c).busy = true := by
  simp [afterWrite, h, Phase.busy, Phase.inFlush]

theorem signalled_moves {s t : Sys} {e : Event} (hm : Moves s e t) (hd : s.Durable)
    (hs : s.Signalled) : t.Signalled := by
  have ⟨h1, h2, h3, h4⟩ := hs
  cases hm with
  | appended r hf hc hdn hr =>
    have hlast : s.phase.last = false := by
      by_contra hl
      simp [h2 (Or.inr (by simpa using hl))] at hc
    exact ⟨fun _ _ => Or.inl rfl, h2, fun _ hl => by simp [appendTo, hlast] at hl, h4⟩
  | refused | called | returned | parked => exact ⟨h1, h2, h3, h4⟩
  | beginClose => exact ⟨h1, fun _ => rfl, h3, h4⟩
  | signalClose hc => exact ⟨h1, fun _ => hc, h3, h4⟩
  | recvNotify hp hn =>
    simp only [hp] at h2 h4
    exact ⟨fun _ _ => Or.inr ⟨_, rfl⟩, fun hc => h2 (hc.imp_right (by simp [Phase.last])),
      fun _ _ hc => absurd rfl (hc .notify), h4⟩
  | recvTick now hp =>
    simp only [hp] at h2 h4
    exact ⟨fun _ _ => Or.inr ⟨_, rfl⟩, fun hc => h2 (hc.imp_right (by simp [Phase.last])),
      fun _ _ hc => absurd rfl (hc (.tick now)), h4⟩
  | dropTick now hp =>
    simp only [hp] at h1 h2 h4
    exact ⟨fun hf hr => (h1 hf hr).imp_right (by simp), h2, fun _ hl => by simp [Phase.last] at hl,
      h4⟩
  | recvClose hp hc =>
    simp only [hp] at h4
    exact ⟨fun _ _ => Or.inr ⟨_, rfl⟩, fun _ => h2 (Or.inl hc),
      fun _ _ hn => absurd rfl (hn .close), h4⟩
  | swapFailed c hp hf =>
    simp only [hp] at h2
    exact ⟨fun hn => absurd hn hf, h2, fun hn => absurd hn hf, fun hn => absurd hn hf⟩
  | swapEmpty c hp hf hb =>
    simp only [hp] at h2
    exact ⟨fun _ hr => absurd rfl hr, fun hc => h2 (hc.imp_right (last_afterWrite s.log c ▸ ·)),
      fun _ _ _ => rfl,
      fun _ ha hb => by simp [busy_afterWrite (show s.log.policy = _ from ha)] at hb⟩
  | swapBatch c hp hf hb =>
    simp only [hp] at h2
    exact ⟨fun _ hr => absurd rfl hr, h2, fun _ _ _ => rfl,
      fun _ _ hb => by simp [Phase.busy, Phase.inFlush] at hb⟩
  | writeMore c batch records total n hp | writeStop c batch records total n err res hp
  | wroteErr c records n e hp | beginSync c hp | syncErr c began e hp | syncOk c began hp =>
    -- The flush goes on, so nothing is claimed of the markers.
    refine signalled_keep hs (by simp [hp]) id rfl rfl rfl rfl (by simp [hp, Phase.last]) ?_
    simp [Phase.busy, Phase.inFlush]
  | wroteAll c records n hp =>
    refine signalled_keep hs (by simp [hp]) id rfl rfl rfl rfl
      (by rw [hp]; exact last_afterWrite s.log c) fun _ ha hb => ?_
    simp [busy_afterWrite (show s.log.policy = _ from ha)] at hb
  | advanceSynced c hp =>
    exact signalled_keep hs (by simp [hp]) id rfl rfl rfl rfl (by simp [hp, Phase.last])
      fun _ _ _ => rfl
  | fail c e hp =>
    refine signalled_keep hs (by simp [hp]) (by simp) rfl rfl rfl rfl (by simp [hp, Phase.last]) ?_
    simp
  | report c hp =>
    -- The failure was recorded before it is reported.
    have hfail := hd.flight
    simp only [hp, Flight] at hfail
    exact signalled_keep hs (by simp [hp]) id rfl rfl rfl rfl (by simp [hp, Phase.last])
      fun hf => absurd hf hfail
  | loopClose now hp | loopTick now t hp | finish hp | closeFile hp =>
    refine signalled_keep hs (by simp [hp]) id rfl rfl rfl rfl (by simp [hp, Phase.last]) ?_
    exact fun hf ha _ => hs.synced hf ha (by simp [hp, Phase.busy, Phase.inFlush])
  | loopKeep now hp =>
    have hidle : s.phase.busy = false ∧ s.phase.last = false ∧ ∀ c, s.phase ≠ .flushing c := by
      rcases hp with hp | hp <;> simp [hp, Phase.busy, Phase.inFlush, Phase.last]
    exact signalled_keep hs hidle.2.2 id rfl rfl rfl rfl hidle.2.1.symm
      fun hf ha _ => hs.synced hf ha hidle.1

theorem signalled_init (policy : Policy) (now : ℤ) : (init policy now).Signalled :=
  ⟨fun _ h => absurd rfl h, by simp [init, Log.init, Phase.last], fun _ _ _ => rfl,
    fun _ _ _ => rfl⟩

private theorem wake_ne_parked (c : Caller) (seq : ℕ) (p : Policy) : c.wake ≠ .parked seq p := by
  cases c <;> simp [Caller.wake]

private theorem waiting_broadcast {s t : Sys} (hc : t.callers = s.broadcast.callers) :
    t.Waiting := by
  intro c seq p hw
  rw [hc] at hw
  exact absurd hw (wake_ne_parked _ _ _)

theorem waiting_caller {s : Sys} (h : s.Waiting) {c : ℕ} {k : Caller}
    (hk : ∀ seq p, k = .parked seq p → s.log.awaitCheck seq p = none) :
    Waiting { s with callers := Function.update s.callers c k } := by
  intro d seq p hw
  by_cases hd : d = c
  · subst hd
    exact hk seq p (by simpa using hw)
  · exact h d seq p (by simpa [hd] using hw)

/-- Every step that can give a parked caller its answer wakes it. -/
theorem waiting_moves {s t : Sys} {e : Event} (hm : Moves s e t) (hw : s.Waiting) : t.Waiting := by
  cases hm with
  | called c seq p hc => exact waiting_caller hw (by simp)
  | returned c seq p res hc hr => exact waiting_caller hw (by simp)
  | parked c seq p hc hr =>
    refine waiting_caller hw fun seq' p' hk => ?_
    obtain ⟨rfl, rfl⟩ : seq = seq' ∧ p = p' := by simpa using hk
    exact hr
  | wroteErr | wroteAll | advanceSynced | fail | finish => exact waiting_broadcast rfl
  -- The remaining steps leave the callers alone, and every field awaitCheck reads.
  | _ => exact hw

theorem awaitCheck_eq_none {l : Log} {seq : ℕ} {p : Policy} (h : l.awaitCheck seq p = none) :
    l.failed = none ∧ l.closed = false ∧ l.reached seq p = false := by
  rcases awaitCheck_cases l seq p with ⟨e, he⟩ | ⟨hok, -⟩ | ⟨-, hwait⟩
  · cases he.symm.trans h
  · cases hok.symm.trans h
  · exact hwait

/-- Outside write and sync the markers cover all the writer has taken out. -/
theorem reached_of_not_busy {s : Sys} (hd : s.Durable) (hs : s.Signalled)
    (hf : s.log.failed = none) (hb : s.phase.busy = false) {seq : ℕ} (hseq : seq ≤ s.taken) :
    s.log.reached seq s.log.policy = true := by
  have hset : s.Settled := by
    have hfl := hd.flight
    cases hp : s.phase <;> simp only [hp, Phase.busy, Phase.inFlush, reduceCtorEq] at hb
    all_goals rw [hp] at hfl; exact hfl hf
  have hw : s.log.written = s.taken := hset.1
  cases hpol : s.log.policy with
  | everySec => simp [Log.reached, hw, hseq]
  | always => simp [Log.reached, hs.synced hf hpol hb, hw, hseq]

/-- A record still pending has a signal the writer has not consumed. -/
theorem signalled_of_pending {s : Sys} (hd : s.Durable) (hs : s.Signalled)
    (hf : s.log.failed = none) {seq : ℕ} (hseq : seq ≤ s.log.appended) (ht : s.taken < seq) :
    (∃ c, s.phase = .flushing c) ∨ s.log.notify = true ∧ s.phase.last = false := by
  have hr : s.log.records ≠ [] := by
    intro h0
    rw [hd.appended] at hseq
    simp only [taken, h0, List.length_nil] at ht
    omega
  by_cases hfl : ∃ c, s.phase = .flushing c
  · exact Or.inl hfl
  · refine Or.inr ⟨(hs.notified hf hr).resolve_right hfl, ?_⟩
    by_contra hl
    exact hr (hs.drained hf (by simpa using hl) (not_exists.mp hfl))

structure Awake (s : Sys) : Prop where
  durable : s.Durable
  signalled : s.Signalled
  waiting : s.Waiting

theorem awake_run {policy : Policy} {now : ℤ} {es : List Event} {s : Sys}
    (hrun : runSteps step (init policy now) es = some s) : s.Awake := by
  refine runSteps_invariant (I := Awake) ?_ hrun
    ⟨durable_init policy now, signalled_init policy now, fun c seq p h => by cases h⟩
  intro s e t hstep h
  have hm := step_moves hstep
  exact ⟨durable_moves hm h.durable, signalled_moves hm h.durable h.signalled,
    waiting_moves hm h.waiting⟩

/-- In every reachable state a caller parked under the log's policy for an appended record finds
the log open and the record short of the policy, and the writer still has the flush that reaches
it to run. Pending records never find the writer parked without a notification. -/
theorem await_not_stranded {policy : Policy} {now : ℤ} {es : List Event} {s : Sys}
    (hrun : runSteps step (init policy now) es = some s) :
    (∀ c seq, s.callers c = .parked seq s.log.policy → seq ≤ s.log.appended →
      s.log.failed = none ∧ s.log.closed = false ∧ s.log.reached seq s.log.policy = false ∧
        s.Handles seq ∧ (s.phase.inFlush = true ∨ s.log.notify = true)) ∧
      (s.log.records ≠ [] → s.log.failed = none → s.phase = .waiting → s.log.notify = true) := by
  obtain ⟨hd, hs, hw⟩ := awake_run hrun
  refine ⟨fun c seq hc hseq => ?_, fun hr hf hp => ?_⟩
  · obtain ⟨hf, hcl, hre⟩ := awaitCheck_eq_none (hw c seq _ hc)
    refine ⟨hf, hcl, hre, ?_⟩
    by_cases ht : seq ≤ s.taken
    · have hb : s.phase.busy = true := by
        by_contra hb
        rw [reached_of_not_busy hd hs hf (by simpa using hb) ht] at hre
        cases hre
      refine ⟨by rwa [Handles, if_pos ht], Or.inl ?_⟩
      cases hp : s.phase <;> simp_all [Phase.busy, Phase.inFlush]
    · have hsig := signalled_of_pending hd hs hf hseq (not_le.mp ht)
      refine ⟨by rwa [Handles, if_neg ht], ?_⟩
      rcases hsig with ⟨c, hp⟩ | ⟨hn, -⟩
      · exact Or.inl (by rw [hp]; rfl)
      · exact Or.inr hn
  · exact (hs.notified hf hr).resolve_right (by simp [hp])

/-- A caller parks behind a record it has just appended. -/
def parkedSchedule : List Event :=
  [.append (.del [[107]]), .await 0 1 .always, .check 0]

theorem await_not_stranded_parked :
    ∃ s, runSteps step (init .always 0) parkedSchedule = some s ∧
      s.callers 0 = .parked 1 s.log.policy ∧ s.log.reached 1 s.log.policy = false ∧
        s.log.notify = true := by
  have hrun : runSteps step (init .always 0) parkedSchedule = some _ := rfl
  have h := await_not_stranded hrun
  exact ⟨_, hrun, rfl, (h.1 0 1 rfl le_rfl).2.2.1, h.2 (List.cons_ne_nil _ _) rfl rfl⟩

end Sys

end GoKv.Aof
