import GoKv.Aof.Durable
import GoKv.Engine.Effects

/-! What a call leaves behind when it is refused, and what it records when it is not. -/
namespace GoKv
open GoLib GoKv.Aof

def Op.reports : Op → Reply → Bool
  | .set _ _ _, reply => !reply.isFailed
  | .incrBy _ _, reply => !reply.isFailed
  | .expire _ _, .flag applied => applied
  | .persist _, .flag removed => removed
  | .delete _, .count removed => 0 < removed
  | _, _ => false

theorem Op.reports_failed (op : Op) (err : EngineErr) : op.reports (.failed err) = false := by
  cases op <;> rfl

theorem Reply.of_map {α β : Type*} (f : β → Reply) (g : α → β) (x : Except EngineErr α) :
    Reply.of f (x.map g) = Reply.of (fun a => f (g a)) x := by
  cases x <;> rfl

namespace Engine

/-- What a call with the log `l` does: it is refused and changes nothing, or it reports no change
and no later instant sees one, or it reports a change and appends one record to an open log. -/
inductive Outcome (e : Engine) (l : Sys) (now : ℤ) (op : Op) (reply : Reply) : Engine → Prop where
  | refused (hf : reply.isFailed = true) (hr : op.reports reply = false) :
      Outcome e l now op reply e
  | idle {s : Store} (hf : reply.isFailed = false) (hr : op.reports reply = false)
      (hview : ∀ t, now ≤ t → ∀ k, liveAt t (s.entry k) = e.view t k) :
      Outcome e l now op reply { e with store := s }
  | recorded {s : Store} (r : Record) (hf : reply.isFailed = false)
      (hr : op.reports reply = true) (hopen : l.log.failed = none) (hc : l.log.closing = false) :
      Outcome e l now op reply
        { e with store := s, log := some (l.appendTo r), appliedSeq := l.log.nextSeq + 1 }

variable {e : Engine} {l : Sys} {now : ℤ}

theorem outcome_failed (op : Op) (err : EngineErr) : Outcome e l now op (.failed err) e :=
  .refused rfl (op.reports_failed err)

theorem outcome_keep {op : Op} {reply : Reply} (hf : reply.isFailed = false)
    (hr : op.reports reply = false) : Outcome e l now op reply e :=
  .idle hf hr fun _ _ _ => rfl

theorem outcome_commit (hl : e.log = some l) {op : Op} {rec : Record} {apply : Store → Store}
    {f : ℕ → Reply} (hf : ∀ seq, (f seq).isFailed = false)
    (hr : ∀ seq, op.reports (f seq) = true) :
    Outcome e l now op (.of f (e.commitRecord rec apply).1) (e.commitRecord rec apply).2 := by
  have hcommit : e.commitRecord rec apply = e.commit l rec apply := by rw [commitRecord, hl]
  rw [hcommit, commit]
  rcases l.append_cases rec with ⟨err, -, h⟩ | ⟨hopen, hc, -, -, h⟩
  · simp only [h, ← hl]
    exact outcome_failed op _
  · simp only [h]
    exact .recorded rec (hf _) (hr _) hopen hc

private theorem outcome_set (hl : e.log = some l) (key value : Bytes) (t : TTL) :
    Outcome e l now (.set key value t) (e.exec now (.set key value t)).1
      (e.exec now (.set key value t)).2 := by
  cases ha : e.acceptingMutations with
  | false =>
    simp only [exec, set, ha, Bool.false_eq_true, if_false]
    exact outcome_failed _ _
  | true =>
    simp only [exec, set, ha, if_true]
    exact outcome_commit hl (fun _ => rfl) fun _ => rfl

private theorem outcome_expire (hl : e.log = some l) (key : Bytes) (d : Duration) :
    Outcome e l now (.expire key d) (e.exec now (.expire key d)).1
      (e.exec now (.expire key d)).2 := by
  cases ha : e.acceptingMutations with
  | false =>
    simp only [exec, expire, ha, Bool.false_eq_true, if_false]
    exact outcome_failed _ _
  | true =>
    simp only [exec, expire, ha, if_true]
    cases e.store.get key now with
    | none => exact outcome_keep rfl rfl
    | some value =>
      dsimp only
      rw [Reply.of_map]
      exact outcome_commit hl (fun _ => rfl) fun _ => rfl

private theorem outcome_persist (hl : e.log = some l) (key : Bytes) :
    Outcome e l now (.persist key) (e.exec now (.persist key)).1
      (e.exec now (.persist key)).2 := by
  cases ha : e.acceptingMutations with
  | false =>
    simp only [exec, persist, ha, Bool.false_eq_true, if_false]
    exact outcome_failed _ _
  | true =>
    simp only [exec, persist, ha, if_true]
    cases e.store.get key now with
    | none => exact outcome_keep rfl rfl
    | some value =>
      dsimp only
      split_ifs
      · exact outcome_keep rfl rfl
      · rw [Reply.of_map]
        exact outcome_commit hl (fun _ => rfl) fun _ => rfl

theorem outcome_incrFrom (hl : e.log = some l) (key : Bytes) (n delta : Int64) (d : Option ℤ) :
    Outcome e l now (.incrBy key delta) (.of (fun a => .int a.1) (e.incrFrom key n delta d).1)
      (e.incrFrom key n delta d).2 := by
  unfold incrFrom
  split_ifs
  · exact outcome_failed _ _
  · dsimp only
    rw [Reply.of_map]
    exact outcome_commit hl (fun _ => rfl) fun _ => rfl

private theorem outcome_incrBy (hl : e.log = some l) (key : Bytes) (delta : Int64) :
    Outcome e l now (.incrBy key delta) (e.exec now (.incrBy key delta)).1
      (e.exec now (.incrBy key delta)).2 := by
  cases ha : e.acceptingMutations with
  | false =>
    simp only [exec, incrBy, ha, Bool.false_eq_true, if_false]
    exact outcome_failed _ _
  | true =>
    simp only [exec, incrBy, ha, if_true]
    cases e.store.get key (e.readNow now) with
    | none => exact outcome_incrFrom hl key 0 delta none
    | some value =>
      cases hn : parseStoredInt value with
      | none =>
        simp only [hn]
        exact outcome_failed _ _
      | some n =>
        simp only [hn]
        exact outcome_incrFrom hl key n delta _

/-- Keys that hold nothing at an instant can be removed unseen by any later one. -/
theorem view_deleteAll {keys : List Bytes} (h : Change.present (e.view now) keys = []) {t : ℤ}
    (ht : now ≤ t) (k : Bytes) :
    liveAt t ((keys.foldl (fun s k => (s.delete k).2) e.store).entry k) = e.view t k := by
  rw [Store.entry_deleteAll]
  split_ifs with hk
  · have hnone : e.view now k = none := by
      by_contra hne
      have hmem := Change.mem_present.mpr ⟨hk, Option.isSome_iff_ne_none.mpr hne⟩
      rw [h] at hmem
      cases hmem
    rw [view, ← liveAt_liveAt ht (e.store.entry k),
      show liveAt now (e.store.entry k) = none from hnone]
  · rfl

private theorem outcome_delete (hl : e.log = some l) (keys : List Bytes) :
    Outcome e l now (.delete keys) (e.exec now (.delete keys)).1
      (e.exec now (.delete keys)).2 := by
  cases ha : e.acceptingMutations with
  | false =>
    simp only [exec, delete, ha, Bool.false_eq_true, if_false]
    exact outcome_failed _ _
  | true =>
    have hlive : liveDistinct e.store (e.readNow now) keys [] =
        Change.present (e.view now) keys := by
      rw [liveDistinct_eq]
      simp
    simp only [exec, delete, if_pos ha, hlive]
    split_ifs with hnil
    · have hnone := List.length_eq_zero_iff.mp hnil
      exact .idle rfl rfl fun t ht k => view_deleteAll hnone ht k
    · rw [Reply.of_map]
      exact outcome_commit hl (fun _ => rfl) fun _ => decide_eq_true (Nat.pos_of_ne_zero hnil)

theorem exec_outcome (hl : e.log = some l) (now : ℤ) (op : Op) :
    Outcome e l now op (e.exec now op).1 (e.exec now op).2 := by
  cases op with
  | set key value t => exact outcome_set hl key value t
  | expire key d => exact outcome_expire hl key d
  | persist key => exact outcome_persist hl key
  | delete keys => exact outcome_delete hl keys
  | incrBy key delta => exact outcome_incrBy hl key delta
  | _ => exact outcome_keep rfl rfl

end Engine

/-! ## Runs -/

/-- A step of a run, or the end of mutation admission. -/
inductive Admission where
  | call (c : Call)
  | beginDrain

namespace Session

def stepDrain (s : Session) : Admission → Option Session
  | .call c => s.step c
  | .beginDrain => some { s with engine := s.engine.beginDrain }

/-- Memory has applied exactly the records that were appended. -/
def Applied (s : Session) (l : Sys) : Prop :=
  s.engine.log = some l ∧ l.Durable ∧ s.engine.appliedSeq = l.journal.length

theorem applied_step {s t : Session} {l : Sys} {e : Admission} (h : s.Applied l)
    (hstep : s.stepDrain e = some t) :
    ∃ l', t.Applied l' ∧ s.clock ≤ t.clock ∧
      (l.log.failed ≠ none → l'.log.failed ≠ none ∧
        ∀ u, t.clock ≤ u → ∀ k, t.engine.view u k = s.engine.view u k) := by
  obtain ⟨hl, hd, hseq⟩ := h
  cases e with
  | beginDrain =>
    cases hstep
    exact ⟨l, ⟨hl, hd, hseq⟩, le_rfl, fun hf => ⟨hf, fun _ _ _ => rfl⟩⟩
  | call c =>
    cases c with
    | op now op =>
      rw [stepDrain, step] at hstep
      split_ifs at hstep with hc
      have hout := Engine.exec_outcome hl now op
      generalize s.engine.exec now op = res at hout hstep
      obtain ⟨reply, e'⟩ := res
      cases hstep
      cases hout with
      | refused => exact ⟨l, ⟨hl, hd, hseq⟩, hc.1, fun hf => ⟨hf, fun _ _ _ => rfl⟩⟩
      | idle _ _ hview => exact ⟨l, ⟨hl, hd, hseq⟩, hc.1, fun hf => ⟨hf, hview⟩⟩
      | recorded r _ _ hopen =>
        refine ⟨l.appendTo r, ⟨rfl, Sys.durable_appendTo hd r, ?_⟩, hc.1,
          fun hf => absurd hopen hf⟩
        change l.log.nextSeq + 1 = (l.journal ++ [r]).length
        rw [hd.nextSeq, List.length_append, List.length_singleton]
    | sweep now order =>
      rw [stepDrain, step] at hstep
      split_ifs at hstep with hc
      cases hstep
      refine ⟨l, ⟨hl, hd, hseq⟩, hc.1, fun hf => ⟨hf, fun u hu k => ?_⟩⟩
      exact Store.liveAt_reclaimExpired hu s.engine.store _ order k
    | log ev =>
      obtain ⟨l₀, l', hl₀, hne, hl', rfl⟩ := log_step hstep
      obtain rfl : l₀ = l := Option.some.inj (hl₀.symm.trans hl)
      have hm := Sys.step_moves hl'
      refine ⟨l', ⟨rfl, Sys.durable_moves hm hd, ?_⟩, le_rfl, fun hf => ⟨?_, fun _ _ _ => rfl⟩⟩
      · rw [Sys.journal_of_step hl' hne]
        exact hseq
      · rw [(Sys.frozen_moves hm hd hf).2]
        exact hf

theorem applied_run {s t : Session} {l : Sys} (h : s.Applied l) {es : List Admission}
    (hrun : runSteps stepDrain s es = some t) : ∃ l', t.Applied l' := by
  refine runSteps_invariant (I := fun s => ∃ l, s.Applied l) ?_ hrun ⟨l, h⟩
  rintro s e t hstep ⟨l, hl⟩
  obtain ⟨l', hl', -⟩ := applied_step hl hstep
  exact ⟨l', hl'⟩

/-- Once the log has failed, no later instant sees anything change. -/
theorem view_run_of_failed {s t : Session} {l : Sys} (h : s.Applied l) (hf : l.log.failed ≠ none)
    {es : List Admission} (hrun : runSteps stepDrain s es = some t) {u : ℤ} (hu : t.clock ≤ u)
    (k : Bytes) : t.engine.view u k = s.engine.view u k := by
  have hrel := runSteps_relates (I := fun s => ∃ l, s.Applied l ∧ l.log.failed ≠ none)
    (r := fun s t => s.clock ≤ t.clock ∧
      ∀ u, t.clock ≤ u → ∀ k, t.engine.view u k = s.engine.view u k)
    (fun s => ⟨le_rfl, fun _ _ _ => rfl⟩) ?_ ?_ ?_ hrun ⟨l, h, hf⟩
  · exact hrel.2 u hu k
  · rintro s t u ⟨hst, hview⟩ ⟨htu, hview'⟩
    exact ⟨hst.trans htu, fun v hv k => (hview' v hv k).trans (hview v (htu.trans hv) k)⟩
  · rintro s e t hstep ⟨l, hl, hf⟩
    obtain ⟨l', hl', -, hstay⟩ := applied_step hl hstep
    exact ⟨l', hl', (hstay hf).1⟩
  · rintro s e t hstep ⟨l, hl, hf⟩
    obtain ⟨l', -, hclock, hstay⟩ := applied_step hl hstep
    exact ⟨hclock, (hstay hf).2⟩

end Session

open Engine Session

/-- In every state a run with a log reaches. A call that fails leaves the engine and its log
exactly as they were; any other appends one record if it reports an applied change, and otherwise
none, unseen at every later instant. The applied sequence number is that of the last record
appended, and after the log has failed nothing visible changes any more. -/
theorem mutation_records {store : Store} {accepting : Bool} {policy : Policy} {started clock : ℤ}
    {es : List Admission} {s : Session}
    (hrun : runSteps stepDrain
      (.start ⟨store, accepting, some (.init policy started), 0⟩ clock) es = some s) :
    ∃ l, s.engine.log = some l ∧ s.engine.appliedSeq = l.journal.length ∧
      l.log.nextSeq = l.journal.length ∧
      (∀ now op reply e', s.engine.exec now op = (reply, e') →
        (reply.isFailed = true → e' = s.engine) ∧
        (reply.isFailed = false → op.reports reply = true →
          ∃ r, e'.log = some (l.appendTo r) ∧ e'.appliedSeq = (l.journal ++ [r]).length) ∧
        (reply.isFailed = false → op.reports reply = false →
          e'.log = some l ∧ e'.appliedSeq = s.engine.appliedSeq ∧
          ∀ t, now ≤ t → ∀ k, e'.view t k = s.engine.view t k)) ∧
      (l.log.failed ≠ none → ∀ fs u, runSteps stepDrain s fs = some u →
        ∀ t, u.clock ≤ t → ∀ k, u.engine.view t k = s.engine.view t k) := by
  have hstart : (Session.start ⟨store, accepting, some (.init policy started), 0⟩ clock).Applied
      (.init policy started) := ⟨rfl, Sys.durable_init policy started, rfl⟩
  obtain ⟨l, hl, hd, hseq⟩ := applied_run hstart hrun
  refine ⟨l, hl, hseq, hd.nextSeq, ?_, fun hf fs u hu t ht k =>
    view_run_of_failed ⟨hl, hd, hseq⟩ hf hu ht k⟩
  intro now op reply e' hexec
  have hout := exec_outcome hl now op
  rw [hexec] at hout
  cases hout with
  | refused hf hr =>
    dsimp only at hf
    refine ⟨fun _ => rfl, fun h => ?_, fun h => ?_⟩ <;> rw [hf] at h <;> cases h
  | idle hf hr hview =>
    dsimp only at hf hr
    refine ⟨fun h => ?_, fun _ h => ?_, fun _ _ => ⟨hl, rfl, hview⟩⟩
    · rw [hf] at h; cases h
    · rw [hr] at h; cases h
  | recorded r hf hr =>
    dsimp only at hf hr
    refine ⟨fun h => ?_, fun _ _ => ⟨r, rfl, ?_⟩, fun _ h => ?_⟩
    · rw [hf] at h; cases h
    · rw [List.length_append, List.length_singleton, ← hd.nextSeq]
    · rw [hr] at h; cases h

def failedCalls : List Admission :=
  [.call (.op 0 (.set [107] [118] .noExpiry)), .call (.log .recvNotify), .call (.log .swap),
    .call (.log (.write 3 (some 5))), .call (.log .advanceWritten), .call (.log .fail)]

/-- After the failure a deletion is refused. -/
theorem mutation_records_failed :
    ∃ s, runSteps stepDrain (.start ⟨.new, true, some (.init .everySec 0), 0⟩ 0) failedCalls =
        some s ∧
      (s.engine.exec 1 (.delete [[107]])).1.isFailed = true ∧
      (s.engine.exec 1 (.delete [[107]])).2 = s.engine := by
  have hrun : ∃ s, runSteps stepDrain (.start ⟨.new, true, some (.init .everySec 0), 0⟩ 0)
      failedCalls = some s ∧ (s.engine.exec 1 (.delete [[107]])).1.isFailed = true :=
    ⟨_, rfl, rfl⟩
  obtain ⟨s, hrun, hfailed⟩ := hrun
  obtain ⟨l, -, -, -, hcalls, -⟩ := mutation_records hrun
  exact ⟨s, hrun, hfailed, (hcalls 1 (.delete [[107]]) _ _ rfl).1 hfailed⟩

end GoKv
