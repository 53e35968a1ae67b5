import GoKv.Aof.LogSteps

/-! The file is a prefix of the appended records, and the markers never run ahead of it. -/
namespace GoKv.Aof
open GoLib

/-! ## Batches -/

/-- The end offsets of a batch whose first record has sequence number `seq + 1` and starts at
offset `base`. -/
def pendings (seq base : ℕ) : List Record → List Pending
  | [] => []
  | r :: rs => ⟨seq + 1, base + r.bytes.length⟩ :: pendings (seq + 1) (base + r.bytes.length) rs

private theorem pendings_concat (seq base : ℕ) (rs : List Record) (r : Record) :
    pendings seq base (rs ++ [r]) = pendings seq base rs ++
      [⟨seq + rs.length + 1, base + (encodes rs ++ r.bytes).length⟩] := by
  induction rs generalizing seq base with
  | nil => simp [pendings]
  | cons t ts ih =>
    simp only [List.cons_append, pendings, ih, encodes_cons, List.length_append, List.length_cons]
    congr 4 <;> omega

/-- A write that delivered `n` bytes advances the marker over the records wholly within them,
and over all of them when the whole batch was delivered. -/
theorem lastWhole_pendings (w base n : ℕ) (rs : List Record) (hb : base ≤ n) :
    ∃ m ≤ rs.length, Log.lastWhole w (pendings w base rs) n = w + m ∧
      base + (encodes (rs.take m)).length ≤ n ∧
      (base + (encodes rs).length ≤ n → m = rs.length) := by
  induction rs generalizing w base with
  | nil => exact ⟨0, le_rfl, rfl, by simpa using hb, fun _ => rfl⟩
  | cons r rs ih =>
    simp only [pendings, Log.lastWhole]
    split_ifs with hlt
    · refine ⟨0, by simp, rfl, by simpa using hb, fun hall => ?_⟩
      rw [encodes_cons, List.length_append] at hall
      omega
    · obtain ⟨m, hm, hlast, hfit, hall⟩ := ih (w + 1) (base + r.bytes.length) (not_lt.mp hlt)
      refine ⟨m + 1, by simpa using hm, by rw [hlast]; omega, ?_, fun h => ?_⟩
      · rw [List.take_succ_cons, encodes_cons, List.length_append]
        omega
      · rw [encodes_cons, List.length_append] at h
        simp [hall (by omega)]

namespace Sys

/-- How many records the writer has taken out of the pending batch. -/
def taken (s : Sys) : ℕ := s.journal.length - s.log.records.length

def inFlight (s : Sys) : List Record := (s.journal.take s.taken).drop s.log.written

def Settled (s : Sys) : Prop :=
  s.log.written = s.taken ∧ s.accepted = encodes (s.journal.take s.taken)

/-- What holds between the file and the batch at each point of flush. -/
def Flight (s : Sys) : Phase → Prop
  | .writing _ batch records total =>
    s.log.failed = none ∧ batch = encodes s.inFlight ∧
      records = pendings s.log.written 0 s.inFlight ∧ total ≤ batch.length ∧
      s.accepted = encodes (s.journal.take s.log.written) ++ batch.take total
  | .advancing _ records n err =>
    s.log.failed = none ∧ records = pendings s.log.written 0 s.inFlight ∧
      (err = none → (encodes s.inFlight).length ≤ n) ∧
      s.accepted = encodes (s.journal.take s.log.written) ++ (encodes s.inFlight).take n
  | .unsynced _ => s.log.failed = none ∧ s.Settled
  | .syncing _ began => s.log.failed = none ∧ s.Settled ∧ began = s.accepted.length
  | .advancingSynced _ => s.log.failed = none ∧ s.Settled ∧ s.durable = s.accepted.length
  | .failing _ _ => s.log.failed = none
  | .reporting _ => s.log.failed ≠ none
  | _ => s.log.failed = none → s.Settled

/-- The invariant of the log: the journal is written, in flight and pending, in that order. -/
structure Durable (s : Sys) : Prop where
  nextSeq : s.log.nextSeq = s.journal.length
  appended : s.log.appended = s.journal.length
  records_le : s.log.records.length ≤ s.journal.length
  records : s.log.records = pendings s.taken 0 (s.journal.drop s.taken)
  buf : s.log.buf = encodes (s.journal.drop s.taken)
  written_le : s.log.written ≤ s.taken
  synced_le : s.log.synced ≤ s.log.written
  wholly : encodes (s.journal.take s.log.written) <+: s.accepted
  accepted : s.accepted <+: encodes (s.journal.take s.taken)
  durable_le : s.durable ≤ s.accepted.length
  covered : encodes (s.journal.take s.log.synced) <+: s.accepted.take s.durable
  flight : s.Flight s.phase
  acks : ∀ c seq p, s.callers c = .returned seq p (.ok ()) → s.log.reached seq p = true

theorem taken_le (s : Sys) : s.taken ≤ s.journal.length := Nat.sub_le _ _

/-- The records taken out, split at the written marker. -/
theorem encodes_taken {s : Sys} (h : s.log.written ≤ s.taken) :
    encodes (s.journal.take s.taken) =
      encodes (s.journal.take s.log.written) ++ encodes s.inFlight := by
  rw [← encodes_append, inFlight]
  congr 1
  have := List.take_append_drop s.log.written (s.journal.take s.taken)
  rwa [List.take_take, Nat.min_eq_left h, eq_comm] at this

theorem taken_appendTo (s : Sys) (r : Record) (h : s.log.records.length ≤ s.journal.length) :
    (s.appendTo r).taken = s.taken := by
  simp only [taken, appendTo, List.length_append, List.length_singleton]
  omega

theorem take_appendTo (s : Sys) (r : Record) {k : ℕ} (h : k ≤ s.journal.length) :
    (s.appendTo r).journal.take k = s.journal.take k :=
  List.take_append_of_le_length h

private theorem inFlight_appendTo (s : Sys) (r : Record)
    (h : s.log.records.length ≤ s.journal.length) :
    (s.appendTo r).inFlight = s.inFlight := by
  unfold inFlight
  rw [taken_appendTo s r h, take_appendTo s r s.taken_le]
  rfl

private theorem flight_appendTo {s : Sys} (h : s.Durable) (r : Record) :
    (s.appendTo r).Flight (s.appendTo r).phase := by
  have hw : s.log.written ≤ s.journal.length := h.written_le.trans s.taken_le
  have htw : (s.appendTo r).journal.take (s.appendTo r).log.written =
      s.journal.take s.log.written := take_appendTo s r hw
  have htt : (s.appendTo r).journal.take (s.appendTo r).taken = s.journal.take s.taken := by
    rw [taken_appendTo s r h.records_le, take_appendTo s r s.taken_le]
  have hset : s.Settled → (s.appendTo r).Settled := by
    rintro ⟨hm, ha⟩
    exact ⟨by rw [taken_appendTo s r h.records_le]; exact hm, by rw [htt]; exact ha⟩
  have hf := h.flight
  change (s.appendTo r).Flight s.phase
  cases hp : s.phase <;> simp only [hp, Flight, inFlight_appendTo s r h.records_le, htw] at hf ⊢
  case writing => exact hf
  case advancing => exact hf
  case unsynced => exact ⟨hf.1, hset hf.2⟩
  case syncing => exact ⟨hf.1, hset hf.2.1, hf.2.2⟩
  case advancingSynced => exact ⟨hf.1, hset hf.2.1, hf.2.2⟩
  case failing => exact hf
  case reporting => exact hf
  all_goals exact fun hn => hset (hf hn)

theorem durable_appendTo {s : Sys} (h : s.Durable) (r : Record) : (s.appendTo r).Durable := by
  have hw : s.log.written ≤ s.journal.length := h.written_le.trans s.taken_le
  have ht := taken_appendTo s r h.records_le
  have hdrop : (s.appendTo r).journal.drop (s.appendTo r).taken =
      s.journal.drop s.taken ++ [r] := by
    rw [ht]
    exact List.drop_append_of_le_length s.taken_le
  have hlen : s.taken + (s.journal.drop s.taken).length = s.journal.length := by
    rw [List.length_drop]
    have := s.taken_le
    omega
  refine
    { nextSeq := ?_, appended := ?_, records_le := ?_, records := ?_, buf := ?_, written_le := ?_,
      synced_le := h.synced_le, wholly := ?_, accepted := ?_, durable_le := h.durable_le,
      covered := ?_, flight := flight_appendTo h r, acks := h.acks }
  · simp [appendTo, h.nextSeq]
  · simp [appendTo, h.nextSeq]
  · simpa [appendTo] using h.records_le
  · rw [hdrop, ht, pendings_concat, ← h.records, ← h.buf, hlen, ← h.nextSeq]
    simp [appendTo]
  · rw [hdrop, encodes_append, ← h.buf]
    simp [appendTo]
  · rw [ht]; exact h.written_le
  · exact take_appendTo s r hw ▸ h.wholly
  · rw [ht, take_appendTo s r s.taken_le]; exact h.accepted
  · exact take_appendTo s r (h.synced_le.trans hw) ▸ h.covered

theorem wake_eq_returned {c : Caller} {seq : ℕ} {p : Policy} {res : Except AofErr Unit} :
    c.wake = .returned seq p res ↔ c = .returned seq p res := by
  cases c <;> simp [Caller.wake]

theorem awaitCheck_cases (l : Log) (seq : ℕ) (p : Policy) :
    (∃ e, l.awaitCheck seq p = some (.error e)) ∨
      l.awaitCheck seq p = some (.ok ()) ∧ l.reached seq p = true ∨
      l.awaitCheck seq p = none ∧ l.failed = none ∧ l.closed = false ∧
        l.reached seq p = false := by
  unfold Log.awaitCheck
  cases hf : l.failed with
  | some e => exact .inl ⟨_, rfl⟩
  | none =>
    cases hr : l.reached seq p with
    | true => exact .inr (.inl ⟨rfl, rfl⟩)
    | false =>
      cases hc : l.closed with
      | true => exact .inl ⟨_, rfl⟩
      | false => exact .inr (.inr ⟨rfl, rfl, rfl, rfl⟩)

/-- A caller that was told its record is durable has reached the marker of its policy. -/
theorem reached_of_awaitCheck {l : Log} {seq : ℕ} {p : Policy}
    (h : l.awaitCheck seq p = some (.ok ())) : l.reached seq p = true := by
  rcases awaitCheck_cases l seq p with ⟨e, he⟩ | ⟨-, hr⟩ | ⟨hn, -⟩
  · cases he.symm.trans h
  · exact hr
  · cases hn.symm.trans h

/-- Before the swap of a log that has not failed, all that was taken out is in the file. -/
theorem settled_of_flushing {s : Sys} {c : Cause} (h : s.Durable) (hp : s.phase = .flushing c)
    (hf : s.log.failed = none) : s.Settled := by
  have hfl := h.flight
  rw [hp] at hfl
  exact hfl hf

theorem flight_of_settled {s : Sys} {c : Cause} (hf : s.log.failed = none) (h : s.Settled) :
    s.Flight (afterWrite s.log c) := by
  unfold afterWrite
  split_ifs
  · exact ⟨hf, h⟩
  · exact fun _ => h

private theorem durable_swapEmpty {s : Sys} {c : Cause} (h : s.Durable) (hp : s.phase = .flushing c)
    (hf : s.log.failed = none) (hb : s.log.buf = []) :
    Durable { s with
      log := { s.log with buf := [], records := [] }, phase := afterWrite s.log c } := by
  have hnil : s.journal.drop s.taken = [] := by
    have := h.buf.symm.trans hb
    cases hd : s.journal.drop s.taken with
    | nil => rfl
    | cons r rs => rw [hd, encodes_cons] at this; simp [r.bytes_ne_nil] at this
  have hrec : s.log.records = [] := by rw [h.records, hnil]; rfl
  have heq : ({ s.log with buf := [], records := [] } : Log) = s.log := by
    rw [← hrec, ← hb]
  have hset := settled_of_flushing h hp hf
  rw [heq]
  exact { h with flight := flight_of_settled (s := { s with phase := afterWrite s.log c }) hf hset }

private theorem durable_swapBatch {s : Sys} {c : Cause} (h : s.Durable) (hp : s.phase = .flushing c)
    (hf : s.log.failed = none) :
    Durable { s with
      log := { s.log with buf := [], records := [] }
      phase := .writing c s.log.buf s.log.records 0 } := by
  obtain ⟨hw, ha⟩ := settled_of_flushing h hp hf
  refine
    { nextSeq := h.nextSeq, appended := h.appended, records_le := Nat.zero_le _, records := ?_,
      buf := ?_, written_le := h.written_le.trans s.taken_le, synced_le := h.synced_le,
      wholly := h.wholly, accepted := ?_, durable_le := h.durable_le, covered := h.covered,
      flight := ?_, acks := h.acks }
  · simp [taken, pendings]
  · simp [taken]
  · simpa [taken, ha] using prefix_encodes_take s.journal s.taken
  · refine ⟨hf, ?_, ?_, Nat.zero_le _, ?_⟩
    · simpa [inFlight, taken, hw] using h.buf
    · simpa [inFlight, taken, hw] using h.records
    · rw [ha, hw]; simp

theorem durable_write {s : Sys} (h : s.Durable) {c : Cause} {batch : Bytes}
    {records : List Pending} {total n : ℕ} (hp : s.phase = .writing c batch records total)
    {ph : Phase}
    (hfl : s.accepted ++ (batch.drop total).take n =
        encodes (s.journal.take s.log.written) ++ batch.take (total + n) →
      Flight { s with accepted := s.accepted ++ (batch.drop total).take n, phase := ph } ph) :
    Durable { s with accepted := s.accepted ++ (batch.drop total).take n, phase := ph } := by
  have hf := h.flight
  rw [hp] at hf
  obtain ⟨-, hb, -, -, ha⟩ := hf
  have hacc : s.accepted ++ (batch.drop total).take n =
      encodes (s.journal.take s.log.written) ++ batch.take (total + n) := by
    rw [ha, List.append_assoc, List.take_add]
  refine
    { h with
      wholly := h.wholly.trans (List.prefix_append _ _), accepted := ?_, durable_le := ?_,
      covered := ?_, flight := hfl hacc }
  · change s.accepted ++ _ <+: encodes (s.journal.take s.taken)
    rw [hacc, encodes_taken h.written_le, ← hb]
    exact (List.prefix_append_right_inj _).mpr (List.take_prefix _ _)
  · have := h.durable_le
    simp only [List.length_append]
    omega
  · change _ <+: (s.accepted ++ _).take s.durable
    rw [List.take_append_of_le_length h.durable_le]
    exact h.covered

/-- The markers after advanceWritten, and the parked callers woken. -/
def wrote (s : Sys) (records : List Pending) (n : ℕ) : Sys :=
  { s.broadcast with log := { s.log with written := Log.lastWhole s.log.written records n } }

theorem lastWhole_inFlight {s : Sys} {records : List Pending} {n : ℕ}
    (hrec : records = pendings s.log.written 0 s.inFlight) (hle : s.log.written ≤ s.taken) :
    ∃ m ≤ s.inFlight.length, Log.lastWhole s.log.written records n = s.log.written + m ∧
      s.log.written + m ≤ s.taken ∧ (encodes (s.inFlight.take m)).length ≤ n ∧
      ((encodes s.inFlight).length ≤ n → s.log.written + m = s.taken) := by
  obtain ⟨m, hm, hlast, hfit, hfull⟩ := lastWhole_pendings s.log.written 0 n s.inFlight n.zero_le
  have hlen : s.inFlight.length = s.taken - s.log.written := by
    simp [inFlight, Nat.min_eq_left s.taken_le]
  refine ⟨m, hm, hrec ▸ hlast, by omega, by omega, fun hall => ?_⟩
  have := hfull (by omega)
  omega

/-- Everything in flight was delivered, so everything taken out is in the file. -/
theorem settled_wrote {s : Sys} (h : s.Durable) {c : Cause} {records : List Pending} {n : ℕ}
    (hp : s.phase = .advancing c records n none) : (s.wrote records n).Settled := by
  have hf := h.flight
  rw [hp] at hf
  obtain ⟨-, hrec, hall, ha⟩ := hf
  obtain ⟨m, -, hlast, -, -, hfull⟩ := lastWhole_inFlight (n := n) hrec h.written_le
  refine ⟨hlast.trans (hfull (hall rfl)), ?_⟩
  change s.accepted = encodes (s.journal.take s.taken)
  rw [ha, List.take_of_length_le (hall rfl), encodes_taken h.written_le]

/-- advanceWritten moves the marker to the last record wholly delivered, and no further. -/
theorem durable_wrote {s : Sys} (h : s.Durable) {c : Cause} {records : List Pending} {n : ℕ}
    {err : Option FileErr} (hp : s.phase = .advancing c records n err) {ph : Phase}
    (hfl : Flight { s.wrote records n with phase := ph } ph) :
    Durable { s.wrote records n with phase := ph } := by
  have hf := h.flight
  rw [hp] at hf
  obtain ⟨-, hrec, -, ha⟩ := hf
  obtain ⟨m, -, hlast, hle, hfit, -⟩ := lastWhole_inFlight (n := n) hrec h.written_le
  have htake : encodes (s.journal.take (s.log.written + m)) =
      encodes (s.journal.take s.log.written) ++ encodes (s.inFlight.take m) := by
    rw [List.take_add, encodes_append, inFlight, List.drop_take, List.take_take,
      Nat.min_eq_left (by omega)]
  refine
    { h with
      written_le := hlast.trans_le hle, synced_le := ?_, wholly := ?_, flight := hfl, acks := ?_ }
  · have := h.synced_le
    change s.log.synced ≤ Log.lastWhole s.log.written records n
    omega
  · change encodes (s.journal.take (Log.lastWhole s.log.written records n)) <+: s.accepted
    rw [hlast, htake, ha]
    apply (List.prefix_append_right_inj _).mpr
    apply List.prefix_of_prefix_length_le (prefix_encodes_take _ _) (List.take_prefix _ _)
    have := (prefix_encodes_take s.inFlight m).length_le
    rw [List.length_take]
    omega
  · intro c' seq p hret
    have := h.acks c' seq p (wake_eq_returned.mp hret)
    cases p with
    | always => exact this
    | everySec =>
      simp only [Log.reached, decide_eq_true_eq] at this ⊢
      change seq ≤ Log.lastWhole s.log.written records n
      omega

/-- One caller moves; nil is returned only for a record that is reached. -/
theorem durable_caller {s : Sys} (h : s.Durable) {c : ℕ} {k : Caller}
    (hk : ∀ seq p, k = .returned seq p (.ok ()) → s.log.reached seq p = true) :
    Durable { s with callers := Function.update s.callers c k } := by
  refine { h with flight := h.flight, acks := ?_ }
  intro c' seq' p' hret
  by_cases hc : c' = c
  · subst hc
    simp only [Function.update_self] at hret
    exact hk seq' p' hret
  · simp only [Function.update_of_ne hc] at hret
    exact h.acks c' seq' p' hret

theorem durable_moves {s t : Sys} {e : Event} (hm : Moves s e t) (h : s.Durable) : t.Durable := by
  have hf := h.flight
  have hwake : ∀ c seq p, (s.callers c).wake = .returned seq p (.ok ()) →
      s.log.reached seq p = true :=
    fun c seq p hret => h.acks c seq p (wake_eq_returned.mp hret)
  cases hm with
  | appended r => exact durable_appendTo h r
  | refused => exact h
  | called c seq p | parked c seq p => exact durable_caller h nofun
  | returned c seq p res _ hr =>
    refine durable_caller h fun seq' p' hk => ?_
    cases hk
    exact reached_of_awaitCheck hr
  | beginClose | signalClose => exact { h with flight := h.flight }
  | recvNotify hp | recvTick now hp | dropTick now hp | recvClose hp | swapFailed c hp
  | loopClose now hp | loopTick now t hp | closeFile hp =>
    rw [hp] at hf
    exact { h with flight := hf }
  | swapEmpty c hp hn hb => exact durable_swapEmpty h hp hn hb
  | swapBatch c hp hn => exact durable_swapBatch h hp hn
  | writeMore c batch records total n hp hn hlt =>
    rw [hp] at hf
    obtain ⟨hnf, hb, hrec, -, -⟩ := hf
    exact durable_write h hp fun hacc => ⟨hnf, hb, hrec, hlt.le, hacc⟩
  | writeStop c batch records total n err res hp hn hres =>
    rw [hp] at hf
    obtain ⟨hnf, hb, hrec, -, -⟩ := hf
    exact durable_write h hp fun hacc =>
      ⟨hnf, hrec, fun hnone => (congrArg List.length hb).symm.trans_le (hres hnone), hb ▸ hacc⟩
  | wroteErr c records n e hp => rw [hp] at hf; exact durable_wrote h hp hf.1
  | wroteAll c records n hp =>
    rw [hp] at hf
    exact durable_wrote h hp (flight_of_settled
      (s := { s.wrote records n with phase := afterWrite s.log c }) hf.1 (settled_wrote h hp))
  | beginSync c hp => rw [hp] at hf; exact { h with flight := ⟨hf.1, hf.2, rfl⟩ }
  | syncErr c began e hp => rw [hp] at hf; exact { h with flight := hf.1 }
  | syncOk c began hp =>
    rw [hp] at hf
    obtain ⟨hnf, hset, rfl⟩ := hf
    refine { h with durable_le := le_rfl, covered := ?_, flight := ⟨hnf, hset, rfl⟩ }
    change _ <+: s.accepted.take s.accepted.length
    rw [List.take_length]
    exact (prefix_encodes_take_take _ h.synced_le).trans h.wholly
  | advanceSynced c hp =>
    rw [hp] at hf
    obtain ⟨hnf, hset, hdur⟩ := hf
    refine { h with synced_le := le_rfl, covered := ?_, flight := fun _ => hset, acks := ?_ }
    · change encodes (s.journal.take s.log.written) <+: s.accepted.take s.durable
      rw [hdur, List.take_length]
      exact h.wholly
    · intro c' seq p hret
      have := hwake c' seq p hret
      have hle := h.synced_le
      cases p with
      | always =>
        simp only [Log.reached, decide_eq_true_eq] at this ⊢
        exact this.trans hle
      | everySec => exact this
  | fail c e hp =>
    refine { h with flight := ?_, acks := hwake }
    change s.log.failed.or (some e) ≠ none
    cases s.log.failed <;> simp
  | report c hp => rw [hp] at hf; exact { h with flight := fun hn => absurd hn hf }
  | loopKeep now hp =>
    rcases hp with hp | hp <;> (rw [hp] at hf; exact { h with flight := hf })
  | finish hp => rw [hp] at hf; exact { h with flight := hf, acks := hwake }

theorem durable_init (policy : Policy) (now : ℤ) : (init policy now).Durable := by
  constructor <;> simp [init, Log.init, taken, pendings, Flight, Settled]

theorem durable_run {policy : Policy} {now : ℤ} {es : List Event} {s : Sys}
    (h : runSteps step (init policy now) es = some s) : s.Durable :=
  runSteps_invariant (fun _ _ _ hs => durable_moves (step_moves hs)) h (durable_init policy now)

/-- A failed log stays failed and its file never changes again. -/
theorem frozen_moves {s t : Sys} {e : Event} (hm : Moves s e t) (h : s.Durable)
    (hf : s.log.failed ≠ none) : t.accepted = s.accepted ∧ t.log.failed = s.log.failed := by
  have hfl := h.flight
  cases hm with
  | writeMore c batch records total n hp | writeStop c batch records total n err res hp =>
    rw [hp] at hfl
    exact absurd hfl.1 hf
  | fail c e hp => rw [hp] at hfl; exact absurd hfl hf
  | _ => exact ⟨rfl, rfl⟩

theorem frozen_run {s t : Sys} {es : List Event} (h : runSteps step s es = some t)
    (hs : s.Durable) (hf : s.log.failed ≠ none) : t.accepted = s.accepted := by
  refine runSteps_relates (I := fun u => u.Durable ∧ u.log.failed ≠ none)
    (r := fun u v => v.accepted = u.accepted) (fun _ => rfl) ?_ ?_ ?_ h ⟨hs, hf⟩
  · intro u v w huv hvw
    exact hvw.trans huv
  · rintro u e v hstep ⟨hu, hfu⟩
    refine ⟨durable_moves (step_moves hstep) hu, ?_⟩
    rwa [(frozen_moves (step_moves hstep) hu hfu).2]
  · rintro u e v hstep ⟨hu, hfu⟩
    exact (frozen_moves (step_moves hstep) hu hfu).1

/-- What a crash can leave of the file: any prefix that holds everything the last successful
Sync covered. -/
def CrashImage (s : Sys) (b : Bytes) : Prop := b <+: s.accepted ∧ s.durable ≤ b.length

theorem crashImage_covers {s : Sys} (h : s.Durable) {b : Bytes} (hb : s.CrashImage b) {seq : ℕ}
    (hs : seq ≤ s.log.synced) : encodes (s.journal.take seq) <+: b := by
  have hcov := (prefix_encodes_take_take s.journal hs).trans h.covered
  have htake : s.accepted.take s.durable <+: b :=
    List.prefix_of_prefix_length_le (List.take_prefix _ _) hb.1 (by
      rw [List.length_take]
      have := hb.2
      omega)
  exact hcov.trans htake

/-- For every schedule of callers, writer and file. The file is a prefix of the
appended records and is left alone once the log has failed; the markers are
ordered and cover whole records; a nil from Await means that the record and all
before it are in the file, under always in every image a crash can leave. -/
theorem log_prefix_durable (policy : Policy) (now : ℤ) (es : List Event) (s : Sys)
    (h : runSteps step (init policy now) es = some s) :
    (s.accepted <+: encodes s.journal ∧
      (s.log.failed ≠ none → ∀ fs t, runSteps step s fs = some t → t.accepted = s.accepted)) ∧
    (s.log.synced ≤ s.log.written ∧ s.log.written ≤ s.log.appended ∧
      s.log.appended = s.journal.length ∧
      encodes (s.journal.take s.log.written) <+: s.accepted ∧
      encodes (s.journal.take s.log.synced) <+: s.accepted.take s.durable) ∧
    (∀ c seq p, s.callers c = .returned seq p (.ok ()) →
      seq ≤ s.journal.length ∧ encodes (s.journal.take seq) <+: s.accepted ∧
      (p = .always → ∀ b, s.CrashImage b → encodes (s.journal.take seq) <+: b)) := by
  have hd := durable_run h
  have hwl : s.log.written ≤ s.journal.length := hd.written_le.trans s.taken_le
  refine ⟨⟨hd.accepted.trans (prefix_encodes_take _ _), fun hf fs t ht => frozen_run ht hd hf⟩,
    ⟨hd.synced_le, hd.appended ▸ hwl, hd.appended, hd.wholly, hd.covered⟩, ?_⟩
  intro c seq p hret
  have hr := hd.acks c seq p hret
  have hseq : seq ≤ s.log.written := by
    cases p with
    | always => simp only [Log.reached, decide_eq_true_eq] at hr; exact hr.trans hd.synced_le
    | everySec => simpa [Log.reached] using hr
  refine ⟨hseq.trans hwl, (prefix_encodes_take_take _ hseq).trans hd.wholly, ?_⟩
  rintro rfl b hb
  exact crashImage_covers hd hb (by simpa [Log.reached] using hr)

/-- One record with its caller parked, a batch written in two parts, a successful Sync. -/
def syncedSchedule : List Event :=
  [.append (.set [107] [118] none), .await 0 1 .always, .check 0, .recvNotify, .swap,
    .write 5 none, .write 22 none, .advanceWritten, .beginSync, .endSync none, .advanceSynced,
    .check 0]

theorem log_prefix_durable_synced :
    ∃ s, runSteps step (init .always 0) syncedSchedule = some s ∧
      s.callers 0 = .returned 1 .always (.ok ()) ∧
      ∀ b, s.CrashImage b → encodes (s.journal.take 1) <+: b := by
  refine ⟨_, rfl, rfl, ?_⟩
  exact ((log_prefix_durable .always 0 syncedSchedule _ rfl).2.2 0 1 .always rfl).2.2 rfl

end Sys

end GoKv.Aof
