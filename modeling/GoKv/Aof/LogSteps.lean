import GoKv.Aof.Log

/-! What each step of the log can do. The invariants of the log are read off `Moves`, one case
for each way a step can go. -/
namespace GoKv.Aof
open GoLib

theorem Log.append_ok {l : Log} {r : Record} (hf : l.failed = none) (hc : l.closing = false)
    (hd : l.closed = false) (hr : r.Writable) :
    l.append r = (.ok (l.nextSeq + 1),
      { l with
        buf := l.buf ++ r.bytes
        nextSeq := l.nextSeq + 1
        appended := l.nextSeq + 1
        records := l.records ++ [⟨l.nextSeq + 1, (l.buf ++ r.bytes).length⟩]
        notify := true }) := by
  simp [Log.append, hf, hc, hd, encode_eq r hr, r.bytes_ne_nil]

/-- Append either refuses and changes nothing, or the log was open and takes the record. -/
theorem Log.append_cases (l : Log) (r : Record) :
    (∃ e, l.append r = (.error e, l)) ∨
      l.failed = none ∧ l.closing = false ∧ l.closed = false ∧ r.Writable := by
  unfold Log.append
  cases hf : l.failed with
  | some e => exact Or.inl ⟨_, rfl⟩
  | none =>
    by_cases hc : (l.closing || l.closed) = true
    · exact Or.inl ⟨.closed, if_pos hc⟩
    · dsimp only
      rw [if_neg hc]
      rw [Bool.not_eq_true, Bool.or_eq_false_iff] at hc
      cases he : encode r with
      | error msg => exact Or.inl ⟨_, rfl⟩
      | ok bs => exact Or.inr ⟨rfl, hc.1, hc.2, writable_of_encode he⟩

namespace Sys

def appendTo (s : Sys) (r : Record) : Sys :=
  { s with
    log := { s.log with
      buf := s.log.buf ++ r.bytes
      nextSeq := s.log.nextSeq + 1
      appended := s.log.nextSeq + 1
      records := s.log.records ++ [⟨s.log.nextSeq + 1, (s.log.buf ++ r.bytes).length⟩]
      notify := true }
    journal := s.journal ++ [r] }

theorem append_cases (s : Sys) (r : Record) :
    (∃ e, s.log.append r = (.error e, s.log) ∧ s.append r = (.error e, s)) ∨
      s.log.failed = none ∧ s.log.closing = false ∧ s.log.closed = false ∧ r.Writable ∧
        s.append r = (.ok (s.log.nextSeq + 1), s.appendTo r) := by
  rcases s.log.append_cases r with ⟨e, he⟩ | ⟨hf, hc, hd, hr⟩
  · exact Or.inl ⟨e, he, by simp only [append, he]⟩
  · exact Or.inr ⟨hf, hc, hd, hr, by simp only [append, Log.append_ok hf hc hd hr]; rfl⟩

inductive Moves (s : Sys) : Event → Sys → Prop where
  | appended (r : Record) (hf : s.log.failed = none) (hc : s.log.closing = false)
      (hd : s.log.closed = false) (hr : r.Writable) : Moves s (.append r) (s.appendTo r)
  | refused (r : Record) (e : AofErr) (he : s.log.append r = (.error e, s.log)) :
      Moves s (.append r) s
  | called (c seq : ℕ) (p : Policy)
      (hc : s.callers c = .idle ∨ ∃ seq' p' res, s.callers c = .returned seq' p' res) :
      Moves s (.await c seq p) { s with callers := Function.update s.callers c (.ready seq p) }
  | returned (c seq : ℕ) (p : Policy) (res : Except AofErr Unit)
      (hc : s.callers c = .ready seq p) (hr : s.log.awaitCheck seq p = some res) :
      Moves s (.check c) { s with callers := Function.update s.callers c (.returned seq p res) }
  | parked (c seq : ℕ) (p : Policy)
      (hc : s.callers c = .ready seq p) (hr : s.log.awaitCheck seq p = none) :
      Moves s (.check c) { s with callers := Function.update s.callers c (.parked seq p) }
  | beginClose : Moves s .beginClose { s with log := { s.log with closing := true } }
  | signalClose (hc : s.log.closing = true) :
      Moves s .signalClose { s with log := { s.log with closeCh := true } }
  | recvNotify (hp : s.phase = .waiting) (hn : s.log.notify = true) :
      Moves s .recvNotify
        { s with log := { s.log with notify := false }, phase := .flushing .notify }
  | recvTick (now : ℤ) (hp : s.phase = .waiting) (ht : syncInterval ≤ now - s.lastSync) :
      Moves s (.recvTick now) { s with phase := .flushing (.tick now) }
  | dropTick (now : ℤ) (hp : s.phase = .waiting) (ht : now - s.lastSync < syncInterval) :
      Moves s (.recvTick now) { s with phase := .dropped }
  | recvClose (hp : s.phase = .waiting) (hc : s.log.closeCh = true) :
      Moves s .recvClose { s with phase := .flushing .close }
  | swapFailed (c : Cause) (hp : s.phase = .flushing c) (hf : s.log.failed ≠ none) :
      Moves s .swap { s with phase := .flushed c }
  | swapEmpty (c : Cause) (hp : s.phase = .flushing c) (hf : s.log.failed = none)
      (hb : s.log.buf = []) :
      Moves s .swap
        { s with log := { s.log with buf := [], records := [] }, phase := afterWrite s.log c }
  | swapBatch (c : Cause) (hp : s.phase = .flushing c) (hf : s.log.failed = none)
      (hb : s.log.buf ≠ []) :
      Moves s .swap
        { s with
          log := { s.log with buf := [], records := [] }
          phase := .writing c s.log.buf s.log.records 0 }
  | writeMore (c : Cause) (batch : Bytes) (records : List Pending) (total n : ℕ)
      (hp : s.phase = .writing c batch records total) (hn : 0 < n)
      (hlt : total + n < batch.length) :
      Moves s (.write n none)
        { s with
          accepted := s.accepted ++ (batch.drop total).take n
          phase := .writing c batch records (total + n) }
  | writeStop (c : Cause) (batch : Bytes) (records : List Pending) (total n : ℕ)
      (err : Option ℕ) (res : Option FileErr) (hp : s.phase = .writing c batch records total)
      (hn : n ≤ batch.length - total) (hres : res = none → batch.length ≤ total + n) :
      Moves s (.write n err)
        { s with
          accepted := s.accepted ++ (batch.drop total).take n
          phase := .advancing c records (total + n) res }
  | wroteErr (c : Cause) (records : List Pending) (n : ℕ) (e : FileErr)
      (hp : s.phase = .advancing c records n (some e)) :
      Moves s .advanceWritten
        { s.broadcast with
          log := { s.log with written := Log.lastWhole s.log.written records n }
          phase := .failing c e }
  | wroteAll (c : Cause) (records : List Pending) (n : ℕ)
      (hp : s.phase = .advancing c records n none) :
      Moves s .advanceWritten
        { s.broadcast with
          log := { s.log with written := Log.lastWhole s.log.written records n }
          phase := afterWrite s.log c }
  | beginSync (c : Cause) (hp : s.phase = .unsynced c) :
      Moves s .beginSync { s with phase := .syncing c s.accepted.length }
  | syncErr (c : Cause) (began e : ℕ) (hp : s.phase = .syncing c began) :
      Moves s (.endSync (some e)) { s with phase := .failing c (.io e) }
  | syncOk (c : Cause) (began : ℕ) (hp : s.phase = .syncing c began) :
      Moves s (.endSync none) { s with durable := began, phase := .advancingSynced c }
  | advanceSynced (c : Cause) (hp : s.phase = .advancingSynced c) :
      Moves s .advanceSynced
        { s.broadcast with log := { s.log with synced := s.log.written }, phase := .flushed c }
  | fail (c : Cause) (e : FileErr) (hp : s.phase = .failing c e) :
      Moves s .fail
        { s.broadcast with
          log := { s.log with failed := s.log.failed.or (some e) }, phase := .reporting c }
  | report (c : Cause) (hp : s.phase = .reporting c) :
      Moves s .report { s with reported := true, phase := .flushed c }
  | loopClose (now : ℤ) (hp : s.phase = .flushed .close) :
      Moves s (.loop now) { s with phase := .finishing }
  | loopTick (now t : ℤ) (hp : s.phase = .flushed (.tick t)) :
      Moves s (.loop now)
        { s with phase := .waiting, lastSync := if s.log.policy = .always then now else t }
  | loopKeep (now : ℤ) (hp : s.phase = .flushed .notify ∨ s.phase = .dropped) :
      Moves s (.loop now)
        { s with
          phase := .waiting
          lastSync := if s.log.policy = .always then now else s.lastSync }
  | finish (hp : s.phase = .finishing) :
      Moves s .finish
        { s.broadcast with log := { s.log with closed := true }, phase := .closingFile }
  | closeFile (hp : s.phase = .closingFile) :
      Moves s .closeFile { s with log := { s.log with done := true }, phase := .stopped }

private theorem moves_append {s t : Sys} {r : Record} (h : s.step (.append r) = some t) :
    Moves s (.append r) t := by
  rcases s.append_cases r with ⟨e, he, hs⟩ | ⟨hf, hc, hd, hr, hs⟩
  · simp only [step, hs] at h
    cases h
    exact .refused r e he
  · simp only [step, hs] at h
    cases h
    exact .appended r hf hc hd hr

theorem moves_caller {s t : Sys} {e : Event}
    (hk : (∃ c seq p, e = .await c seq p) ∨ ∃ c, e = .check c) (h : s.step e = some t) :
    Moves s e t := by
  rcases hk with ⟨c, seq, p, rfl⟩ | ⟨c, rfl⟩
  · simp only [step] at h
    cases hc : s.callers c with
    | idle => simp only [hc] at h; cases h; exact .called c seq p (Or.inl hc)
    | returned seq' p' res =>
      simp only [hc] at h
      cases h
      exact .called c seq p (Or.inr ⟨_, _, _, hc⟩)
    | ready seq' p' => simp [hc] at h
    | parked seq' p' => simp [hc] at h
  · simp only [step] at h
    cases hc : s.callers c with
    | ready seq p =>
      simp only [hc] at h
      cases hr : s.log.awaitCheck seq p with
      | some res => simp only [hr] at h; cases h; exact .returned c seq p res hc hr
      | none => simp only [hr] at h; cases h; exact .parked c seq p hc hr
    | idle => simp [hc] at h
    | returned seq' p' res => simp [hc] at h
    | parked seq' p' => simp [hc] at h

private theorem moves_write {s t : Sys} {n : ℕ} {err : Option ℕ}
    (h : s.step (.write n err) = some t) :
    Moves s (.write n err) t := by
  simp only [step] at h
  cases hp : s.phase with
  | writing c batch records total =>
    simp only [hp] at h
    split_ifs at h with hn
    cases h
    cases err with
    | some e => exact .writeStop c batch records total n _ (some (.io e)) hp hn (by simp)
    | none =>
      unfold afterFileWrite
      dsimp only
      split_ifs with hz hlt
      · exact .writeStop c batch records total n _ (some .noProgress) hp hn (by simp)
      · exact .writeMore c batch records total n hp (Nat.pos_of_ne_zero hz) hlt
      · exact .writeStop c batch records total n _ none hp hn (fun _ => not_lt.mp hlt)
  | _ => simp [hp] at h

theorem step_moves {s t : Sys} {e : Event} (h : s.step e = some t) : Moves s e t := by
  cases e with
  | append r => exact moves_append h
  | await c seq p => exact moves_caller (Or.inl ⟨_, _, _, rfl⟩) h
  | check c => exact moves_caller (Or.inr ⟨_, rfl⟩) h
  | beginClose => cases h; exact .beginClose
  | signalClose => exact of_guard .signalClose h
  | recvNotify => exact of_guard (fun hc => .recvNotify hc.1 hc.2) h
  | recvTick now =>
    simp only [step] at h
    split_ifs at h with hp ht
    · cases h; exact .recvTick now hp ht
    · cases h; exact .dropTick now hp (not_le.mp ht)
  | recvClose => exact of_guard (fun hc => .recvClose hc.1 hc.2) h
  | swap =>
    simp only [step] at h
    cases hp : s.phase with
    | flushing c =>
      simp only [hp] at h
      by_cases hf : s.log.failed.isSome = true
      · rw [if_pos hf] at h
        cases h
        exact .swapFailed c hp (Option.isSome_iff_ne_none.mp hf)
      · rw [if_neg hf] at h
        have hnone : s.log.failed = none := by simpa using hf
        by_cases hb : s.log.buf = []
        · rw [if_pos hb] at h; cases h; exact .swapEmpty c hp hnone hb
        · rw [if_neg hb] at h; cases h; exact .swapBatch c hp hnone hb
    | _ => simp [hp] at h
  | write n err => exact moves_write h
  | advanceWritten =>
    simp only [step] at h
    cases hp : s.phase with
    | advancing c records n err =>
      simp only [hp] at h
      cases err with
      | some e => cases h; exact .wroteErr c records n e hp
      | none => cases h; exact .wroteAll c records n hp
    | _ => simp [hp] at h
  | beginSync =>
    simp only [step] at h
    cases hp : s.phase with
    | unsynced c => simp only [hp] at h; cases h; exact .beginSync c hp
    | _ => simp [hp] at h
  | endSync err =>
    simp only [step] at h
    cases hp : s.phase with
    | syncing c began =>
      cases err with
      | some e => simp only [hp] at h; cases h; exact .syncErr c began e hp
      | none => simp only [hp] at h; cases h; exact .syncOk c began hp
    | _ => simp [hp] at h
  | advanceSynced =>
    simp only [step] at h
    cases hp : s.phase with
    | advancingSynced c => simp only [hp] at h; cases h; exact .advanceSynced c hp
    | _ => simp [hp] at h
  | fail =>
    simp only [step] at h
    cases hp : s.phase with
    | failing c e => simp only [hp] at h; cases h; exact .fail c e hp
    | _ => simp [hp] at h
  | report =>
    simp only [step] at h
    cases hp : s.phase with
    | reporting c => simp only [hp] at h; cases h; exact .report c hp
    | _ => simp [hp] at h
  | loop now =>
    simp only [step] at h
    cases hp : s.phase with
    | flushed c =>
      cases c with
      | notify => simp only [hp] at h; cases h; exact .loopKeep now (Or.inl hp)
      | tick t => simp only [hp] at h; cases h; exact .loopTick now t hp
      | close => simp only [hp] at h; cases h; exact .loopClose now hp
    | dropped => simp only [hp] at h; cases h; exact .loopKeep now (Or.inr hp)
    | _ => simp [hp] at h
  | finish =>
    simp only [step] at h
    cases hp : s.phase with
    | finishing => simp only [hp] at h; cases h; exact .finish hp
    | _ => simp [hp] at h
  | closeFile =>
    simp only [step] at h
    cases hp : s.phase with
    | closingFile => simp only [hp] at h; cases h; exact .closeFile hp
    | _ => simp [hp] at h

end Sys

end GoKv.Aof
