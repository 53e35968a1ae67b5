import GoKv.Aof.Record
import GoKv.Lib.Schedule

/-! The append-only log: an in-memory batch, a writer goroutine and three progress markers.
A schedule interleaves appending and waiting callers, the writer's steps with whatever the
file answers, and Close. What happens under the mutex is one step. -/
namespace GoKv.Aof
open GoLib

inductive Policy where
  | everySec
  | always
  deriving DecidableEq, Repr

def syncInterval : ℤ := 10 ^ 9

/-- An error of the file, or a write that made no progress. -/
inductive FileErr where
  | io (code : ℕ)
  | noProgress
  deriving DecidableEq, Repr

/-- `failed` is ErrFailed joined with the failure that caused it. -/
inductive AofErr where
  | failed (cause : FileErr)
  | closed
  | corrupt (msg : String)
  deriving DecidableEq, Repr

/-- Where one record ends in the batch being assembled. -/
structure Pending where
  seq : ℕ
  stop : ℕ
  deriving DecidableEq, Repr

/-- `notify` says whether the capacity-one channel holds its token, and `closeCh` and `done`
whether those channels are closed. -/
structure Log where
  policy : Policy
  buf : Bytes
  records : List Pending
  nextSeq : ℕ
  appended : ℕ
  written : ℕ
  synced : ℕ
  failed : Option FileErr
  closing : Bool
  closed : Bool
  notify : Bool
  closeCh : Bool
  done : Bool
  deriving DecidableEq

namespace Log

def init (policy : Policy) : Log where
  policy := policy
  buf := []
  records := []
  nextSeq := 0
  appended := 0
  written := 0
  synced := 0
  failed := none
  closing := false
  closed := false
  notify := false
  closeCh := false
  done := false

/-- The sequence number of the record, or the reason it is refused. A refused record leaves
the log as it was. -/
def append (l : Log) (r : Record) : Except AofErr ℕ × Log :=
  match l.failed with
  | some e => (.error (.failed e), l)
  | none =>
    if l.closing || l.closed then (.error .closed, l)
    else
      match encode r with
      | .error msg => (.error (.corrupt msg), l)
      | .ok bs =>
        if bs = [] then (.error (.corrupt "record encoded to no bytes"), l)
        else
          (.ok (l.nextSeq + 1),
            { l with
              buf := l.buf ++ bs
              nextSeq := l.nextSeq + 1
              appended := l.nextSeq + 1
              records := l.records ++ [⟨l.nextSeq + 1, (l.buf ++ bs).length⟩]
              notify := true })

def reached (l : Log) (seq : ℕ) : Policy → Bool
  | .always => seq ≤ l.synced
  | .everySec => seq ≤ l.written

/-- One pass of Await's loop under the mutex: the value it returns, or `none` to wait. -/
def awaitCheck (l : Log) (seq : ℕ) (p : Policy) : Option (Except AofErr Unit) :=
  match l.failed with
  | some e => some (.error (.failed e))
  | none =>
    if l.reached seq p then some (.ok ())
    else if l.closed then some (.error .closed)
    else none

/-- The last record that ends within the first `n` bytes of the batch. -/
def lastWhole (written : ℕ) : List Pending → ℕ → ℕ
  | [], _ => written
  | r :: rs, n => if n < r.stop then written else lastWhole r.seq rs n

end Log

inductive Cause where
  | notify
  | tick (now : ℤ)
  | close
  deriving DecidableEq, Repr

/-- Every event but a notification makes flush sync under either policy. -/
def Cause.forceSync : Cause → Bool
  | .notify => false
  | _ => true

/-- Where the writer goroutine is. The phases from `flushing` to `reporting` are inside flush,
between two holds of the mutex or two calls on the file. -/
inductive Phase where
  | waiting
  | flushing (c : Cause)
  | writing (c : Cause) (batch : Bytes) (records : List Pending) (total : ℕ)
  | advancing (c : Cause) (records : List Pending) (n : ℕ) (err : Option FileErr)
  | unsynced (c : Cause)
  | syncing (c : Cause) (began : ℕ)
  | advancingSynced (c : Cause)
  | failing (c : Cause) (err : FileErr)
  | reporting (c : Cause)
  | flushed (c : Cause)
  | dropped
  | finishing
  | closingFile
  | stopped
  deriving DecidableEq

/-- A caller of Await: about to look at the markers, parked in cond.Wait, or returned. -/
inductive Caller where
  | idle
  | ready (seq : ℕ) (p : Policy)
  | parked (seq : ℕ) (p : Policy)
  | returned (seq : ℕ) (p : Policy) (result : Except AofErr Unit)
  deriving DecidableEq

/-- Broadcast wakes the parked callers; each looks again when it next holds the mutex. -/
def Caller.wake : Caller → Caller
  | .parked seq p => .ready seq p
  | c => c

/-- `accepted` is what the file took since the log was opened, and `durable` how much of it it
held when the last successful Sync began. `journal` lists the appended records, the
one with sequence number 1 first. -/
structure Sys where
  log : Log
  phase : Phase
  lastSync : ℤ
  accepted : Bytes
  durable : ℕ
  reported : Bool
  callers : ℕ → Caller
  journal : List Record

inductive Event where
  | append (r : Record)
  | await (c : ℕ) (seq : ℕ) (p : Policy)
  | check (c : ℕ)
  | beginClose
  | signalClose
  | recvNotify
  | recvTick (now : ℤ)
  | recvClose
  | swap
  | write (n : ℕ) (err : Option ℕ)
  | advanceWritten
  | beginSync
  | endSync (err : Option ℕ)
  | advanceSynced
  | fail
  | report
  | loop (now : ℤ)
  | finish
  | closeFile

namespace Sys

def init (policy : Policy) (now : ℤ) : Sys where
  log := .init policy
  phase := .waiting
  lastSync := now
  accepted := []
  durable := 0
  reported := false
  callers _ := .idle
  journal := []

def append (s : Sys) (r : Record) : Except AofErr ℕ × Sys :=
  match s.log.append r with
  | (.ok seq, l) => (.ok seq, { s with log := l, journal := s.journal ++ [r] })
  | (.error e, l) => (.error e, { s with log := l })

def broadcast (s : Sys) : Sys := { s with callers := fun c => (s.callers c).wake }

/-- After the batch: sync when forced or under always, else flush returns. -/
def afterWrite (l : Log) (c : Cause) : Phase :=
  if c.forceSync || l.policy = .always then .unsynced c else .flushed c

/-- One Write of writeFull took `n` of the bytes from `total` on and answered `err`. -/
def afterFileWrite (c : Cause) (batch : Bytes) (records : List Pending) (total n : ℕ)
    (err : Option ℕ) : Phase :=
  match err with
  | some e => .advancing c records (total + n) (some (.io e))
  | none =>
    if n = 0 then .advancing c records (total + n) (some .noProgress)
    else if total + n < batch.length then .writing c batch records (total + n)
    else .advancing c records (total + n) none

/-- One atomic step, or `none` when the event is not enabled. -/
def step (s : Sys) : Event → Option Sys
  | .append r => some (s.append r).2
  | .await c seq p =>
    match s.callers c with
    | .idle => some { s with callers := Function.update s.callers c (.ready seq p) }
    | .returned _ _ _ => some { s with callers := Function.update s.callers c (.ready seq p) }
    | _ => none
  | .check c =>
    match s.callers c with
    | .ready seq p =>
      match s.log.awaitCheck seq p with
      | some res => some { s with callers := Function.update s.callers c (.returned seq p res) }
      | none => some { s with callers := Function.update s.callers c (.parked seq p) }
    | _ => none
  | .beginClose => some { s with log := { s.log with closing := true } }
  | .signalClose =>
    if s.log.closing then some { s with log := { s.log with closeCh := true } } else none
  | .recvNotify =>
    if s.phase = .waiting ∧ s.log.notify then
      some { s with log := { s.log with notify := false }, phase := .flushing .notify }
    else none
  | .recvTick now =>
    -- A tick before a full interval has passed flushes nothing.
    if s.phase = .waiting then
      if syncInterval ≤ now - s.lastSync then some { s with phase := .flushing (.tick now) }
      else some { s with phase := .dropped }
    else none
  | .recvClose =>
    if s.phase = .waiting ∧ s.log.closeCh then some { s with phase := .flushing .close } else none
  | .swap =>
    match s.phase with
    | .flushing c =>
      if s.log.failed.isSome then some { s with phase := .flushed c }
      else
        some { s with
          log := { s.log with buf := [], records := [] }
          phase := if s.log.buf = [] then afterWrite s.log c
            else .writing c s.log.buf s.log.records 0 }
    | _ => none
  | .write n err =>
    match s.phase with
    | .writing c batch records total =>
      if n ≤ batch.length - total then
        some { s with
          accepted := s.accepted ++ (batch.drop total).take n
          phase := afterFileWrite c batch records total n err }
      else none
    | _ => none
  | .advanceWritten =>
    match s.phase with
    | .advancing c records n err =>
      let l := { s.log with written := Log.lastWhole s.log.written records n }
      some { s.broadcast with
        log := l
        phase := match err with
          | some e => .failing c e
          | none => afterWrite l c }
    | _ => none
  | .beginSync =>
    match s.phase with
    | .unsynced c => some { s with phase := .syncing c s.accepted.length }
    | _ => none
  | .endSync err =>
    match s.phase, err with
    | .syncing c _, some e => some { s with phase := .failing c (.io e) }
    | .syncing c began, none => some { s with durable := began, phase := .advancingSynced c }
    | _, _ => none
  | .advanceSynced =>
    match s.phase with
    | .advancingSynced c =>
      some { s.broadcast with
        log := { s.log with synced := s.log.written }, phase := .flushed c }
    | _ => none
  | .fail =>
    match s.phase with
    | .failing c e =>
      some { s.broadcast with
        log := { s.log with failed := s.log.failed.or (some e) }, phase := .reporting c }
    | _ => none
  | .report =>
    match s.phase with
    | .reporting c => some { s with reported := true, phase := .flushed c }
    | _ => none
  | .loop now =>
    match s.phase with
    | .flushed .close => some { s with phase := .finishing }
    | .flushed (.tick t) =>
      some { s with phase := .waiting, lastSync := if s.log.policy = .always then now else t }
    | .flushed .notify | .dropped =>
      some { s with
        phase := .waiting
        lastSync := if s.log.policy = .always then now else s.lastSync }
    | _ => none
  | .finish =>
    match s.phase with
    | .finishing =>
      some { s.broadcast with log := { s.log with closed := true }, phase := .closingFile }
    | _ => none
  | .closeFile =>
    match s.phase with
    | .closingFile => some { s with log := { s.log with done := true }, phase := .stopped }
    | _ => none

end Sys

end GoKv.Aof
