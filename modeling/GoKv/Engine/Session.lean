import GoKv.Engine.Engine

/-! Runs of the engine: operations and expiration sweeps at non-decreasing clock readings, and
the steps of the log between them. -/
namespace GoKv
open GoLib GoKv.Aof

/-- An operation. `order` is the order in which Keys finds the map iterated. -/
inductive Op where
  | get (key : Bytes)
  | mget (keys : List Bytes)
  | existing (keys : List Bytes)
  | set (key value : Bytes) (ttl : TTL)
  | ttl (key : Bytes)
  | expire (key : Bytes) (d : Duration)
  | persist (key : Bytes)
  | delete (keys : List Bytes)
  | incrBy (key : Bytes) (delta : Int64)
  | keys (pattern : Bytes) (order : List Bytes)
  | dbSize

/-- What an operation returns once its durability wait, if it has one, succeeds. -/
inductive Reply where
  | value (v : Option Bytes)
  | values (vs : List (Option Bytes))
  | count (n : ℕ)
  | done
  | ttl (d : Duration) (status : TTLStatus)
  | flag (b : Bool)
  | int (n : Int64)
  | keys (ks : List Bytes)
  | failed (e : EngineErr)
  deriving DecidableEq

def Reply.of {α : Type*} (f : α → Reply) : Except EngineErr α → Reply
  | .ok a => f a
  | .error e => .failed e

def Reply.isFailed : Reply → Bool
  | .failed _ => true
  | _ => false

/-- The iteration order, where the operation has one, visits every key once. -/
def Op.Iterates (s : Store) : Op → Prop
  | .keys _ order => order.Perm s.data.keys
  | _ => True

instance (s : Store) : DecidablePred (Op.Iterates s) := fun op =>
  match op with
  | .keys _ order => inferInstanceAs (Decidable (order.Perm s.data.keys))
  | .get _ | .mget _ | .existing _ | .set _ _ _ | .ttl _ | .expire _ _ | .persist _ | .delete _
  | .incrBy _ _ | .dbSize => inferInstanceAs (Decidable True)

def Op.meeting (order : List Bytes) : Op → Op
  | .keys pattern _ => .keys pattern order
  | op => op

namespace Engine

def exec (e : Engine) (now : ℤ) : Op → Reply × Engine
  | .get key => (.value (e.get key now), e)
  | .mget keys => (.values (e.mget keys now), e)
  | .existing keys => (.count (e.existing keys now), e)
  | .set key value ttl =>
    let (res, e) := e.set key value ttl now
    (.of (fun _ => .done) res, e)
  | .ttl key => (.ttl (e.ttl key now).1 (e.ttl key now).2, e)
  | .expire key d =>
    let (res, e) := e.expire key d now
    (.of (fun a => .flag a.1) res, e)
  | .persist key =>
    let (res, e) := e.persist key now
    (.of (fun a => .flag a.1) res, e)
  | .delete keys =>
    let (res, e) := e.delete keys now
    (.of (fun a => .count a.1) res, e)
  | .incrBy key delta =>
    let (res, e) := e.incrBy key delta now
    (.of (fun a => .int a.1) res, e)
  | .keys pattern order => (.keys (e.keys pattern now order), e)
  | .dbSize => (.count (e.dbSize now), e)

end Engine

/-- One step of a run: an operation, a sweep that finds the deadlines iterated in `order`, or a
step of the log that is not an append of its own. -/
inductive Call where
  | op (now : ℤ) (op : Op)
  | sweep (now : ℤ) (order : List Bytes)
  | log (e : Aof.Event)

structure Session where
  engine : Engine
  clock : ℤ
  replies : List Reply

namespace Session

def start (e : Engine) (clock : ℤ) : Session := ⟨e, clock, []⟩

def step (s : Session) : Call → Option Session
  | .op now op =>
    if s.clock ≤ now ∧ op.Iterates s.engine.store then
      let (reply, e) := s.engine.exec now op
      some ⟨e, now, s.replies ++ [reply]⟩
    else none
  | .sweep now order =>
    if s.clock ≤ now ∧ order.Perm s.engine.store.expires.keys then
      some { s with engine := (s.engine.reclaimOnce now order).2, clock := now }
    else none
  | .log (.append _) => none
  | .log e =>
    match s.engine.log with
    | none => none
    | some l => (l.step e).map fun l => { s with engine := { s.engine with log := some l } }

theorem log_step {s t : Session} {e : Aof.Event} (h : s.step (.log e) = some t) :
    ∃ l l', s.engine.log = some l ∧ (∀ r, e ≠ .append r) ∧ l.step e = some l' ∧
      t = { s with engine := { s.engine with log := some l' } } := by
  have hne : ∀ r, e ≠ .append r := by
    rintro r rfl
    cases h
  cases hl : s.engine.log with
  | none => cases e <;> simp [step, hl] at h
  | some l =>
    have hmap : (l.step e).map (fun l => { s with engine := { s.engine with log := some l } }) =
        some t := by
      cases e <;> first | exact absurd rfl (hne _) | simpa only [step, hl] using h
    obtain ⟨l', hl', rfl⟩ := Option.map_eq_some_iff.mp hmap
    exact ⟨l, l', rfl, hne, hl', rfl⟩

end Session

end GoKv
