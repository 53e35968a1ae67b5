import GoKv.Aof.Log
import GoKv.Glob
import GoKv.Store
import Mathlib.Data.List.Sort

/-! The engine: every operation on the shared store, in the critical section that also orders
the log's records. An operation takes the instant the clock would answer; a mutation returns the
sequence number its caller then awaits. -/
namespace GoKv
open GoLib GoKv.Aof

/-- An expiry `d` from now, or none. -/
structure TTL where
  d : Duration
  set : Bool
  deriving DecidableEq

def TTL.noExpiry : TTL := ⟨0, false⟩

def TTL.expiresIn (d : Duration) : TTL := ⟨d, true⟩

/-- `persistenceUnavailable` is joined with the log's error. -/
inductive EngineErr where
  | draining
  | persistenceUnavailable (e : AofErr)
  | log (e : AofErr)
  | notAnInteger
  | incrOverflow
  deriving DecidableEq

/-- `log` is absent when persistence is off. -/
structure Engine where
  store : Store
  acceptingMutations : Bool
  log : Option Sys
  appliedSeq : ℕ

namespace Engine

def new : Engine := ⟨.new, true, none, 0⟩

/-- The instant expiry is judged against: the clock is not read when no deadline is recorded. -/
def readNow (e : Engine) (now : ℤ) : ℤ := if e.store.hasExpirations then now else zeroTime

def appendErr : AofErr → EngineErr
  | .failed c => .persistenceUnavailable (.failed c)
  | err => .log err

/-- Append, then apply; a refused record leaves memory untouched. -/
def commit (e : Engine) (l : Sys) (rec : Record) (apply : Store → Store) :
    Except EngineErr ℕ × Engine :=
  match l.append rec with
  | (.error err, l) => (.error (appendErr err), { e with log := some l })
  | (.ok seq, l) => (.ok seq, { e with store := apply e.store, log := some l, appliedSeq := seq })

/-- With no log the change is applied alone. -/
def commitRecord (e : Engine) (rec : Record) (apply : Store → Store) :
    Except EngineErr ℕ × Engine :=
  match e.log with
  | none => (.ok 0, { e with store := apply e.store })
  | some l => e.commit l rec apply

def commitSet (e : Engine) (key value : Bytes) (deadline : ℤ) (hasTTL : Bool)
    (apply : Store → Store) : Except EngineErr ℕ × Engine :=
  e.commitRecord (deriveSet key value deadline hasTTL) apply

def commitDel (e : Engine) (keys : List Bytes) (apply : Store → Store) :
    Except EngineErr ℕ × Engine :=
  e.commitRecord (deriveDel keys) apply

/-! ## Reads -/

def get (e : Engine) (key : Bytes) (now : ℤ) : Option Bytes := e.store.get key (e.readNow now)

def mget (e : Engine) (keys : List Bytes) (now : ℤ) : List (Option Bytes) :=
  keys.map fun k => e.store.get k (e.readNow now)

/-- Exists: duplicates count separately. -/
def existing (e : Engine) (keys : List Bytes) (now : ℤ) : ℕ :=
  keys.countP fun k => (e.store.get k (e.readNow now)).isSome

def ttl (e : Engine) (key : Bytes) (now : ℤ) : Duration × TTLStatus :=
  match e.store.ttl key (e.readNow now) with
  | (d, .hasTTL) => (d, .hasTTL)
  | (_, .noTTL) => (0, .noTTL)
  | (_, .noKey) => (0, .noKey)

def dbSize (e : Engine) (now : ℤ) : ℕ := e.store.len (e.readNow now)

/-- sort.Strings: bytewise order. -/
def sortSnapshot (keys : List Bytes) : List Bytes := keys.insertionSort (· ≤ ·)

/-- The in-place filter: `keys` is the array, `i` the key examined, `n` the length of the result
that grows over the array's front. -/
def filterLoop (pattern : Bytes) : ℕ → List Bytes → ℕ → ℕ → List Bytes × ℕ
  | 0, keys, _, n => (keys, n)
  | fuel + 1, keys, i, n =>
    match keys[i]? with
    | none => (keys, n)
    | some key =>
      if Glob.isMatch pattern key then filterLoop pattern fuel (keys.set n key) (i + 1) (n + 1)
      else filterLoop pattern fuel keys (i + 1) n

/-- The keys that match, and the array they share with the discarded slots, which are cleared. -/
def filterSnapshot (keys : List Bytes) (pattern : Bytes) : List Bytes × List Bytes :=
  let (arr, n) := filterLoop pattern keys.length keys 0 0
  (arr.take n, arr.take n ++ List.replicate (arr.length - n) [])

/-- `order` is the order the map is iterated in. -/
def keys (e : Engine) (pattern : Bytes) (now : ℤ) (order : List Bytes) : List Bytes :=
  (filterSnapshot (sortSnapshot (e.store.liveKeys (e.readNow now) order)) pattern).1

/-! ## Mutations -/

def set (e : Engine) (key value : Bytes) (ttl : TTL) (now : ℤ) : Except EngineErr ℕ × Engine :=
  if e.acceptingMutations then
    let deadline := if ttl.set then timeAdd now ttl.d else zeroTime
    e.commitSet key value deadline ttl.set fun s => s.set key value deadline ttl.set
  else (.error .draining, e)

/-- Whether the deadline was attached, and the sequence number to await. -/
def expire (e : Engine) (key : Bytes) (d : Duration) (now : ℤ) :
    Except EngineErr (Bool × ℕ) × Engine :=
  if e.acceptingMutations then
    match e.store.get key now with
    | none => (.ok (false, 0), e)
    | some value =>
      let deadline := timeAdd now d
      let (res, e) := e.commitSet key value deadline true fun s => (s.expire key deadline now).2
      (res.map fun seq => (true, seq), e)
  else (.error .draining, e)

def persist (e : Engine) (key : Bytes) (now : ℤ) : Except EngineErr (Bool × ℕ) × Engine :=
  if e.acceptingMutations then
    match e.store.get key now with
    | none => (.ok (false, 0), e)
    | some value =>
      if (e.store.ttl key now).2 ≠ .hasTTL then (.ok (false, 0), e)
      else
        let (res, e) := e.commitSet key value zeroTime false fun s => (s.persist key now).2
        (res.map fun seq => (true, seq), e)
  else (.error .draining, e)

def liveDistinct (s : Store) (now : ℤ) : List Bytes → List Bytes → List Bytes
  | [], _ => []
  | k :: ks, seen =>
    if k ∈ seen then liveDistinct s now ks seen
    else if (s.get k now).isSome then k :: liveDistinct s now ks (k :: seen)
    else liveDistinct s now ks (k :: seen)

/-- Every listed key is deleted; only the live ones are counted and recorded. -/
def delete (e : Engine) (keys : List Bytes) (now : ℤ) : Except EngineErr (ℕ × ℕ) × Engine :=
  if e.acceptingMutations then
    let live := liveDistinct e.store (e.readNow now) keys []
    let apply := fun s : Store => keys.foldl (fun s k => (s.delete k).2) s
    if live.length = 0 then (.ok (0, 0), { e with store := apply e.store })
    else
      let (res, e) := e.commitDel live apply
      (res.map fun seq => (live.length, seq), e)
  else (.error .draining, e)

/-- A stored value INCR accepts: canonical decimal text within int64. -/
def parseStoredInt (s : Bytes) : Option Int64 :=
  if s = [] then none
  else if s = [48] then some 0
  else
    let digits := if s.head? = some 45 then s.tail else s
    match digits.head? with
    | none => none
    | some c =>
      if c < 49 ∨ 57 < c then none
      else if digits.all isDigit then parseInt64 s
      else none

/-- The overflow check, then the new text under the deadline a live key already has. -/
def incrFrom (e : Engine) (key : Bytes) (current delta : Int64) (deadline : Option ℤ) :
    Except EngineErr (Int64 × ℕ) × Engine :=
  if (0 < delta ∧ Int64.maxValue - delta < current) ∨
      (delta < 0 ∧ current < Int64.minValue - delta) then (.error .incrOverflow, e)
  else
    let text := formatInt (current + delta).toInt
    let expiry := deadline.getD zeroTime
    let (res, e) := e.commitSet key text expiry deadline.isSome
      fun s => s.set key text expiry deadline.isSome
    (res.map fun seq => (current + delta, seq), e)

def incrBy (e : Engine) (key : Bytes) (delta : Int64) (now : ℤ) :
    Except EngineErr (Int64 × ℕ) × Engine :=
  if e.acceptingMutations then
    match e.store.get key (e.readNow now) with
    | none => e.incrFrom key 0 delta none
    | some value =>
      match parseStoredInt value with
      | none => (.error .notAnInteger, e)
      | some n => e.incrFrom key n delta (e.store.expiresAt key)
  else (.error .draining, e)

/-! ## Lifecycle -/

def beginDrain (e : Engine) : Engine := { e with acceptingMutations := false }

def expirationSample : ℕ := 20

def reclaimOnce (e : Engine) (now : ℤ) (order : List Bytes) : (ℕ × ℕ) × Engine :=
  let (counts, s) := e.store.reclaimExpired now expirationSample order
  (counts, { e with store := s })

end Engine

end GoKv
