import GoKv.Engine.ScanSessions
import GoKv.Engine.Session
import GoKv.Lib.Unicode

/-! Commands: the table of names and arities, each command's arguments and replies, and Dispatch.
A command performs at most one operation on the engine. -/
namespace GoKv
open GoLib GoKv.Aof

/-- A mutation's result once it has waited for durability, outside the lock. A zero sequence
number means that there is nothing to wait for. -/
def Engine.await {α : Type*} (e : Engine) (wait : Except AofErr Unit) :
    Except EngineErr (α × ℕ) → Except EngineErr α
  | .error err => .error err
  | .ok (a, seq) =>
    if e.log.isNone ∨ seq = 0 then .ok a
    else
      match wait with
      | .ok () => .ok a
      | .error err => .error (.persistenceUnavailable err)

namespace Command

inductive Reply where
  | simple (s : Bytes)
  | error (s : Bytes)
  | int (n : Int64)
  | bulk (s : Bytes)
  | nullBulk
  | array (items : List Reply)

/-- What a command meets while it runs: the clock, the order the map is iterated in, what its
durability wait returns, and what the scan sessions answer. -/
structure Env where
  now : ℤ
  order : List Bytes
  wait : Except AofErr Unit
  scan : ScanRequest → Except ScanErr ScanResult

/-- The argument at a position. The arity check comes before every use. -/
def arg (args : List Bytes) (i : ℕ) : Bytes := args[i]?.getD []

/-! ## Error replies -/

def maxEchoedName : ℕ := 128

def echoName (b : Bytes) : Bytes :=
  if maxEchoedName < b.length then b.take maxEchoedName ++ text "..." else b

def mutationError : EngineErr → Reply
  | .draining => .error (text "ERR server is shutting down")
  | .persistenceUnavailable _ => .error (text "ERR persistence unavailable")
  | _ => .error (text "ERR internal error")

def errNotAnInteger : Bytes := text "ERR value is not an integer or out of range"

def errSyntax : Bytes := text "ERR syntax error"

def errIncrOverflow : Bytes := text "ERR increment or decrement would overflow"

def errInvalidCursor : Bytes := text "ERR invalid cursor"

def errScanSessionLimit : Bytes := text "ERR scan session limit reached"

def errScanMatchChanged : Bytes := text "ERR scan MATCH cannot change during iteration"

def invalidExpire (command : String) : Reply :=
  .error (text "ERR invalid expire time in '" ++ text command ++ text "' command")

def mutationReply {α : Type*} (f : α → Reply) : Except EngineErr α → Reply
  | .ok a => f a
  | .error err => mutationError err

def boolInt (b : Bool) : Reply := if b then .int 1 else .int 0

/-- The reply to INCR and DECR. The two value errors are not mutation failures. -/
def incrReply : Except EngineErr Int64 → Reply
  | .ok n => .int n
  | .error .notAnInteger => .error errNotAnInteger
  | .error .incrOverflow => .error errIncrOverflow
  | .error err => mutationError err

/-! ## SET's options -/

def second : Duration := 1000000000

def millisecond : Duration := 1000000

def maxExpireSeconds : Int64 := Int64.maxValue / second

def maxExpireMillis : Int64 := Int64.maxValue / millisecond

def optEX : Bytes := ascii ['E', 'X']

def optPX : Bytes := ascii ['P', 'X']

/-- The loop over the options, with the TTL and the unit found so far. -/
def setOptions (mapUpper : Bytes → Bytes) : List Bytes → TTL → Option Bytes → Except Reply TTL
  | [], ttl, _ => .ok ttl
  | opt :: rest, _, unit =>
    let name := toUpper mapUpper opt
    if name = optEX ∨ name = optPX then
      if unit ≠ none ∧ unit ≠ some name then .error (.error errSyntax)
      else
        match rest with
        | [] => .error (.error errSyntax)
        | num :: rest =>
          match parseInt64 num with
          | none => .error (.error errNotAnInteger)
          | some n =>
            if n ≤ 0 then .error (invalidExpire "set")
            else
              let step := if name = optPX then millisecond else second
              if (name = optEX ∧ maxExpireSeconds < n) ∨ (name = optPX ∧ maxExpireMillis < n) then
                .error (invalidExpire "set")
              else setOptions mapUpper rest (.expiresIn (n * step)) (some name)
    else .error (.error errSyntax)

def parseSetOptions (mapUpper : Bytes → Bytes) (opts : List Bytes) : Except Reply TTL :=
  setOptions mapUpper opts .noExpiry none

/-! ## SCAN's arguments -/

def defaultScanCount : ℕ := 10

def optMATCH : Bytes := ascii ['M', 'A', 'T', 'C', 'H']

def optCOUNT : Bytes := ascii ['C', 'O', 'U', 'N', 'T']

def scanOptions (mapUpper : Bytes → Bytes) : List Bytes → ScanRequest → Except Reply ScanRequest
  | [], req => .ok req
  | opt :: rest, req =>
    if toUpper mapUpper opt = optMATCH then
      match rest with
      | [] => .error (.error errSyntax)
      | pattern :: rest =>
        scanOptions mapUpper rest { req with pattern := pattern, patternSet := true }
    else if toUpper mapUpper opt = optCOUNT then
      match rest with
      | [] => .error (.error errSyntax)
      | num :: rest =>
        match parseInt64 num with
        | none => .error (.error errNotAnInteger)
        | some n =>
          if n ≤ 0 then .error (.error errSyntax)
          else scanOptions mapUpper rest { req with count := n.toInt.toNat }
    else .error (.error errSyntax)

def parseScan (mapUpper : Bytes → Bytes) (args : List Bytes) : Except Reply ScanRequest :=
  let cursorText := if (arg args 1).head? = some 43 then (arg args 1).tail else arg args 1
  match parseUint64 cursorText with
  | none => .error (.error errInvalidCursor)
  | some cursor => scanOptions mapUpper (args.drop 2) ⟨cursor, [], false, defaultScanCount⟩

def scanError : ScanErr → Reply
  | .invalidCursor => .error errInvalidCursor
  | .sessionLimit => .error errScanSessionLimit
  | .matchChanged => .error errScanMatchChanged
  | .other => .error (text "ERR internal error")

/-! ## The commands -/

def Handler := Env → Engine → List Bytes → Reply × Engine

def cmdPing : Handler := fun _ e args =>
  (if args.length = 2 then .bulk (arg args 1) else .simple (text "PONG"), e)

def cmdSet (mapUpper : Bytes → Bytes) : Handler := fun env e args =>
  match parseSetOptions mapUpper (args.drop 3) with
  | .error bad => (bad, e)
  | .ok ttl =>
    let (res, e) := e.set (arg args 1) (arg args 2) ttl env.now
    (mutationReply (fun _ => .simple (text "OK"))
      (e.await env.wait (res.map fun seq => ((), seq))), e)

def incrBy (delta : Int64) : Handler := fun env e args =>
  let (res, e) := e.incrBy (arg args 1) delta env.now
  (incrReply (e.await env.wait res), e)

def cmdIncr : Handler := incrBy 1

def cmdDecr : Handler := incrBy (-1)

/-- A time that is not positive deletes the key. -/
def cmdExpire : Handler := fun env e args =>
  match parseInt64 (arg args 2) with
  | none => (.error errNotAnInteger, e)
  | some n =>
    if n ≤ 0 then
      let (res, e) := e.delete [arg args 1] env.now
      (mutationReply (fun removed => .int (Int64.ofNat removed)) (e.await env.wait res), e)
    else if maxExpireSeconds < n then (invalidExpire "expire", e)
    else
      let (res, e) := e.expire (arg args 1) (n * second) env.now
      (mutationReply boolInt (e.await env.wait res), e)

/-- Whole seconds, rounded to nearest. -/
def ttlReply : Duration × TTLStatus → Reply
  | (_, .noKey) => .int (-2)
  | (_, .noTTL) => .int (-1)
  | (d, .hasTTL) =>
    let ms := if d / millisecond < 0 then 0 else d / millisecond
    .int ((ms + 500) / 1000)

def cmdTTL : Handler := fun env e args => (ttlReply (e.ttl (arg args 1) env.now), e)

def cmdPersist : Handler := fun env e args =>
  let (res, e) := e.persist (arg args 1) env.now
  (mutationReply boolInt (e.await env.wait res), e)

def optionalBulk : Option Bytes → Reply
  | none => .nullBulk
  | some v => .bulk v

def cmdGet : Handler := fun env e args => (optionalBulk (e.get (arg args 1) env.now), e)

def cmdMGet : Handler := fun env e args =>
  (.array ((e.mget (args.drop 1) env.now).map optionalBulk), e)

def cmdDel : Handler := fun env e args =>
  let (res, e) := e.delete (args.drop 1) env.now
  (mutationReply (fun n => .int (Int64.ofNat n)) (e.await env.wait res), e)

def cmdExists : Handler := fun env e args =>
  (.int (Int64.ofNat (e.existing (args.drop 1) env.now)), e)

def cmdKeys : Handler := fun env e args =>
  (.array ((e.keys (arg args 1) env.now env.order).map .bulk), e)

def cmdDBSize : Handler := fun env e _ => (.int (Int64.ofNat (e.dbSize env.now)), e)

def scanReply : Except ScanErr ScanResult → Reply
  | .error err => scanError err
  | .ok page => .array [.bulk (natText page.cursor), .array (page.keys.map .bulk)]

def cmdScan (mapUpper : Bytes → Bytes) : Handler := fun env e args =>
  (match parseScan mapUpper args with
    | .error bad => bad
    | .ok req => scanReply (env.scan req), e)

/-! ## Dispatch -/

inductive Cmd where
  | ping | set | get | mget | del | existing | incr | decr | expire | ttl | persist | keys | scan
  | dbSize
  deriving DecidableEq

def Cmd.run (mapUpper : Bytes → Bytes) : Cmd → Handler
  | ping => cmdPing
  | set => cmdSet mapUpper
  | get => cmdGet
  | mget => cmdMGet
  | del => cmdDel
  | existing => cmdExists
  | incr => cmdIncr
  | decr => cmdDecr
  | expire => cmdExpire
  | ttl => cmdTTL
  | persist => cmdPersist
  | keys => cmdKeys
  | scan => cmdScan mapUpper
  | dbSize => cmdDBSize

/-- The arities count the name itself; a negative `maxArgs` is unbounded. -/
structure Spec where
  minArgs : ℤ
  maxArgs : ℤ
  run : Cmd

def cmds : List (Bytes × Spec) :=
  [(ascii ['P', 'I', 'N', 'G'], ⟨1, 2, .ping⟩),
    (ascii ['S', 'E', 'T'], ⟨3, -1, .set⟩),
    (ascii ['G', 'E', 'T'], ⟨2, 2, .get⟩),
    (ascii ['M', 'G', 'E', 'T'], ⟨2, -1, .mget⟩),
    (ascii ['D', 'E', 'L'], ⟨2, -1, .del⟩),
    (ascii ['E', 'X', 'I', 'S', 'T', 'S'], ⟨2, -1, .existing⟩),
    (ascii ['I', 'N', 'C', 'R'], ⟨2, 2, .incr⟩),
    (ascii ['D', 'E', 'C', 'R'], ⟨2, 2, .decr⟩),
    (ascii ['E', 'X', 'P', 'I', 'R', 'E'], ⟨3, 3, .expire⟩),
    (ascii ['T', 'T', 'L'], ⟨2, 2, .ttl⟩),
    (ascii ['P', 'E', 'R', 'S', 'I', 'S', 'T'], ⟨2, 2, .persist⟩),
    (ascii ['K', 'E', 'Y', 'S'], ⟨2, 2, .keys⟩),
    (ascii ['S', 'C', 'A', 'N'], ⟨2, -1, .scan⟩),
    (ascii ['D', 'B', 'S', 'I', 'Z', 'E'], ⟨1, 1, .dbSize⟩)]

def Spec.checkArity (sp : Spec) (name : Bytes) (args : List Bytes) : Except Reply Cmd :=
  if args.length < sp.minArgs ∨ (0 ≤ sp.maxArgs ∧ sp.maxArgs < args.length) then
    .error (.error (text "ERR wrong number of arguments for '" ++ asciiLower name ++
      text "' command"))
  else .ok sp.run

/-- The handler of a command, or the reply that there is none for it. -/
def resolve (mapUpper : Bytes → Bytes) (args : List Bytes) : Except Reply Cmd :=
  match args with
  | [] => .error (.error (text "ERR empty command"))
  | first :: _ =>
    let name := toUpper mapUpper first
    match cmds.lookup name with
    | none => .error (.error (text "ERR unknown command '" ++ echoName first ++ text "'"))
    | some sp => sp.checkArity name args

def runResolved (mapUpper : Bytes → Bytes) : Except Reply Cmd → Handler
  | .error bad => fun _ e _ => (bad, e)
  | .ok c => c.run mapUpper

def dispatch (mapUpper : Bytes → Bytes) : Handler := fun env e args =>
  runResolved mapUpper (resolve mapUpper args) env e args

end Command

end GoKv
