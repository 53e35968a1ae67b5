import GoKv.Engine.Spec
import GoKv.Server.Supervisor

/-! The server: a goroutine for each connection, the connection set, and the stages of a graceful
shutdown, over the engine and its log. What happens under one lock is one step. -/
namespace GoKv
open GoLib GoKv.Aof

structure Config where
  maxClients : ℤ
  readTimeout : Duration

/-- What is reported to the supervisor: a panic in the engine, a failure of the log, or a log
that did not close in time. -/
inductive Fatal where
  | engine (code : ℕ)
  | log (e : FileErr)
  | closeTimeout
  deriving DecidableEq

/-- Where a connection's goroutine is: handed out by Accept, registered, counted by the wait
group and at the top of its loop, past the drain check, between two reads, in conn.Read, with a
command to dispatch, in Await, with a reply to write, out of the loop, unregistered, over. -/
inductive Pc where
  | absent
  | accepted
  | admitted
  | top
  | arming
  | reading
  | blocked
  | dispatching
  | awaiting
  | replying
  | leaving
  | released
  | finished
  deriving DecidableEq

structure Handler where
  pc : Pc
  deadline : Option ℤ
  deriving DecidableEq

/-- How far gracefulShutdown has come. Its later stages carry what waitConns reported. -/
inductive Stage where
  | serving
  | listenerClosed
  | expirationStopped
  | admissionClosed
  | signalled
  | passing (todo : List ℕ)
  | waiting (done : Bool)
  | finalizing (drained : Bool)
  | closing (drained : Bool)
  | awaitingClose (drained : Bool)
  | finalized (drained : Bool)
  | returned (res : Option (RunErr Fatal))
  deriving DecidableEq

/-- `conns` is the connection set, `wg` the goroutines the wait group counts, and `passed` the
instant the pass over the read deadlines was complete. `applied` lists the records of the
mutations applied to memory. -/
structure Server where
  cfg : Config
  engine : Engine
  clock : ℤ
  conns : List ℕ
  wg : List ℕ
  handlers : ℕ → Handler
  draining : Bool
  fatal : Option Fatal
  expiring : Bool
  stage : Stage
  passed : Option ℤ
  applied : List Record

inductive HandlerEvent where
  | accept
  | admitConn
  | start
  | check
  | arm (now : ℤ)
  | read
  | recv
  | command
  | timeout (now : ℤ)
  | readErr
  | exec (now : ℤ) (op : Op)
  | other
  | panicked
  | awaited
  | reply
  | replyErr
  | release
  | finish

inductive ShutdownEvent where
  | begin
  | stopExpiration (ok : Bool)
  | beginDrain
  | closeDraining
  | lock
  | visit (c : ℕ) (now : ℤ)
  | unlock
  | waitDone
  | drained
  | undrained
  | finalize
  | signalClose
  | closeDone
  | closeTimeout
  | judge

inductive ServerEvent where
  | handler (c : ℕ) (e : HandlerEvent)
  | shutdown (e : ShutdownEvent)
  | sweep (now : ℤ) (order : List Bytes)
  | fatal (code : ℕ)
  | log (e : Aof.Event)

namespace Server

def start (cfg : Config) (engine : Engine) (clock : ℤ) : Server where
  cfg := cfg
  engine := engine
  clock := clock
  conns := []
  wg := []
  handlers _ := ⟨.absent, none⟩
  draining := false
  fatal := none
  expiring := true
  stage := .serving
  passed := none
  applied := []

/-- The pass over the connections holds the server's mutex. -/
def locked (s : Server) : Bool :=
  match s.stage with
  | .passing _ => true
  | _ => false

def setPc (s : Server) (c : ℕ) (pc : Pc) : Server :=
  { s with handlers := Function.update s.handlers c { s.handlers c with pc := pc } }

/-- The goroutine sets its own read deadline, or clears it when there is no idle timeout. -/
def armed (s : Server) (c : ℕ) (now : ℤ) : Server :=
  { s with
    clock := now
    handlers := Function.update s.handlers c ⟨.reading,
      if 0 < s.cfg.readTimeout then some (timeAdd now s.cfg.readTimeout) else none⟩ }

def visited (s : Server) (todo : List ℕ) (c : ℕ) (now : ℤ) : Server :=
  { s with
    stage := .passing (todo.erase c)
    clock := now
    handlers := Function.update s.handlers c { s.handlers c with deadline := some now } }

/-- Only the first report counts. -/
def report (s : Server) (cause : Fatal) : Server := { s with fatal := s.fatal.or (some cause) }

def setLog (s : Server) (l : Sys) : Server := { s with engine := { s.engine with log := some l } }

/-- An operation of the engine; one that appended a record goes on to await it. -/
def exec (s : Server) (c : ℕ) (now : ℤ) (op : Op) : Option Server :=
  let (reply, e) := s.engine.exec now op
  let t := { s with
    engine := e
    clock := now
    applied := s.applied ++ s.engine.effects now op reply }
  if e.appliedSeq = s.engine.appliedSeq then some (t.setPc c .replying)
  else
    match e.log with
    | none => some (t.setPc c .replying)
    | some l => (l.step (.await c e.appliedSeq l.log.policy)).map fun l =>
        (t.setLog l).setPc c .awaiting

def handlerStep (s : Server) (c : ℕ) : HandlerEvent → Option Server
  | .accept =>
    if (s.handlers c).pc = .absent ∧ s.stage = .serving then some (s.setPc c .accepted) else none
  | .admitConn =>
    if (s.handlers c).pc = .accepted ∧ s.locked = false then
      -- Over the limit the connection is closed at once.
      if s.conns.length < s.cfg.maxClients then
        some { s.setPc c .admitted with conns := c :: s.conns }
      else some (s.setPc c .finished)
    else none
  | .start =>
    if (s.handlers c).pc = .admitted then some { s.setPc c .top with wg := c :: s.wg } else none
  | .check =>
    if (s.handlers c).pc = .top then some (s.setPc c (if s.draining then .leaving else .arming))
    else none
  | .arm now =>
    if (s.handlers c).pc = .arming ∧ s.clock ≤ now then some (s.armed c now) else none
  | .read => if (s.handlers c).pc = .reading then some (s.setPc c .blocked) else none
  | .recv => if (s.handlers c).pc = .blocked then some (s.setPc c .reading) else none
  | .command => if (s.handlers c).pc = .reading then some (s.setPc c .dispatching) else none
  | .timeout now =>
    match (s.handlers c).deadline with
    | none => none
    | some d =>
      if (s.handlers c).pc = .blocked ∧ d ≤ now ∧ s.clock ≤ now then
        some { s.setPc c .leaving with clock := now }
      else none
  | .readErr =>
    if (s.handlers c).pc = .reading ∨ (s.handlers c).pc = .blocked then some (s.setPc c .leaving)
    else none
  | .exec now op =>
    if (s.handlers c).pc = .dispatching ∧ s.clock ≤ now ∧ op.Iterates s.engine.store then
      s.exec c now op
    else none
  | .other => if (s.handlers c).pc = .dispatching then some (s.setPc c .replying) else none
  | .panicked => if (s.handlers c).pc = .dispatching then some (s.setPc c .leaving) else none
  | .awaited =>
    match s.engine.log with
    | none => none
    | some l =>
      match l.callers c with
      | .returned _ _ _ =>
        if (s.handlers c).pc = .awaiting then some (s.setPc c .replying) else none
      | _ => none
  | .reply => if (s.handlers c).pc = .replying then some (s.setPc c .top) else none
  | .replyErr => if (s.handlers c).pc = .replying then some (s.setPc c .leaving) else none
  | .release =>
    if (s.handlers c).pc = .leaving ∧ s.locked = false then
      some { s.setPc c .released with conns := s.conns.erase c }
    else none
  | .finish =>
    if (s.handlers c).pc = .released then
      some { s.setPc c .finished with wg := s.wg.erase c }
    else none

/-- What gracefulShutdown returns. A fatal report outweighs a drain that timed out. -/
def outcome (fatal : Option Fatal) (drained : Bool) : Option (RunErr Fatal) :=
  match fatal with
  | some cause => some (.fatal cause)
  | none => if drained then none else some .timeout

/-- gracefulShutdown, from closing the listener to what it returns. -/
def shutdownStep (s : Server) : ShutdownEvent → Option Server
  | .begin => if s.stage = .serving then some { s with stage := .listenerClosed } else none
  | .stopExpiration ok =>
    if s.stage = .listenerClosed then
      some { s with stage := .expirationStopped, expiring := s.expiring && !ok }
    else none
  | .beginDrain =>
    if s.stage = .expirationStopped then
      some { s with stage := .admissionClosed, engine := s.engine.beginDrain }
    else none
  | .closeDraining =>
    if s.stage = .admissionClosed then some { s with stage := .signalled, draining := true }
    else none
  | .lock => if s.stage = .signalled then some { s with stage := .passing s.conns } else none
  | .visit c now =>
    match s.stage with
    | .passing todo =>
      if c ∈ todo ∧ s.clock ≤ now then some (s.visited todo c now) else none
    | _ => none
  | .unlock =>
    if s.stage = .passing [] then some { s with stage := .waiting false, passed := some s.clock }
    else none
  | .waitDone =>
    match s.stage with
    | .waiting _ => if s.wg = [] then some { s with stage := .waiting true } else none
    | _ => none
  | .drained =>
    if s.stage = .waiting true then some { s with stage := .finalizing true } else none
  | .undrained =>
    match s.stage with
    | .waiting _ => some { s with stage := .finalizing false }
    | _ => none
  | .finalize =>
    match s.stage, s.engine.log with
    | .finalizing d, none => some { s with stage := .finalized d }
    | .finalizing d, some l =>
      (l.step .beginClose).map fun l => { s.setLog l with stage := .closing d }
    | _, _ => none
  | .signalClose =>
    match s.stage, s.engine.log with
    | .closing d, some l =>
      (l.step .signalClose).map fun l => { s.setLog l with stage := .awaitingClose d }
    | _, _ => none
  | .closeDone =>
    match s.stage, s.engine.log with
    | .awaitingClose d, some l =>
      if l.log.done then
        match l.log.failed with
        | some e => some { s.report (.log e) with stage := .finalized d }
        | none => some { s with stage := .finalized d }
      else none
    | _, _ => none
  | .closeTimeout =>
    match s.stage with
    | .awaitingClose d => some { s.report .closeTimeout with stage := .finalized d }
    | _ => none
  | .judge =>
    match s.stage with
    | .finalized d =>
      some { s with stage := .returned (outcome s.fatal d) }
    | _ => none

/-- The steps of the log that neither an operation nor Close takes. A failure is reported to the
supervisor as the log reports it. -/
def logStep (s : Server) (e : Aof.Event) : Option Server :=
  match e, s.engine.log with
  | .append _, _ | .await _ _ _, _ | .beginClose, _ | .signalClose, _ | _, none => none
  | .report, some l =>
    (l.step .report).map fun l' => match l.log.failed with
      | some err => (s.setLog l').report (.log err)
      | none => s.setLog l'
  | e, some l => (l.step e).map s.setLog

def step (s : Server) : ServerEvent → Option Server
  | .handler c e => s.handlerStep c e
  | .shutdown e => s.shutdownStep e
  | .sweep now order =>
    if s.expiring ∧ s.clock ≤ now ∧ order.Perm s.engine.store.expires.keys then
      some { s with engine := (s.engine.reclaimOnce now order).2, clock := now }
    else none
  | .fatal code => some (s.report (.engine code))
  | .log e => s.logStep e

end Server

end GoKv
