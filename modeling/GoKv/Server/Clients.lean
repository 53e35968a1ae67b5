import GoKv.Command.Answer
import GoKv.Engine.Ledger
import GoKv.Lib.Front
import GoKv.Server.Exchange

/-! Many clients at once. Every connection has a goroutine that reads a command, makes its call on
the engine, waits for durability and writes the reply; the goroutines interleave as the engine's
lock allows. The clients cannot tell: it is as if whole commands were handled one at a time. SCAN is
the exception, since it captures the keys under this lock and pages through them under another: what
it answers comes with the command here, and its sessions are not looked at. -/
namespace GoKv
open GoLib GoKv.Aof GoKv.Resp Command

/-- What a goroutine does for the server: a command, a sweep, or the end of mutation admission.
What a command's durability wait and the scan sessions will answer is up to neither the engine nor
the client, and is drawn with the command. -/
inductive ServerCall where
  | command (args : List Bytes) (wait : Except AofErr Unit)
      (scan : ScanRequest → Except ScanErr ScanResult)
  | sweep
  | beginDrain

namespace ServerCall

variable (mapUpper : Bytes → Bytes)

/-- A command in terms of the one call it makes on the engine. SCAN is taken to make none. -/
def front : Front EngineCall Ticket ServerCall (Option Command.Reply) where
  plan
    | .command args _ _ => (operation mapUpper [] args).map .op
    | .sweep => some .sweep
    | .beginDrain => some .beginDrain
  answer
    | .command args wait scan, r =>
      match operation mapUpper [] args, r with
      | some op, some t => some (render op (awaited wait t))
      | _, _ => some (dispatch mapUpper (.idle scan) .new args).1
    | _, _ => none

def fits (x : Met) (s : Store) : ServerCall → Bool
  | .command args _ _ =>
    match operation mapUpper [] args with
    | none => true
    | some op => EngineCall.fits x s (.op op)
  | .sweep => EngineCall.fits x s .sweep
  | .beginDrain => true

/-- Requests handled one at a time: a command is handled by Dispatch. -/
def serial : AtomicObject Engine ℤ Met ServerCall (Option Command.Reply) Aof.Event where
  time := Met.now
  fits k x e := k.fits mapUpper x e.store
  run k x e :=
    match k with
    | .command args wait scan =>
      let (r, e) := dispatch mapUpper ⟨x.now, x.order, wait, scan⟩ e args
      (some r, e)
    | .sweep => (none, (e.reclaimOnce x.now x.order).2)
    | .beginDrain => (none, e.beginDrain)
  env e ev := (logStep e.log ev).map fun log => { e with log := log }

variable {mapUpper}

/-- Dispatch is what the front end makes of the call. -/
theorem run_command (args : List Bytes) (wait : Except AofErr Unit)
    (scan : ScanRequest → Except ScanErr ScanResult) (x : Met) (m : Memory) (log : Option Sys) :
    let out := (Engine.locked.atomic.front (front mapUpper)).run (.command args wait scan) x
      (m, log)
    out.1 = ((serial mapUpper).run (.command args wait scan) x (m.engine log)).1 ∧
      out.2.1.engine out.2.2 =
        ((serial mapUpper).run (.command args wait scan) x (m.engine log)).2 := by
  have hreply := dispatch_ticket mapUpper ⟨x.now, x.order, wait, scan⟩ (m.engine log) args
  have hengine := dispatch_engine mapUpper ⟨x.now, x.order, wait, scan⟩ (m.engine log) args
  rw [operation_order] at hreply hengine
  simp only [serial, hreply, hengine]
  cases hop : operation mapUpper [] args with
  | none =>
    have hplan : (front mapUpper).plan (.command args wait scan) = none := by
      simp only [front, hop, Option.map_none]
    rw [AtomicObject.front_run_none hplan]
    refine ⟨?_, rfl⟩
    simp only [front, hop, Option.map_none]
  | some op =>
    have hplan : (front mapUpper).plan (.command args wait scan) = some (.op op) := by
      simp only [front, hop, Option.map_some]
    obtain ⟨hticket, hnext⟩ := Engine.run_locked (.op op) x m log
    rw [AtomicObject.front_run hplan]
    refine ⟨?_, hnext.trans ((m.engine log).ticket_exec x.now (op.meeting x.order)).2⟩
    simp only [front, hop, hticket, Option.map_some, render_meeting]
    rfl

/-- Goroutines behind the lock, seen from the outside, handle their requests one at a time. -/
theorem refines_serial : (Engine.locked.atomic.front (front mapUpper)).Refines (serial mapUpper)
    fun _ s e => e = s.1.engine s.2 where
  time := rfl
  fits {clock s e k x} h hfits := by
    subst h
    cases k with
    | command args wait scan =>
      simp only [AtomicObject.front, front, serial, ServerCall.fits] at hfits ⊢
      cases hop : operation mapUpper [] args with
      | none => rfl
      | some op => rwa [hop] at hfits
    | sweep => exact hfits
    | beginDrain => exact hfits
  run {clock s e k x} h hnow hfits := by
    subst h
    cases k with
    | command args wait scan =>
      obtain ⟨hreply, hnext⟩ := run_command args wait scan x s.1 s.2
      exact ⟨hreply, hnext.symm⟩
    | sweep => exact ⟨rfl, (Engine.run_locked .sweep x s.1 s.2).2.symm⟩
    | beginDrain => exact ⟨rfl, (Engine.run_locked .beginDrain x s.1 s.2).2.symm⟩
  env {clock s e ev s'} h henv := by
    subst h
    obtain ⟨log, hlog, rfl⟩ := Option.map_eq_some_iff.mp henv
    have hstep : logStep s.2 ev = some log := hlog
    refine ⟨_, ?_, rfl⟩
    simp only [serial, Memory.engine, hstep, Option.map_some]

end ServerCall

/-- The goroutines of the server, in front of the engine's lock. -/
abbrev Clients :=
  Fronted Memory (Option Sys) ℤ Met EngineCall Ticket ServerCall (Option Command.Reply)

namespace Clients

variable {mapUpper : Bytes → Bytes} {t : Clients}

def step (mapUpper : Bytes → Bytes) :
    Clients → FrontEvent Met EngineCall ServerCall Aof.Event → Option Clients :=
  Fronted.step Engine.locked (ServerCall.front mapUpper)

theorem met_at (clock : ℤ) : ∃ x, Engine.locked.time x = clock := ⟨⟨clock, []⟩, rfl⟩

def incrK : ServerCall := .command [text "INCR", text "k"] (.ok ()) fun _ => .error .other

/-- Two clients increment a key. The one that came second has the lock first, and gets its reply
last. -/
def twoIncrs : List (FrontEvent Met EngineCall ServerCall Aof.Event) :=
  [.request 0 incrK, .request 1 incrK, .below (.acquire 1), .below (.enter 1 ⟨1, []⟩),
    .below (.look 1), .below (.look 1), .below (.look 1), .below (.commit 1), .below (.change 1),
    .below (.release 1), .below (.acquire 0), .below (.enter 0 ⟨2, []⟩), .below (.look 0),
    .below (.look 0), .below (.look 0), .below (.look 0), .below (.commit 0), .below (.change 0),
    .below (.release 0), .reply 0, .reply 1]

def exchanges (c : ℕ) (trace : List (Visible ServerCall (Option Command.Reply))) :
    List (List Bytes × Command.Reply) :=
  trace.filterMap fun
    | .answer d (.command args _ _) (some r) => if d = c then some (args, r) else none
    | _ => none

/-- The bytes a client sends, the way its socket hands them over, and their one parse. -/
structure Connection where
  ι : Type
  src : IoReader ι
  fails : Wire.Failures
  limits : Limits
  flushEveryReply : Bool
  I : ι → Prop
  rest : ι → Bytes
  delivers : Delivers src I rest
  input : ι
  ready : I input
  frames : List (Frame limits)
  tail : Bytes
  splits : Splits limits (rest input) frames tail

namespace Connection

variable (conn : Connection)

def commands : List (List Bytes) := conn.frames.map Frame.args

def complaints : List Command.Reply :=
  (Wire.complaint conn.limits conn.tail).toList.map Wire.protocolReply

def handler (rs : List Command.Reply) : Wire.ConnHandler conn.ι where
  src := conn.src
  fails := conn.fails
  reply cmds := (rs[cmds.length - 1]?.getD .nullBulk).raw
  draining _ := false
  limits := conn.limits
  flushEveryReply := conn.flushEveryReply

theorem replies_handler (done : List (List Bytes)) (given : List Command.Reply)
    (cmds : List (List Bytes)) (rs : List Command.Reply) (hdone : given.length = done.length)
    (hrs : rs.length = cmds.length) : (conn.handler (given ++ rs)).Replies done cmds rs := by
  induction cmds generalizing done given rs with
  | nil => exact List.length_eq_zero_iff.mp hrs
  | cons args cmds ih =>
    obtain ⟨r, rs, rfl⟩ := List.exists_cons_of_length_eq_add_one hrs
    refine ⟨r, rs, rfl, ?_, ?_⟩
    · have hlast : (done ++ [args]).length - 1 = given.length := by simp [hdone]
      simp only [handler, hlast, List.getElem?_append_right le_rfl, Nat.sub_self,
        List.getElem?_cons_zero, Option.getD_some]
    · have hnext := ih (done ++ [args]) (given ++ [r]) rs (by simp [hdone]) (Nat.succ.inj hrs)
      rwa [List.append_assoc] at hnext

end Connection

private theorem fitsFrame_incr : FitsFrame defaultLimits [text "INCR", text "k"] :=
  ⟨by decide, by decide, by decide, by decide, by decide⟩

def incrConnection : Connection where
  ι := Chunks
  src := Chunks.reader
  fails _ _ := none
  limits := defaultLimits
  flushEveryReply := false
  I _ := True
  rest := Chunks.rest
  delivers := Chunks.delivers
  input := .whole (text "*2\r\n$4\r\nINCR\r\n$1\r\nk\r\n")
  ready := trivial
  frames := [⟨_, _, isFrame_writeCommand fitsFrame_incr⟩]
  tail := []
  splits := ⟨by decide +kernel, fun f hf => f.bytes_ne_nil (List.prefix_nil.mp hf)⟩

end Clients

end GoKv
