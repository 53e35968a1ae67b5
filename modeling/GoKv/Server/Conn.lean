import GoKv.Resp.Reader
import GoKv.Server.Replies

/-! The handler of one connection: the command loop, and the flusher that sends what it has
written before the reader would block. The connection keeps a trace of what happens on it. -/
namespace GoKv.Wire
open GoLib Resp Command

universe u

/-! ## The connection -/

inductive ConnEvent where
  /-- A call of conn.Read, with the number of reply bytes the writer holds back. -/
  | read (pending : ℕ)
  /-- A call of conn.Write with `p`, of which `n` bytes are taken. -/
  | write (p : Bytes) (n : ℕ) (err : Option ℕ)
  /-- A command is dispatched and answered. -/
  | dispatch (args : List Bytes) (reply : RawReply)
  /-- The command loop ends in a protocol error, which is reported to the client. -/
  | protocolError (msg : String)
  /-- A reply could not be encoded to its end. -/
  | encodeFailed

namespace ConnEvent

def isWrite : ConnEvent → Bool
  | write .. => true
  | _ => false

/-- A failed write or a failed encoding. -/
def failed : ConnEvent → Bool
  | write _ _ err => err.isSome
  | encodeFailed => true
  | _ => false

def taken : ConnEvent → Bytes
  | write p n _ => p.take n
  | _ => []

def isAnswer : ConnEvent → Bool
  | dispatch .. | protocolError _ => true
  | _ => false

def answer : ConnEvent → Bytes
  | dispatch _ reply => (encode reply).1
  | protocolError msg => lineReply 45 (text "ERR Protocol error: " ++ text msg)
  | _ => []

end ConnEvent

/-- What the client has received. -/
def delivered (trace : List ConnEvent) : Bytes := trace.flatMap ConnEvent.taken

/-- The encoded answers, in order. -/
def expected (trace : List ConnEvent) : Bytes := trace.flatMap ConnEvent.answer

def answers (trace : List ConnEvent) : List ConnEvent := trace.filter ConnEvent.isAnswer

structure Conn (ι : Type u) where
  input : ι
  trace : List ConnEvent

variable {ι : Type u}

/-- When conn.Write fails: after how many bytes, and with which error. -/
abbrev Failures : Type := List ConnEvent → Bytes → Option (ℕ × ℕ)

def Conn.log (c : Conn ι) (e : ConnEvent) : Conn ι := { c with trace := c.trace ++ [e] }

def Conn.writer (fails : Failures) : IoWriter (Conn ι) where
  write c p :=
    match fails c.trace p with
    | none => ⟨p.length, none, c.log (.write p p.length none)⟩
    | some (n, e) => ⟨min n p.length, some e, c.log (.write p (min n p.length) (some e))⟩
  n_le c p := by
    cases fails c.trace p with
    | none => exact le_rfl
    | some f => exact min_le_right _ _
  short c p h := by
    cases hf : fails c.trace p with
    | none => simp [hf] at h
    | some f => simp

/-! ## The flusher -/

structure ConnFlusher (ι : Type u) where
  w : BufWriter (Conn ι)
  failed : Bool

/-- The error a failed flush hands to the reader. -/
def errFlushFailed : ℕ := 0

namespace ConnFlusher

def conn (fl : ConnFlusher ι) : Conn ι := fl.w.wr

def log (fl : ConnFlusher ι) (e : ConnEvent) : ConnFlusher ι :=
  { fl with w := { fl.w with wr := fl.conn.log e } }

def flush (W : IoWriter (Conn ι)) (fl : ConnFlusher ι) : Bool × ConnFlusher ι :=
  if fl.failed then (false, fl)
  else if fl.w.buffered = 0 then (true, fl)
  else
    match fl.w.flush W with
    | (.error _, w) => (false, ⟨w, true⟩)
    | (.ok (), w) => (true, { fl with w := w })

/-- Latches without flushing. -/
def fail (fl : ConnFlusher ι) : ConnFlusher ι := { fl with failed := true }

def connRead (src : IoReader ι) (fl : ConnFlusher ι) (k : ℕ) : Got (ConnFlusher ι) :=
  let g := src.read fl.conn.input k
  ⟨g.data, g.err,
    { fl with w := { fl.w with wr := { fl.conn.log (.read fl.w.buffered) with input := g.next } } }⟩

end ConnFlusher

def connReader (src : IoReader ι) : IoReader (ConnFlusher ι) where
  read := ConnFlusher.connRead src
  length_le fl := src.length_le fl.conn.input
  progress fl := src.progress fl.conn.input

/-- The pending replies are sent before the reader would block. -/
def flushBeforeRead (src : IoReader ι) (W : IoWriter (Conn ι)) : IoReader (ConnFlusher ι) where
  read fl k :=
    match fl.flush W with
    | (false, fl) => ⟨[], some (.transport errFlushFailed), fl⟩
    | (true, fl) => fl.connRead src k
  length_le fl k := by
    obtain ⟨ok, fl'⟩ := fl.flush W
    cases ok with
    | false => exact Nat.zero_le _
    | true => exact src.length_le _ _
  progress fl k hk h := by
    generalize fl.flush W = x at h ⊢
    obtain ⟨ok, fl'⟩ := x
    cases ok with
    | false => cases h
    | true => exact src.progress _ _ hk h

/-! ## The command loop -/

/-- A handler and what it meets: the client's bytes as the socket delivers them, the writes that
fail, the reply to every sequence of commands, and the passes at whose start the server is
draining. -/
structure ConnHandler (ι : Type u) where
  src : IoReader ι
  fails : Failures
  reply : List (List Bytes) → RawReply
  draining : ℕ → Bool
  limits : Limits
  flushEveryReply : Bool

namespace ConnHandler

def writer (H : ConnHandler ι) : IoWriter (Conn ι) := Conn.writer H.fails

def source (H : ConnHandler ι) : IoReader (ConnFlusher ι) :=
  if H.flushEveryReply then connReader H.src else flushBeforeRead H.src H.writer

/-- A protocol error is reported, an end of the stream or a transport error is not. A panic
unwinds past the final flush. -/
def reportReadError (H : ConnHandler ι) (fl : ConnFlusher ι) : ReadErr → Option (ConnFlusher ι)
  | .io _ => some fl
  | .protocol msg _ =>
    let fl := fl.log (.protocolError msg)
    let msg := text "ERR Protocol error: " ++ text msg
    some (ConnFlusher.flush H.writer
      { fl with w := ((Writer.writeError H.writer msg).run fl.w).2 }).2
  | .panic => none

def serve (H : ConnHandler ι) :
    ℕ → Reader (ConnFlusher ι) → List (List Bytes) → Option (ConnFlusher ι)
  | 0, _, _ => none
  | fuel + 1, r, cmds =>
    if H.draining cmds.length then some r.br.rd
    else
      match r.readCommand H.source with
      | (.error e, r) => H.reportReadError r.br.rd e
      | (.ok args, r) =>
        let reply := H.reply (cmds ++ [args])
        let fl := r.br.rd.log (.dispatch args reply)
        match (writeReply H.writer reply).run fl.w with
        | (.error _, w) => some (({ fl with w := w } : ConnFlusher ι).fail.log .encodeFailed)
        | (.ok (), w) =>
          let fl := { fl with w := w }
          if H.flushEveryReply then
            match fl.flush H.writer with
            | (false, fl) => some fl
            | (true, fl) =>
              H.serve fuel { r with br := { r.br with rd := fl } } (cmds ++ [args])
          else H.serve fuel { r with br := { r.br with rd := fl } } (cmds ++ [args])

/-- serveConn on a fresh connection: the trace when it returns. -/
def serveConn (H : ConnHandler ι) (fuel : ℕ) (input : ι) : Option (List ConnEvent) :=
  (H.serve fuel (.new ⟨.ofWriter ⟨input, []⟩, false⟩ H.limits) []).map fun fl =>
    (fl.flush H.writer).2.conn.trace

end ConnHandler

end GoKv.Wire
