import GoKv.Lib.Bufio
import GoKv.Lib.Slice

/-! The RESP2 request decoder: header lines read through the buffered reader, payloads read in
bounded chunks into one buffer the arguments are then cut from. -/
namespace GoKv.Resp
open GoLib

/-- What the decoder accepts from a peer. Zero `maxCommandBytes` disables that check. -/
structure Limits where
  maxArrayElements : ℤ
  maxBulkLength : ℤ
  maxCommandBytes : ℤ
  deriving DecidableEq, Repr

def defaultLimits : Limits where
  maxArrayElements := 1024
  maxBulkLength := 64 * 2 ^ 20
  maxCommandBytes := 128 * 2 ^ 20

def maxPreallocation : ℕ := 64 * 2 ^ 10

def maxRetainedBuffer : ℕ := 2 ^ 20

/-- A ProtocolError, an error of the stream passed through, or a runtime panic. -/
inductive ReadErr where
  | protocol (msg : String) (incomplete : Bool)
  | io (e : IoErr)
  | panic
  deriving DecidableEq, Repr

def protoErr (msg : String) : ReadErr := .protocol msg false

def incompleteErr (msg : String) : ReadErr := .protocol msg true

/-- errors.Is against ErrIncompleteFrame. -/
def ReadErr.isIncomplete : ReadErr → Bool
  | .protocol _ incomplete => incomplete
  | _ => false

/-! ## Integers -/

/-- The value a signed integer of `w` bits takes. -/
def wrap (w : ℕ) (n : ℤ) : ℤ := n.bmod (2 ^ w)

def parseDigits (w : ℕ) : Bytes → ℤ → Except String ℤ
  | [], n => .ok n
  | c :: cs, n =>
    if c < 48 ∨ 57 < c then .error "non-digit in integer"
    else if 2 ^ 30 < wrap w (n * 10 + (c.toNat - 48)) then .error "integer too large"
    else parseDigits w cs (wrap w (n * 10 + (c.toNat - 48)))

/-- parseInt on a machine whose int has `w` bits. -/
def parseInt (w : ℕ) (b : Bytes) : Except String ℤ :=
  match b with
  | [] => .error "empty integer"
  | c :: cs =>
    if c = 45 then
      if cs = [] then .error "lone minus sign"
      else (parseDigits w cs 0).map (fun n => wrap w (-n))
    else parseDigits w (c :: cs) 0

/-! ## Header lines -/

def lineResult (line : Bytes) (err : Option IoErr) : Except ReadErr Bytes :=
  match err with
  | some e =>
    if e = .bufferFull then .error (protoErr "header line too long")
    else if line ≠ [] ∧ (e = .eof ∨ e = .unexpectedEOF) then
      .error (incompleteErr "unexpected end of stream inside frame")
    else .error (.io e)
  | none =>
    if line.length < 2 ∨ (line)[line.length - 2]? ≠ some 13 then
      .error (protoErr "header line not terminated by CRLF")
    else .ok (line.take (line.length - 2))

def arrayLength (lim : Limits) (line : Bytes) : Except ReadErr ℕ :=
  if line.head? ≠ some 42 then .error (protoErr "expected '*' at start of request")
  else
    match parseInt 64 line.tail with
    | .error _ => .error (protoErr "invalid multibulk length")
    | .ok n =>
      if n ≤ 0 then .error (protoErr "invalid multibulk length")
      else if lim.maxArrayElements < n then .error (protoErr "multibulk length exceeds limit")
      else .ok n.toNat

def bulkLength (lim : Limits) (total : ℕ) (line : Bytes) : Except ReadErr ℕ :=
  if line.head? ≠ some 36 then .error (protoErr "expected '$' at start of bulk string")
  else
    match parseInt 64 line.tail with
    | .error _ => .error (protoErr "invalid bulk length")
    | .ok ln =>
      if ln < 0 then .error (protoErr "invalid bulk length")
      else if lim.maxBulkLength < ln then .error (protoErr "bulk length exceeds limit")
      else if 0 < lim.maxCommandBytes ∧ lim.maxCommandBytes - total < ln then
        .error (protoErr "command exceeds limit")
      else .ok ln.toNat

/-- An end of stream inside a frame is a protocol error. -/
def bulkReadErr : ReadErr → ReadErr
  | .io .eof | .io .unexpectedEOF => incompleteErr "unexpected end of stream inside frame"
  | e => e

/-! ## The reader -/

structure Reader (σ : Type*) where
  br : Bufio σ
  limits : Limits
  buf : Slice
  offsets : List (ℕ × ℕ)

namespace Reader

variable {σ : Type*}

def new (s : σ) (limits : Limits) : Reader σ := ⟨.ofReader s, limits, .nil, []⟩

def buffered (r : Reader σ) : ℕ := r.br.buffered

def readLine (R : IoReader σ) (r : Reader σ) : Except ReadErr Bytes × Reader σ :=
  let g := r.br.readSlice R 10
  (lineResult g.data g.err, { r with br := g.next })

/-- The capacity growBuf allocates for `need` bytes. -/
def growSize (lim : Limits) (capacity need : ℕ) : ℕ :=
  let size := if 2 * capacity < need then need else 2 * capacity
  if 0 < lim.maxCommandBytes ∧ lim.maxCommandBytes < size then
    if lim.maxCommandBytes < need then need else lim.maxCommandBytes.toNat
  else size

def growBuf (r : Reader σ) (need : ℕ) : Option (Reader σ) :=
  if need ≤ r.buf.cap then some r
  else (r.buf.realloc (growSize r.limits r.buf.cap need)).map fun b => { r with buf := b }

/-- The loop that reads `remaining` payload bytes in chunks. Each pass takes at least one, so
`remaining` passes are enough. -/
def readChunks (R : IoReader σ) : ℕ → ℕ → Reader σ → Except ReadErr Unit × Reader σ
  | 0, _, r => (.ok (), r)
  | fuel + 1, remaining, r =>
    if remaining = 0 then (.ok (), r)
    else
      let chunk := if maxPreallocation < remaining then maxPreallocation else remaining
      let start := r.buf.len
      match r.growBuf (start + chunk) with
      | none => (.error .panic, r)
      | some r =>
        match r.buf.upTo (start + chunk) with
        | none => (.error .panic, r)
        | some b =>
          let g := readFull (Bufio.toReader R) r.br chunk
          let r := { r with buf := b.store start g.data, br := g.next }
          match g.err with
          | some e => (.error (bulkReadErr (.io e)), r)
          | none => readChunks R fuel (remaining - chunk) r

/-- The end of readBulk: the payload of `ln` bytes from `start` on has its terminator. -/
def endBulk (r : Reader σ) (start ln : ℕ) : Except ReadErr Unit × Reader σ :=
  match r.buf.index (start + ln), r.buf.index (start + ln + 1) with
  | some c, some d =>
    if c ≠ 13 ∨ d ≠ 10 then (.error (protoErr "bulk string not terminated by CRLF"), r)
    else
      match r.buf.upTo (start + ln) with
      | none => (.error .panic, r)
      | some b => (.ok (), { r with buf := b, offsets := r.offsets ++ [(start, start + ln)] })
  | _, _ => (.error .panic, r)

def readPayload (R : IoReader σ) (r : Reader σ) (ln : ℕ) : Except ReadErr Unit × Reader σ :=
  match readChunks R (ln + 2) (ln + 2) r with
  | (.error e, r') => (.error e, r')
  | (.ok (), r') => r'.endBulk r.buf.len ln

def readBulk (R : IoReader σ) (r : Reader σ) : Except ReadErr Unit × Reader σ :=
  match r.readLine R with
  | (.error e, r) => (.error (bulkReadErr e), r)
  | (.ok line, r) =>
    match bulkLength r.limits r.buf.len line with
    | .error e => (.error e, r)
    | .ok ln => r.readPayload R ln

def readBulks (R : IoReader σ) : ℕ → Reader σ → Except ReadErr Unit × Reader σ
  | 0, r => (.ok (), r)
  | n + 1, r =>
    match r.readBulk R with
    | (.error e, r) => (.error e, r)
    | (.ok (), r) => readBulks R n r

/-- A buffer too large to keep between commands is dropped before the next frame. -/
def reset (r : Reader σ) : Reader σ :=
  { r with
    buf := (if maxRetainedBuffer < r.buf.cap then .nil else r.buf).clear
    offsets := [] }

@[simp] theorem reset_br (r : Reader σ) : r.reset.br = r.br := rfl

@[simp] theorem reset_limits (r : Reader σ) : r.reset.limits = r.limits := rfl

@[simp] theorem reset_offsets (r : Reader σ) : r.reset.offsets = [] := rfl

@[simp] theorem reset_len (r : Reader σ) : r.reset.buf.len = 0 := rfl

@[simp] theorem reset_data (r : Reader σ) : r.reset.buf.data = [] := Slice.data_clear _

def readCommand (R : IoReader σ) (r : Reader σ) : Except ReadErr (List Bytes) × Reader σ :=
  match r.readLine R with
  | (.error e, r) => (.error e, r)
  | (.ok line, r) =>
    match arrayLength r.limits line with
    | .error e => (.error e, r)
    | .ok n =>
      match readBulks R n r.reset with
      | (.error e, r) => (.error e, r)
      | (.ok (), r) =>
        match r.offsets.mapM fun o => r.buf.sub o.1 o.2 with
        | none => (.error .panic, r)
        | some args => (.ok args, r)

/-- Up to `n` calls of ReadCommand: the frames read, and the failure that ended them if one
did. -/
def readCommands (R : IoReader σ) : ℕ → Reader σ → List (List Bytes) × Option ReadErr × Reader σ
  | 0, r => ([], none, r)
  | n + 1, r =>
    match r.readCommand R with
    | (.error e, r) => ([], some e, r)
    | (.ok args, r) =>
      let (cmds, res) := readCommands R n r
      (args :: cmds, res)

end Reader

end GoKv.Resp
