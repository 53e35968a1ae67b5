import GoKv.Aof.Record
import GoKv.Resp.Reader
import GoKv.Store

/-! Reading a log back: the header, the records, and the three ways a file can end. -/
namespace GoKv.Aof
open GoLib GoKv.Resp

/-! ## Records -/

inductive Corrupt where
  | emptyRecord
  | setParts (n : ℕ)
  | setOption (option : Bytes)
  | notAnInteger
  | delNoKeys
  | verb (verb : Bytes)
  deriving DecidableEq, Repr

/-- The reader's own error, or ErrCorrupt joined with the reason. -/
inductive DecodeErr where
  | read (e : ReadErr)
  | corrupt (reason : Corrupt)
  deriving DecidableEq, Repr

/-- errors.Is against resp.ErrIncompleteFrame. -/
def DecodeErr.isIncomplete : DecodeErr → Bool
  | .read e => e.isIncomplete
  | .corrupt _ => false

/-- The record a frame's arguments spell. -/
def decodeParts (parts : List Bytes) : Except Corrupt Record :=
  match parts with
  | [] => .error .emptyRecord
  | verb :: rest =>
    if verb = verbSet then
      match rest with
      | [key, value] => .ok (.set key value none)
      | [key, value, option, ms] =>
        if option ≠ optPXAT then .error (.setOption option)
        else
          match parseInt64 ms with
          | none => .error .notAnInteger
          | some ms => .ok (.set key value (some ms))
      | _ => .error (.setParts parts.length)
    else if verb = verbDel then
      match rest with
      | [] => .error .delNoKeys
      | keys => .ok (.del keys)
    else .error (.verb verb)

section
variable {σ : Type*}

def decode (R : IoReader σ) (r : Reader σ) : Except DecodeErr Record × Reader σ :=
  match r.readCommand R with
  | (.error e, r) => (.error (.read e), r)
  | (.ok parts, r) =>
    match decodeParts parts with
    | .error c => (.error (.corrupt c), r)
    | .ok rec => (.ok rec, r)

/-! ## The header -/

def magic : Bytes := ascii ['G', 'O', 'K', 'V', 'A', 'O', 'F'] ++ [0]

def formatVersion : ℕ := 1

def headerSize : ℕ := 16

def uint32BE (n : ℕ) : Bytes :=
  [UInt8.ofNat (n / 2 ^ 24), UInt8.ofNat (n / 2 ^ 16), UInt8.ofNat (n / 2 ^ 8), UInt8.ofNat n]

def ofUint32BE (b : Bytes) : ℕ := b.foldl (fun n c => n * 256 + c.toNat) 0

def encodeHeader : Bytes := magic ++ uint32BE formatVersion ++ [0, 0, 0, 0]

inductive HeaderErr where
  | truncated
  | notAnAOF
  | unsupportedVersion (found : ℕ)
  | io (e : IoErr)
  deriving DecidableEq, Repr

def readHeader (R : IoReader σ) (s : σ) : Except HeaderErr Bool × σ :=
  let g := readFull R s headerSize
  (if g.data = [] ∧ (g.err = some .eof ∨ g.err = none) then .ok true
    else
      match g.err with
      | some .unexpectedEOF | some .eof => .error .truncated
      | some e => .error (.io e)
      | none =>
        if g.data.take 8 ≠ magic then .error .notAnAOF
        else if ofUint32BE ((g.data.take 12).drop 8) ≠ formatVersion then
          .error (.unsupportedVersion (ofUint32BE ((g.data.take 12).drop 8)))
        else .ok false,
    g.next)

/-! ## Replay -/

/-- A source and how many bytes it has handed out. -/
structure Counting (σ : Type*) where
  r : σ
  n : ℕ

def Counting.reader (R : IoReader σ) : IoReader (Counting σ) where
  read c k := let g := R.read c.r k; ⟨g.data, g.err, ⟨g.next, c.n + g.data.length⟩⟩
  length_le c k := R.length_le c.r k
  progress c k := R.progress c.r k

structure Result where
  records : ℕ
  lastValidOffset : ℤ
  truncated : Bool
  deriving DecidableEq, Repr

inductive ReplayErr where
  | header (e : HeaderErr)
  | corruption (offset : ℤ) (cause : DecodeErr)
  deriving DecidableEq, Repr

structure Replayed where
  result : Result
  err : Option ReplayErr
  dst : Store

/-- One effect. An expired set leaves its key absent. -/
def apply (rec : Record) (now : ℤ) (dst : Store) : Store :=
  match rec with
  | .set key value none => dst.set key value zeroTime false
  | .set key value (some ms) =>
    if now < ofUnixMilli ms then dst.set key value (ofUnixMilli ms) true else (dst.delete key).2
  | .del keys => keys.foldl (fun s k => (s.delete k).2) dst

/-- What Replay returns when Decode fails: a clean end, a torn tail, or a refusal. -/
def replayEnd (res : Result) (dst : Store) (e : DecodeErr) : Replayed :=
  if e = .read (.io .eof) then ⟨res, none, dst⟩
  else if e.isIncomplete then ⟨{ res with truncated := true }, none, dst⟩
  else ⟨res, some (.corruption res.lastValidOffset e), dst⟩

/-- The record loop, or `none` when the source outlasts the fuel. -/
def replayLoop (R : IoReader σ) (now : ℤ) :
    ℕ → Reader (Counting σ) → Result → Store → Option Replayed
  | 0, _, _, _ => none
  | fuel + 1, r, res, dst =>
    match decode (Counting.reader R) r with
    | (.error e, _) => some (replayEnd res dst e)
    | (.ok rec, r) =>
      replayLoop R now fuel r
        { res with
          records := res.records + 1
          lastValidOffset := r.br.rd.n - r.buffered }
        (apply rec now dst)

def replay (R : IoReader σ) (fuel : ℕ) (src : σ) (now : ℤ) (dst : Store) : Option Replayed :=
  match readHeader (Counting.reader R) ⟨src, 0⟩ with
  | (.error e, _) => some ⟨⟨0, 0, false⟩, some (.header e), dst⟩
  | (.ok true, _) => some ⟨⟨0, 0, false⟩, none, dst⟩
  | (.ok false, c) => replayLoop R now fuel (.new c defaultLimits) ⟨0, headerSize, false⟩ dst

/-- Every record is at least one byte, so a source's length bounds the records it holds. -/
def replayChunks (src : Chunks) (now : ℤ) (dst : Store) : Option Replayed :=
  replay Chunks.reader (src.rest.length + 1) src now dst

end

end GoKv.Aof
