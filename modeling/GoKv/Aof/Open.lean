import GoKv.Aof.Log
import GoKv.Aof.Replay

/-! Opening a log: replay it, cut the file back to its last whole record, append from there. -/
namespace GoKv.Aof
open GoLib

inductive OpenErr where
  | replay (e : ReplayErr)
  | file (code : ℕ)
  | truncating (offset : ℤ) (code : ℕ)
  deriving DecidableEq, Repr

/-- What the file answers while it is opened: how many bytes of the header a failed WriteAt
wrote, and the error of each call. The writer goroutine starts at `started`. -/
structure FileAnswers where
  headerBytes : ℕ
  writeErr : Option ℕ
  truncateErr : Option ℕ
  seekErr : Option ℕ
  started : ℤ

structure Opened where
  log : Option Sys
  result : Result
  err : Option OpenErr
  dst : Store
  file : Bytes

/-- A file grown by Truncate is filled with zeros. -/
def truncate (file : Bytes) (size : ℤ) : Bytes :=
  file.take size.toNat ++ List.replicate (size.toNat - file.length) 0

/-- Truncate to the last valid offset, seek there and start the writer. -/
def openAt (policy : Policy) (a : FileAnswers) (res : Result) (dst : Store) (file : Bytes) :
    Opened :=
  match a.truncateErr with
  | some c => ⟨none, res, some (.truncating res.lastValidOffset c), dst, file⟩
  | none =>
    match a.seekErr with
    | some c => ⟨none, res, some (.file c), dst, truncate file res.lastValidOffset⟩
    | none => ⟨some (.init policy a.started), res, none, dst, truncate file res.lastValidOffset⟩

/-- `src` delivers the file's bytes. A file Replay refuses is closed as it was. -/
def openFile (policy : Policy) (a : FileAnswers) (src : Chunks) (now : ℤ) (dst : Store) :
    Option Opened :=
  (replayChunks src now dst).map fun r =>
    match r.err with
    | some e => ⟨none, r.result, some (.replay e), r.dst, src.rest⟩
    | none =>
      if r.result.lastValidOffset = 0 then
        -- A new file gets its header first.
        match a.writeErr with
        | some c =>
          ⟨none, r.result, some (.file c), r.dst,
            encodeHeader.take a.headerBytes ++ src.rest.drop a.headerBytes⟩
        | none =>
          openAt policy a { r.result with lastValidOffset := headerSize } r.dst
            (encodeHeader ++ src.rest.drop headerSize)
      else openAt policy a r.result r.dst src.rest

end GoKv.Aof
