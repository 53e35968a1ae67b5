import GoKv.Lib.Output

/-! The RESP2 writer: the frames of requests and of the append-only file, the replies, and the
parser a client reads them with. -/
namespace GoKv.Resp
open GoLib

def crlf : Bytes := [13, 10]

def numberLine (n : ℤ) : Bytes := formatInt n ++ crlf

theorem numberLine_natCast (n : ℕ) : numberLine n = natText n ++ crlf := by
  rw [numberLine, formatInt_natCast]

def writeBulk (s : Bytes) : Bytes := 36 :: (numberLine s.length ++ s ++ crlf)

def writeArrayHeader (n : ℤ) : Bytes := 42 :: numberLine n

/-- An array of bulk strings: the shape of every request and of every log record. -/
def writeCommand (args : List Bytes) : Bytes :=
  writeArrayHeader args.length ++ (args.map writeBulk).flatten

/-- CR or LF: what would end a line early. -/
def isBreak (c : UInt8) : Bool := c == 13 || c == 10

/-- A line's payload with every CR and LF mapped to a space. -/
def lineSafe (s : Bytes) : Bytes := s.map fun c => if isBreak c then 32 else c

def lineReply (tag : UInt8) (s : Bytes) : Bytes := tag :: (lineSafe s ++ crlf)

def intReply (n : Int64) : Bytes := 58 :: numberLine n.toInt

def nullBulkReply : Bytes := [36, 45, 49, 13, 10]

universe u

namespace Writer

variable {σ : Type u} (W : IoWriter σ)

def crlf : Out σ Unit := .string W Resp.crlf

def numberLine (n : ℤ) : Out σ Unit := do
  Out.bytes W (formatInt n)
  crlf W

/-- The segments between offending bytes are copied whole. Each pass leaves a shorter rest. -/
def writeLineSafe : ℕ → Bytes → Out σ Unit
  | 0, _ => pure ()
  | fuel + 1, s =>
    match s.findIdx? isBreak with
    | none => .string W s
    | some i => do
      Out.string W (s.take i)
      Out.byte W 32
      writeLineSafe fuel (s.drop (i + 1))

def prefixed (tag : UInt8) (s : Bytes) : Out σ Unit := do
  Out.byte W tag
  writeLineSafe W (s.length + 1) s
  crlf W

def writeSimpleString (s : Bytes) : Out σ Unit := prefixed W 43 s

def writeError (s : Bytes) : Out σ Unit := prefixed W 45 s

def writeInt (n : Int64) : Out σ Unit := do
  Out.byte W 58
  numberLine W n.toInt

def writeBulk (s : Bytes) : Out σ Unit := do
  Out.byte W 36
  numberLine W s.length
  Out.string W s
  crlf W

def writeNullBulk : Out σ Unit := .string W nullBulkReply

def writeArrayHeader (n : ℕ) : Out σ Unit := do
  Out.byte W 42
  numberLine W n

end Writer

/-! ## What the writer emits -/

private theorem lineSafe_append (s t : Bytes) : lineSafe (s ++ t) = lineSafe s ++ lineSafe t :=
  List.map_append

theorem lineSafe_eq_self {s : Bytes} (h : ∀ c ∈ s, isBreak c = false) : lineSafe s = s := by
  induction s with
  | nil => rfl
  | cons c s ih =>
    have hs := ih fun d hd => h d (List.mem_cons_of_mem _ hd)
    simp only [lineSafe, List.map_cons, h c List.mem_cons_self] at hs ⊢
    rw [hs]
    rfl

private theorem lineSafe_of_findIdx {s : Bytes} {i : ℕ} (h : s.findIdx? isBreak = some i) :
    s.take i ++ ([32] ++ lineSafe (s.drop (i + 1))) = lineSafe s := by
  obtain ⟨hi, hbreak, hbefore⟩ := List.findIdx?_eq_some_iff_getElem.mp h
  have hpre : lineSafe (s.take i) = s.take i := by
    refine lineSafe_eq_self fun c hc => ?_
    obtain ⟨j, hj, rfl⟩ := List.mem_iff_getElem.mp hc
    rw [List.length_take] at hj
    rw [List.getElem_take]
    simpa using hbefore j (by omega)
  have hmid : lineSafe (s.drop i) = [32] ++ lineSafe (s.drop (i + 1)) := by
    rw [List.drop_eq_getElem_cons hi, lineSafe, List.map_cons, if_pos hbreak]
    rfl
  rw [← hmid, ← hpre, ← lineSafe_append, List.take_append_drop]

theorem isBreak_lineSafe (s : Bytes) : ∀ c ∈ lineSafe s, isBreak c = false := by
  intro c hc
  obtain ⟨d, -, rfl⟩ := List.mem_map.mp hc
  by_cases hd : isBreak d = true
  · rw [if_pos hd]
    rfl
  · rw [if_neg hd]
    exact Bool.eq_false_iff.mpr hd

section Emits

variable {σ : Type u} {W : IoWriter σ} {I F : σ → Bytes → Prop}

theorem emits_crlf (h : Sink W I F) : Emits I F (Writer.crlf W).run crlf (.ok ()) :=
  emits_writeString h crlf

theorem emits_numberLine (h : Sink W I F) (n : ℤ) :
    Emits I F (Writer.numberLine W n).run (numberLine n) (.ok ()) :=
  .bind (m := .bytes W (formatInt n)) (emits_write h _) (emits_crlf h)

private theorem emits_writeLineSafe (h : Sink W I F) (fuel : ℕ) (s : Bytes) (hf : s.length < fuel) :
    Emits I F (Writer.writeLineSafe W fuel s).run (lineSafe s) (.ok ()) := by
  induction fuel generalizing s with
  | zero => omega
  | succ fuel ih =>
    unfold Writer.writeLineSafe
    cases hi : s.findIdx? isBreak with
    | none =>
      rw [lineSafe_eq_self (List.findIdx?_eq_none_iff.mp hi)]
      exact emits_writeString h s
    | some i =>
      rw [← lineSafe_of_findIdx hi]
      refine .bind (m := .string W (s.take i)) (emits_writeString h _)
        (.bind (m := .byte W 32) (emits_writeByte h 32) (ih _ ?_))
      have hlt := (List.findIdx?_eq_some_iff_getElem.mp hi).1
      rw [List.length_drop]
      omega

theorem emits_prefixed (h : Sink W I F) (tag : UInt8) (s : Bytes) :
    Emits I F (Writer.prefixed W tag s).run (lineReply tag s) (.ok ()) :=
  .bind (m := .byte W tag) (emits_writeByte h tag)
    (.bind (emits_writeLineSafe h _ s (Nat.lt_succ_self _)) (emits_crlf h))

theorem emits_writeInt (h : Sink W I F) (n : Int64) :
    Emits I F (Writer.writeInt W n).run (intReply n) (.ok ()) :=
  .bind (m := .byte W 58) (emits_writeByte h 58) (emits_numberLine h _)

theorem emits_writeBulk (h : Sink W I F) (s : Bytes) :
    Emits I F (Writer.writeBulk W s).run (writeBulk s) (.ok ()) := by
  have hcat : writeBulk s = [36] ++ (numberLine s.length ++ (s ++ crlf)) := by
    simp [writeBulk]
  rw [hcat]
  exact .bind (m := .byte W 36) (emits_writeByte h 36) (.bind (emits_numberLine h _)
    (.bind (m := .string W s) (emits_writeString h s) (emits_crlf h)))

theorem emits_writeArrayHeader (h : Sink W I F) (n : ℕ) :
    Emits I F (Writer.writeArrayHeader W n).run (writeArrayHeader n) (.ok ()) :=
  .bind (m := .byte W 42) (emits_writeByte h 42) (emits_numberLine h _)

end Emits

/-! ## The parser of a client -/

inductive Value where
  | simple (s : Bytes)
  | error (s : Bytes)
  | int (n : Int64)
  | bulk (s : Bytes)
  | nullBulk
  | array (items : List Value)
  | nullArray

/-- The bytes up to the first CRLF, and those after it. -/
def splitLine : Bytes → Option (Bytes × Bytes)
  | [] => none
  | c :: b =>
    if c = 13 ∧ b.head? = some 10 then some ([], b.tail)
    else (splitLine b).map fun (line, rest) => (c :: line, rest)

/-- A length or a count: digits only. -/
def parseLength (b : Bytes) : Option ℕ :=
  if b ≠ [] ∧ b.all isDigit then some (digitsValue b) else none

def parseBulkValue (n : ℕ) (b : Bytes) : Option (Value × Bytes) :=
  if n ≤ b.length ∧ (b.drop n).take 2 = crlf then some (.bulk (b.take n), b.drop (n + 2))
  else none

def parseMany (parse : Bytes → Option (Value × Bytes)) : ℕ → Bytes → Option (List Value × Bytes)
  | 0, b => some ([], b)
  | n + 1, b => do
    let (v, b) ← parse b
    let (vs, b) ← parseMany parse n b
    pure (v :: vs, b)

/-- A value from its tag, the rest of its first line and the bytes after that line; `parse` reads
the items of an array. -/
def parseTagged (parse : Bytes → Option (Value × Bytes)) (tag : UInt8) (line rest : Bytes) :
    Option (Value × Bytes) :=
  if tag = 43 then some (.simple line, rest)
  else if tag = 45 then some (.error line, rest)
  else if tag = 58 then (parseInt64 line).map fun n => (.int n, rest)
  else if tag = 36 then
    if line = text "-1" then some (.nullBulk, rest)
    else (parseLength line).bind fun n => parseBulkValue n rest
  else if tag = 42 then
    if line = text "-1" then some (.nullArray, rest)
    else (parseLength line).bind fun n =>
      (parseMany parse n rest).map fun (vs, rest) => (.array vs, rest)
  else none

/-- One value from the start of `b`, and the bytes after it. The fuel bounds the nesting. -/
def parseValue : ℕ → Bytes → Option (Value × Bytes)
  | 0, _ => none
  | _ + 1, [] => none
  | fuel + 1, tag :: b =>
    (splitLine b).bind fun (line, rest) => parseTagged (parseValue fuel) tag line rest

/-- The values of a whole stream; every byte has to be part of one. -/
def parseStream : ℕ → Bytes → Option (List Value)
  | 0, b => if b = [] then some [] else none
  | fuel + 1, b =>
    if b = [] then some []
    else do
      let (v, rest) ← parseValue b.length b
      let vs ← parseStream fuel rest
      pure (v :: vs)

/-- Every value takes at least a byte. -/
def parseReplies (b : Bytes) : Option (List Value) := parseStream b.length b

private theorem splitLine_append {line : Bytes} (h : ∀ c ∈ line, isBreak c = false) (rest : Bytes) :
    splitLine (line ++ (crlf ++ rest)) = some (line, rest) := by
  induction line with
  | nil => rfl
  | cons c line ih =>
    have hc := h c List.mem_cons_self
    have hne : c ≠ 13 := by rintro rfl; simp [isBreak] at hc
    rw [List.cons_append, splitLine, if_neg (fun hc => hne hc.1),
      ih fun d hd => h d (List.mem_cons_of_mem _ hd)]
    rfl

theorem parseValue_line (fuel : ℕ) (tag : UInt8) {line : Bytes}
    (h : ∀ c ∈ line, isBreak c = false) (rest : Bytes) :
    parseValue (fuel + 1) (tag :: (line ++ (crlf ++ rest))) =
      parseTagged (parseValue fuel) tag line rest := by
  rw [parseValue, splitLine_append h]
  rfl

theorem isBreak_of_isDigit {c : UInt8} (h : isDigit c = true) : isBreak c = false := by
  rw [isDigit, Bool.and_eq_true, decide_eq_true_eq] at h
  rw [isBreak, Bool.or_eq_false_iff, beq_eq_false_iff_ne, beq_eq_false_iff_ne]
  constructor <;> rintro rfl <;> exact absurd h.1 (by decide)

theorem isBreak_formatInt (n : ℤ) : ∀ c ∈ formatInt n, isBreak c = false := by
  intro c hc
  unfold formatInt at hc
  split_ifs at hc with hneg
  · rcases List.mem_cons.mp hc with rfl | hc
    · rfl
    · exact isBreak_of_isDigit (isDigit_of_mem_natText _ c hc)
  · exact isBreak_of_isDigit (isDigit_of_mem_natText _ c hc)

theorem parseLength_natText (n : ℕ) : parseLength (natText n) = some n := by
  rw [parseLength, if_pos ⟨natText_ne_nil n, List.all_eq_true.mpr (isDigit_of_mem_natText n)⟩,
    digitsValue_natText]

theorem natText_ne_null (n : ℕ) : natText n ≠ text "-1" := by
  intro h
  exact absurd (head_natText_isDigit n h) (by decide)

theorem parseBulkValue_append (s rest : Bytes) :
    parseBulkValue s.length (s ++ (crlf ++ rest)) = some (.bulk s, rest) := by
  have hdrop : (s ++ (crlf ++ rest)).drop s.length = crlf ++ rest := List.drop_left
  rw [parseBulkValue, if_pos ⟨by rw [List.length_append]; omega, by rw [hdrop]; rfl⟩,
    ← List.drop_drop, hdrop, List.take_left]
  rfl

end GoKv.Resp
