import GoKv.Command.Command
import GoKv.Resp.Writer

/-! How the server writes replies, and that a client reads back exactly those. -/
namespace GoKv
open GoLib Resp

/-! ## Replies as records -/

namespace Command

/-- A reply as the encoder receives it: the kind, and the fields a kind may use. -/
inductive RawReply where
  | mk (kind : ℤ) (str : Bytes) (int : Int64) (array : List RawReply)

def replySimple : ℤ := 0

def replyError : ℤ := 1

def replyInt : ℤ := 2

def replyBulk : ℤ := 3

def replyNullBulk : ℤ := 4

def replyArray : ℤ := 5

mutual

def Reply.raw : Reply → RawReply
  | .simple s => ⟨replySimple, s, 0, []⟩
  | .error s => ⟨replyError, s, 0, []⟩
  | .int n => ⟨replyInt, [], n, []⟩
  | .bulk s => ⟨replyBulk, s, 0, []⟩
  | .nullBulk => ⟨replyNullBulk, [], 0, []⟩
  | .array items => ⟨replyArray, [], 0, rawItems items⟩

def Reply.rawItems : List Reply → List RawReply
  | [] => []
  | r :: rs => r.raw :: rawItems rs

end

mutual

/-- What a client is to read: CR and LF inside a line are spaces. -/
def Reply.value : Reply → Value
  | .simple s => .simple (lineSafe s)
  | .error s => .error (lineSafe s)
  | .int n => .int n
  | .bulk s => .bulk s
  | .nullBulk => .nullBulk
  | .array items => .array (values items)

def Reply.values : List Reply → List Value
  | [] => []
  | r :: rs => r.value :: values rs

end

end Command

open Command

namespace Wire

universe u

/-! ## The encoder -/

def unknownKind (kind : ℤ) : WriteErr := .other (text "unknown reply kind " ++ formatInt kind)

mutual

def writeReply {σ : Type u} (W : IoWriter σ) : RawReply → Out σ Unit
  | .mk kind str int array =>
    if kind = replySimple then Writer.writeSimpleString W str
    else if kind = replyError then Writer.writeError W str
    else if kind = replyInt then Writer.writeInt W int
    else if kind = replyBulk then Writer.writeBulk W str
    else if kind = replyNullBulk then Writer.writeNullBulk W
    else if kind = replyArray then do
      Writer.writeArrayHeader W array.length
      writeItems W array
    else .fail (unknownKind kind)

def writeItems {σ : Type u} (W : IoWriter σ) : List RawReply → Out σ Unit
  | [] => pure ()
  | item :: rest => do
    writeReply W item
    writeItems W rest

end

mutual

/-- The bytes of a reply, up to an item of no known kind if it has one, and how its encoding
ends. -/
def encode : RawReply → Bytes × Except WriteErr Unit
  | .mk kind str int array =>
    if kind = replySimple then (lineReply 43 str, .ok ())
    else if kind = replyError then (lineReply 45 str, .ok ())
    else if kind = replyInt then (intReply int, .ok ())
    else if kind = replyBulk then (writeBulk str, .ok ())
    else if kind = replyNullBulk then (nullBulkReply, .ok ())
    else if kind = replyArray then
      (writeArrayHeader array.length ++ (encodeItems array).1, (encodeItems array).2)
    else ([], .error (unknownKind kind))

def encodeItems : List RawReply → Bytes × Except WriteErr Unit
  | [] => ([], .ok ())
  | item :: rest =>
    match (encode item).2 with
    | .ok () => ((encode item).1 ++ (encodeItems rest).1, (encodeItems rest).2)
    | .error e => ((encode item).1, .error e)

end

section Emits

variable {σ : Type u} {W : IoWriter σ} {I F : σ → Bytes → Prop}

mutual

theorem emits_writeReply (h : Sink W I F) :
    ∀ r : RawReply, Emits I F (writeReply W r).run (encode r).1 (encode r).2
  | .mk kind str int array => by
    unfold writeReply encode
    split_ifs
    · exact emits_prefixed h 43 str
    · exact emits_prefixed h 45 str
    · exact emits_writeInt h int
    · exact emits_writeBulk h str
    · exact emits_writeString h nullBulkReply
    · exact .bind (emits_writeArrayHeader h _) (emits_writeItems h array)
    · exact emits_fail _

theorem emits_writeItems (h : Sink W I F) :
    ∀ rs : List RawReply, Emits I F (writeItems W rs).run (encodeItems rs).1 (encodeItems rs).2
  | [] => emits_pure
  | item :: rest => by
    have hitem := emits_writeReply h item
    unfold writeItems encodeItems
    cases hres : (encode item).2 with
    | ok =>
      rw [hres] at hitem
      exact hitem.bind (emits_writeItems h rest)
    | error e =>
      rw [hres] at hitem
      exact hitem.stop

end

end Emits

def emitted (rs : List Command.Reply) : Bytes :=
  (((writeItems memory (Command.Reply.rawItems rs)).run (.ofWriter [])).2.flush memory).2.wr

/-! ## Reading replies back -/

mutual

theorem encode_raw_ok : ∀ r : Command.Reply, (encode r.raw).2 = .ok ()
  | .simple _ | .error _ | .int _ | .bulk _ | .nullBulk => rfl
  | .array items => encodeItems_raw_ok items

theorem encodeItems_raw_ok :
    ∀ rs : List Command.Reply, (encodeItems (Command.Reply.rawItems rs)).2 = .ok ()
  | [] => rfl
  | r :: rs => by
    rw [Command.Reply.rawItems, encodeItems, encode_raw_ok r]
    exact encodeItems_raw_ok rs

end

theorem encodeItems_raw_cons (r : Command.Reply) (rs : List Command.Reply) :
    (encodeItems (Command.Reply.rawItems (r :: rs))).1 =
      (encode r.raw).1 ++ (encodeItems (Command.Reply.rawItems rs)).1 := by
  rw [Command.Reply.rawItems, encodeItems, encode_raw_ok r]

private theorem emitted_eq (rs : List Command.Reply) :
    emitted rs = (encodeItems (Command.Reply.rawItems rs)).1 := by
  have h := emits_writeItems sink_memory (Command.Reply.rawItems rs)
  rw [encodeItems_raw_ok] at h
  exact h.memory

private theorem length_rawItems (rs : List Command.Reply) :
    (Command.Reply.rawItems rs).length = rs.length := by
  induction rs with
  | nil => rfl
  | cons r rs ih => rw [Command.Reply.rawItems, List.length_cons, ih, List.length_cons]

theorem parseValue_lineReply (fuel : ℕ) (tag : UInt8) (s rest : Bytes) :
    parseValue (fuel + 1) (lineReply tag s ++ rest) =
      parseTagged (parseValue fuel) tag (lineSafe s) rest := by
  rw [lineReply, List.cons_append, List.append_assoc]
  exact parseValue_line fuel tag (isBreak_lineSafe s) rest

theorem parseValue_numberLine (fuel : ℕ) (tag : UInt8) (n : ℤ) (rest : Bytes) :
    parseValue (fuel + 1) (tag :: (numberLine n ++ rest)) =
      parseTagged (parseValue fuel) tag (formatInt n) rest := by
  rw [numberLine, List.append_assoc]
  exact parseValue_line fuel tag (isBreak_formatInt n) rest

theorem encode_raw_ne_nil (r : Command.Reply) : (encode r.raw).1 ≠ [] := by
  cases r <;> exact List.cons_ne_nil _ _

/-- Items the parser reads one by one, it reads in a row. -/
theorem parseMany_encodeItems {parse : Bytes → Option (Value × Bytes)} {bound : ℕ}
    (hparse : ∀ (r : Command.Reply) (rest : Bytes), (encode r.raw).1.length ≤ bound →
      parse ((encode r.raw).1 ++ rest) = some (r.value, rest))
    (rs : List Command.Reply) (rest : Bytes)
    (hb : (encodeItems (Command.Reply.rawItems rs)).1.length ≤ bound) :
    parseMany parse rs.length ((encodeItems (Command.Reply.rawItems rs)).1 ++ rest) =
      some (Command.Reply.values rs, rest) := by
  induction rs with
  | nil => rfl
  | cons r rs ih =>
    rw [encodeItems_raw_cons, List.length_append] at hb
    rw [encodeItems_raw_cons, List.length_cons, List.append_assoc, parseMany,
      hparse r _ (by omega)]
    simp only [Option.bind_eq_bind, Option.bind_some, ih (by omega)]
    rfl

/-- Whatever follows a reply's bytes, the parser takes exactly them. -/
theorem parseValue_encode (fuel : ℕ) (r : Command.Reply) (rest : Bytes)
    (hf : (encode r.raw).1.length ≤ fuel) :
    parseValue fuel ((encode r.raw).1 ++ rest) = some (r.value, rest) := by
  induction fuel generalizing r rest with
  | zero => exact absurd (List.length_eq_zero_iff.mp (Nat.le_zero.mp hf)) (encode_raw_ne_nil r)
  | succ fuel ih =>
    cases r with
    | simple s => exact parseValue_lineReply fuel 43 s rest
    | error s => exact parseValue_lineReply fuel 45 s rest
    | int n =>
      refine (parseValue_numberLine fuel 58 n.toInt rest).trans ?_
      simp [parseTagged, parseInt64_formatInt, Command.Reply.value]
    | bulk s =>
      have hcat : (encode (Command.Reply.bulk s).raw).1 ++ rest =
          36 :: (numberLine s.length ++ (s ++ (crlf ++ rest))) := by
        change writeBulk s ++ rest = _
        simp [writeBulk]
      rw [hcat, parseValue_numberLine, formatInt_natCast]
      simp [parseTagged, natText_ne_null, parseLength_natText, parseBulkValue_append,
        Command.Reply.value]
    | nullBulk => rfl
    | array items =>
      have hcat : (encode (Command.Reply.array items).raw).1 =
          42 :: (numberLine items.length ++
            (encodeItems (Command.Reply.rawItems items)).1) := by
        change writeArrayHeader (Command.Reply.rawItems items).length ++ _ = _
        rw [length_rawItems]
        rfl
      rw [hcat, List.length_cons, List.length_append] at hf
      rw [hcat, List.cons_append, List.append_assoc, parseValue_numberLine, formatInt_natCast]
      simp [parseTagged, natText_ne_null, parseLength_natText,
        parseMany_encodeItems ih items rest (by omega), Command.Reply.value]

theorem parseStream_encodeItems (fuel : ℕ) (rs : List Command.Reply)
    (hf : (encodeItems (Command.Reply.rawItems rs)).1.length ≤ fuel) :
    parseStream fuel (encodeItems (Command.Reply.rawItems rs)).1 =
      some (Command.Reply.values rs) := by
  induction rs generalizing fuel with
  | nil => cases fuel <;> rfl
  | cons r rs ih =>
    have hne := encode_raw_ne_nil r
    have hpos := List.length_pos_iff.mpr hne
    rw [encodeItems_raw_cons, List.length_append] at hf
    obtain ⟨fuel, rfl⟩ := Nat.exists_eq_add_of_lt (show 0 < fuel by omega)
    rw [encodeItems_raw_cons, Nat.zero_add, parseStream,
      if_neg (by simp [hne]), parseValue_encode _ r _ (by rw [List.length_append]; omega)]
    simp only [Option.bind_eq_bind, Option.bind_some, ih fuel (by omega)]
    rfl

/-- A client that reads with a RESP2 parser reads exactly the replies the server wrote and no
byte is left over: a CR or LF inside a line reaches it as a space, and everything else unaltered,
whatever the payloads hold. -/
theorem parseReplies_emitted (rs : List Command.Reply) :
    parseReplies (emitted rs) = some (Command.Reply.values rs) := by
  rw [emitted_eq]
  exact parseStream_encodeItems _ rs le_rfl

end Wire

end GoKv
