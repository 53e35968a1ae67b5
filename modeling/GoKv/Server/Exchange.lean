import GoKv.Resp.Frames
import GoKv.Server.Deferred

/-! A connection from its first byte to its last, when it is known what Dispatch replies: what is
delivered is those replies, and then the complaint about what follows the commands. -/
namespace GoKv
open GoLib Resp Command

namespace Wire

variable {ι : Type*}

private theorem encodeItems_append (rs ts : List Command.Reply) :
    (encodeItems (Command.Reply.rawItems (rs ++ ts))).1 =
      (encodeItems (Command.Reply.rawItems rs)).1 ++
        (encodeItems (Command.Reply.rawItems ts)).1 := by
  induction rs with
  | nil => rfl
  | cons r rs ih => simp only [List.cons_append, encodeItems_raw_cons, ih, List.append_assoc]

def protocolReply (msg : String) : Command.Reply :=
  .error (text "ERR Protocol error: " ++ text msg)

private theorem expected_complaint (err : Option String) :
    expected (err.toList.map .protocolError) =
      (encodeItems (Command.Reply.rawItems (err.toList.map protocolReply))).1 := by
  cases err with
  | none => rfl
  | some msg =>
    rw [Option.toList_some, List.map_singleton, List.map_singleton, encodeItems_raw_cons]
    rfl

/-- The handler replies `rs` to the commands that come after `done`. -/
def ConnHandler.Replies (H : ConnHandler ι) :
    List (List Bytes) → List (List Bytes) → List Command.Reply → Prop
  | _, [], rs => rs = []
  | done, args :: cmds, rs => ∃ r rest, rs = r :: rest ∧ H.reply (done ++ [args]) = r.raw ∧
      H.Replies (done ++ [args]) cmds rest

private theorem expected_dispatches {H : ConnHandler ι} {cmds done : List (List Bytes)}
    {rs : List Command.Reply} (h : H.Replies done cmds rs) :
    expected (H.dispatches done cmds) = (encodeItems (Command.Reply.rawItems rs)).1 := by
  induction cmds generalizing done rs with
  | nil =>
    cases h
    rfl
  | cons args cmds ih =>
    obtain ⟨r, rest, rfl, hr, hrest⟩ := h
    rw [encodeItems_raw_cons, ← ih hrest, ← hr]
    rfl

/-- Whatever bytes come and however the socket cuts them, the connection is served to its end; if
no write fails, a RESP parser reads back the replies and then the complaint. -/
theorem reads_replies {H : ConnHandler ι} (hdrain : ∀ n, H.draining n = false)
    (hcode : ∀ cmds, (encode (H.reply cmds)).2 = .ok ()) {I : ι → Prop} {rest : ι → Bytes}
    (hd : Delivers H.src I rest) {input : ι} (hi : I input) {frames : List (Frame H.limits)}
    {tail : Bytes} (hs : Splits H.limits (rest input) frames tail) {rs : List Command.Reply}
    (hreplies : H.Replies [] (frames.map Frame.args) rs) :
    (H.serveConn ((rest input).length + 1) input).isSome ∧
    ∀ fuel trace, H.serveConn fuel input = some trace → Unfailed trace →
      parseReplies (delivered trace) = some (Command.Reply.values
        (rs ++ (complaint H.limits tail).toList.map protocolReply)) := by
  have hready : (Reader.new input H.limits).br.Ready I := Bufio.ready_ofReader hi
  refine ⟨serveConn_isSome _ input (script_isSome _ hd _ [] hready ?_), fun fuel trace h hun => ?_⟩
  · simp [Reader.new, Bufio.rest, Bufio.ofReader]
  have hrest : (Reader.new input H.limits).br.rest rest = Frame.stream frames ++ tail := by
    rw [← hs.split]
    rfl
  have hscript := script_frames hdrain hcode hd hs.stops frames hready rfl hrest []
  obtain ⟨-, -, -, hall, -⟩ := serveConn_outcome _ h
  obtain ⟨hsent, hanswers⟩ := hall hun
  have hbytes : delivered trace = (encodeItems (Command.Reply.rawItems
      (rs ++ (complaint H.limits tail).toList.map protocolReply))).1 := by
    rw [hsent, ← expected_answers, script_unique hanswers hscript, expected_append,
      expected_dispatches hreplies, expected_complaint, encodeItems_append]
  rw [hbytes]
  exact parseStream_encodeItems _ _ le_rfl

end Wire

end GoKv
