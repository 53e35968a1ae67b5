import GoKv.Command.Answer
import GoKv.Command.Scanning
import GoKv.Server.Exchange

/-! The server as one client sees it: bytes in, bytes out. The layers between, the decoder, the
dispatcher, the engine with its sweeps and scan sessions, the encoder and the deferred flush, add
up to a map that discards what has expired and the sessions over it. -/
namespace GoKv
open GoLib Resp Command

/-! ## The map and its sessions -/

/-- A map that discards what has expired, and the scan sessions over it. -/
structure MapDesk where
  map : Reference
  sessions : ScanManager

namespace MapDesk

def listing (s : MapDesk) (now : ℤ) (pattern : Bytes) : List Bytes :=
  ((s.map.discard now).keys.insertionSort (· ≤ ·)).filter (Glob.isMatch pattern)

/-- A first call opens a session on the listing. What the session is charged for depends on the
size of the array it lies in, which has room for that many keys. -/
def scan (s : MapDesk) (req : ScanRequest) (now : ℤ) (room : ℕ) (table : List ℕ)
    (draws : List (Option ℕ)) : Option (ScanManager × Except ScanErr ScanResult) :=
  if req.cursor ≠ 0 then
    s.sessions.next req.cursor req.pattern req.patternSet req.count now table draws
  else
    let keys := s.listing now (Engine.scanPattern req)
    s.sessions.start ⟨keys, max room keys.length, le_max_right _ _⟩ (Engine.scanPattern req)
      req.count now table draws

/-- What a command comes to. No iteration order of the server's map is asked for. -/
def serve (mapUpper : Bytes → Bytes) (s : MapDesk) (now : ℤ) (room : ℕ) (table : List ℕ)
    (draws : List (Option ℕ)) (args : List Bytes) : Option (Command.Reply × MapDesk) :=
  match scanRequest mapUpper args, operation mapUpper [] args with
  | some req, _ => (s.scan req now room table draws).map fun (m, res) =>
      (scanReply res, { s with sessions := m })
  | none, some op =>
    let (r, m) := s.map.step now op
    some (render op r, { s with map := m })
  | none, none => some ((dispatch mapUpper (.idle fun _ => .error .other) .new args).1, s)

def new : MapDesk := ⟨∅, .new defaultScanSessionLimits⟩

end MapDesk

/-- What the commands of a connection meet: the clock before and after each, the sweeps between
those readings, the orders the map and the session table are iterated in, and the answers of the
token source until SCAN asks no more. -/
structure Surroundings where
  clock : ℕ → ℤ
  sweeps : ℕ → List (ℤ × (Engine → List Bytes))
  order : ℕ → Engine → List Bytes
  table : ℕ → ScanManager → List ℕ
  tokens : ℕ → ScanManager → List (Option ℕ)
  ordered : ∀ i, (clock i :: ((sweeps i).map Prod.fst ++ [clock (i + 1)])).Pairwise (· ≤ ·)
  perm : ∀ i e, (order i e).Perm e.store.data.keys
  table_perm : ∀ i (m : ScanManager), (table i m).Perm m.sessions.keys
  settled : ∀ i (m : ScanManager), (m.nextTokenLocked (tokens i m)).isSome = true

namespace Surroundings

variable (S : Surroundings) (mapUpper : Bytes → Bytes)

/-- What the token source answers to the `i`-th command, whose sessions are these. -/
def draws (i : ℕ) (m : ScanManager) : List (Option ℕ) :=
  S.tokens i (m.expireLocked (S.clock (i + 1)) (S.table i m))

def swept (i : ℕ) (e : Engine) : Engine :=
  (S.sweeps i).foldl (fun e s => (e.reclaimOnce s.1 (s.2 e)).2) e

def met (i : ℕ) (s : Desk) : DeskMet :=
  ⟨S.clock (i + 1), S.order i s.engine, .ok (), S.table i s.sessions, S.draws i s.sessions⟩

def serve (i : ℕ) (s : Desk) (args : List Bytes) : Option (Command.Reply × Desk) :=
  let s := { s with engine := S.swept i s.engine }
  s.serve mapUpper (S.met i s) args

def run : ℕ → Desk → List (List Bytes) → Option (List Command.Reply × Desk)
  | _, s, [] => some ([], s)
  | i, s, args :: rest => (S.serve mapUpper i s args).bind fun (r, s) =>
      (run (i + 1) s rest).map fun (rs, s) => (r :: rs, s)

/-- The map and its sessions answer the commands from the `i`-th on. -/
inductive Answers : ℕ → MapDesk → List (List Bytes) → List Command.Reply → Prop where
  | nil (i : ℕ) (s : MapDesk) : Answers i s [] []
  | cons {i : ℕ} {s t : MapDesk} {args : List Bytes} {rest : List (List Bytes)}
      {r : Command.Reply} {rs : List Command.Reply} (room : ℕ)
      (step : s.serve mapUpper (S.clock (i + 1)) room (S.table i s.sessions)
        (S.draws i s.sessions) args = some (r, t))
      (tail : Answers (i + 1) t rest rs) : Answers i s (args :: rest) (r :: rs)

end Surroundings

/-! ## The engine and the map -/

namespace Session

theorem Agrees.later {e : Engine} {c d : ℤ} {rs : List Reply} {m : Reference}
    (h : Agrees ⟨e, c, rs⟩ m) (hle : c ≤ d) : Agrees ⟨e, d, rs⟩ m where
  accepting := h.accepting
  log := h.log
  live k := by
    have hk := h.live k
    dsimp only at hk ⊢
    rw [← liveAt_liveAt hle, hk, liveAt_liveAt hle]

private theorem agrees_sweeps {m : Reference} (l : List (ℤ × (Engine → List Bytes))) {e : Engine}
    {c d : ℤ} (h : Agrees ⟨e, c, []⟩ m) (hl : (c :: (l.map Prod.fst ++ [d])).Pairwise (· ≤ ·)) :
    Agrees ⟨l.foldl (fun e s => (e.reclaimOnce s.1 (s.2 e)).2) e, d, []⟩ m := by
  induction l generalizing e c with
  | nil => exact h.later (List.rel_of_pairwise_cons hl (List.mem_singleton.mpr rfl))
  | cons s l ih =>
    obtain ⟨hc, hrest⟩ := List.pairwise_cons.mp hl
    exact ih (agrees_sweep h (s.2 e) (hc _ (List.mem_append_left _ List.mem_cons_self))) hrest

end Session

/-- SCAN's first call captures what KEYS lists. -/
theorem MapDesk.listing_eq {s : Desk} {m : Reference} {now : ℤ} {order : List Bytes}
    (h : Session.Agrees ⟨s.engine, now, []⟩ m) (ho : order.Perm s.engine.store.data.keys)
    (pattern : Bytes) :
    (Engine.scanSlice (s.engine.captureLiveKeys now order ho).1 pattern).list =
      listing ⟨m, s.sessions⟩ now pattern := by
  have hkeys : s.engine.keys pattern now order = listing ⟨m, s.sessions⟩ now pattern := by
    have hiter : (Op.keys pattern order).Iterates s.engine.store := ho
    have hexec := Engine.exec_reply h.accepting h.log (h.view le_rfl) hiter
    exact Reply.keys.inj hexec
  rw [← hkeys]
  exact (Engine.discovers_scan ho pattern).unique (Engine.discovers_keys ho pattern)

/-- The engine's SCAN is the map's, with room for all that its own map holds. -/
theorem MapDesk.scan_eq {s : Desk} {m : Reference} {now : ℤ} {order : List Bytes}
    (h : Session.Agrees ⟨s.engine, now, []⟩ m) (ho : order.Perm s.engine.store.data.keys)
    (req : ScanRequest) (table : List ℕ) (draws : List (Option ℕ)) :
    s.engine.scan s.sessions req now order ho table draws =
      scan ⟨m, s.sessions⟩ req now s.engine.store.data.keys.length table draws := by
  unfold Engine.scan scan
  split_ifs with hc
  · rfl
  · have hlist := listing_eq h ho (Engine.scanPattern req)
    have hlen := (Engine.scanSlice (s.engine.captureLiveKeys now order ho).1
      (Engine.scanPattern req)).len_le
    rw [hlist] at hlen
    have hroom : max s.engine.store.data.keys.length
        (listing ⟨m, s.sessions⟩ now (Engine.scanPattern req)).length =
        s.engine.store.data.keys.length := max_eq_left hlen
    have hslice : Engine.scanSlice (s.engine.captureLiveKeys now order ho).1
        (Engine.scanPattern req) = ⟨listing ⟨m, s.sessions⟩ now (Engine.scanPattern req),
          max s.engine.store.data.keys.length
            (listing ⟨m, s.sessions⟩ now (Engine.scanPattern req)).length,
          le_max_right _ _⟩ := KeySlice.ext hlist hroom.symm
    exact congrArg (fun keys => s.sessions.start keys _ _ _ _ _) hslice

namespace Surroundings

variable {S : Surroundings} {mapUpper : Bytes → Bytes}

private theorem step_meeting (m : Reference) (now : ℤ) (order : List Bytes) (op : Op) :
    m.step now (op.meeting order) = m.step now op := by
  cases op <;> rfl

theorem serve_scan {i : ℕ} {s : Desk} {m : Reference}
    (h : Session.Agrees ⟨s.engine, S.clock (i + 1), []⟩ m) {args : List Bytes} {req : ScanRequest}
    (hreq : scanRequest mapUpper args = some req) :
    ∃ r t room, s.serve mapUpper (S.met i s) args = some (r, { s with sessions := t }) ∧
      MapDesk.serve mapUpper ⟨m, s.sessions⟩ (S.clock (i + 1)) room (S.table i s.sessions)
        (S.draws i s.sessions) args = some (r, ⟨m, t⟩) := by
  have ho := S.perm i s.engine
  have hdone : (s.engine.scan s.sessions req (S.clock (i + 1)) (S.order i s.engine) ho
      (S.table i s.sessions) (S.draws i s.sessions)).isSome = true := by
    unfold Engine.scan
    split_ifs
    · exact ScanManager.next_isSome (S.settled i _)
    · exact ScanManager.start_isSome (S.settled i _)
  obtain ⟨⟨t, res⟩, hscan⟩ := Option.isSome_iff_exists.mp hdone
  refine ⟨scanReply res, t, s.engine.store.data.keys.length, ?_, ?_⟩
  · rw [Desk.serve_of_scanRequest ho (S.table_perm i s.sessions) hreq]
    simp only [met, hscan, Option.map_some]
  · rw [MapDesk.scan_eq h ho] at hscan
    simp only [MapDesk.serve, hreq, hscan, Option.map_some]

private theorem serve_operation {i : ℕ} {s : Desk} {m : Reference}
    (h : Session.Agrees ⟨s.engine, S.clock (i + 1), []⟩ m) {args : List Bytes}
    (hreq : scanRequest mapUpper args = none) (room : ℕ) :
    ∃ r e m', s.serve mapUpper (S.met i s) args = some (r, { s with engine := e }) ∧
      MapDesk.serve mapUpper ⟨m, s.sessions⟩ (S.clock (i + 1)) room (S.table i s.sessions)
        (S.draws i s.sessions) args = some (r, ⟨m', s.sessions⟩) ∧
      Session.Agrees ⟨e, S.clock (i + 1), []⟩ m' := by
  let env : Env := ⟨S.clock (i + 1), S.order i s.engine, .ok (), fun _ => .error .other⟩
  have hserve : s.serve mapUpper (S.met i s) args =
      some ((dispatch mapUpper env s.engine args).1,
        { s with engine := (dispatch mapUpper env s.engine args).2 }) :=
    Desk.serve_of_no_scanRequest (S.perm i s.engine) (S.table_perm i s.sessions) hreq
  have hwait : env.wait = .ok () := rfl
  rw [dispatch_reply mapUpper s.engine args hwait, dispatch_engine, operation_order] at hserve
  simp only [MapDesk.serve, hreq]
  cases hop : operation mapUpper [] args with
  | none =>
    rw [hop] at hserve
    exact ⟨_, _, m, hserve, rfl, h⟩
  | some op =>
    have hiter : (op.meeting (S.order i s.engine)).Iterates s.engine.store := by
      cases op with
      | keys pattern order => exact S.perm i s.engine
      | _ => trivial
    have hexec := Engine.exec_reply h.accepting h.log (h.view le_rfl) hiter
    have hstep := step_meeting m (S.clock (i + 1)) (S.order i s.engine) op
    have hreply : (m.step (S.clock (i + 1)) op).1 =
        (s.engine.exec (S.clock (i + 1)) (op.meeting (S.order i s.engine))).1 := by
      rw [← hstep]
      exact hexec.symm
    rw [hop] at hserve
    simp only [Option.map_some, render_meeting] at hserve
    refine ⟨_, _, (m.step (S.clock (i + 1)) op).2, hserve, ?_, ?_⟩
    · exact congrArg (fun r => some (render op r, MapDesk.mk _ s.sessions)) hreply
    · rw [← hstep]
      exact Session.agrees_op h le_rfl []

/-- Every command is answered, and as by the map. -/
theorem serve_answered (mapUpper : Bytes → Bytes) {i : ℕ} {s : Desk} {m : Reference}
    (h : Session.Agrees ⟨s.engine, S.clock i, []⟩ m) (args : List Bytes) :
    ∃ r t m' room, S.serve mapUpper i s args = some (r, t) ∧
      MapDesk.serve mapUpper ⟨m, s.sessions⟩ (S.clock (i + 1)) room (S.table i s.sessions)
        (S.draws i s.sessions) args = some (r, ⟨m', t.sessions⟩) ∧
      Session.Agrees ⟨t.engine, S.clock (i + 1), []⟩ m' := by
  have hswept : Session.Agrees ⟨S.swept i s.engine, S.clock (i + 1), []⟩ m :=
    Session.agrees_sweeps (S.sweeps i) h (S.ordered i)
  cases hreq : scanRequest mapUpper args with
  | some req =>
    obtain ⟨r, t, room, hserve, hmap⟩ :=
      serve_scan (s := { s with engine := S.swept i s.engine }) hswept hreq
    exact ⟨r, _, m, room, hserve, hmap, hswept⟩
  | none =>
    obtain ⟨r, e, m', hserve, hmap, hnext⟩ :=
      serve_operation (s := { s with engine := S.swept i s.engine }) hswept hreq 0
    exact ⟨r, _, m', 0, hserve, hmap, hnext⟩

private theorem run_answers (S : Surroundings) (mapUpper : Bytes → Bytes)
    (cmds : List (List Bytes)) (i : ℕ) {s : Desk} {m : Reference}
    (h : Session.Agrees ⟨s.engine, S.clock i, []⟩ m) :
    ∃ rs t, S.run mapUpper i s cmds = some (rs, t) ∧
      S.Answers mapUpper i ⟨m, s.sessions⟩ cmds rs := by
  induction cmds generalizing i s m with
  | nil => exact ⟨[], s, rfl, .nil i _⟩
  | cons args rest ih =>
    obtain ⟨r, t, m', room, hserve, hmap, hnext⟩ := serve_answered mapUpper h args
    obtain ⟨rs, u, hrun, hanswers⟩ := ih (i + 1) hnext
    refine ⟨r :: rs, u, ?_, .cons room hmap hanswers⟩
    simp only [run, hserve, Option.bind_some, hrun, Option.map_some]

/-! ## The connection -/

private theorem run_append {xs ys : List (List Bytes)} {i : ℕ} {s t : Desk}
    {rs : List Command.Reply} (h : S.run mapUpper i s xs = some (rs, t)) :
    S.run mapUpper i s (xs ++ ys) =
      (S.run mapUpper (i + xs.length) t ys).map fun (ts, u) => (rs ++ ts, u) := by
  induction xs generalizing i s rs with
  | nil =>
    cases h
    exact Option.map_id'.symm
  | cons args xs ih =>
    simp only [run, Option.bind_eq_some_iff, Option.map_eq_some_iff, Prod.mk.injEq] at h
    obtain ⟨⟨r, u⟩, hserve, ⟨rs', v⟩, hrest, rfl, rfl⟩ := h
    simp only [List.cons_append, run, hserve, Option.bind_some, ih hrest, Option.map_map,
      List.length_cons]
    rw [Nat.add_right_comm, Nat.add_assoc]
    rfl

variable {ι : Type*}

/-- A connection that is served to its end, on a server that starts empty. -/
def handler (S : Surroundings) (mapUpper : Bytes → Bytes) (src : IoReader ι)
    (fails : Wire.Failures) (limits : Limits) (flushEveryReply : Bool) : Wire.ConnHandler ι where
  src := src
  fails := fails
  reply cmds := (((S.run mapUpper 0 .new cmds).bind fun p => p.1.getLast?).getD .nullBulk).raw
  draining _ := false
  limits := limits
  flushEveryReply := flushEveryReply

variable (src : IoReader ι) (fails : Wire.Failures) (limits : Limits) (every : Bool)

/-- The reply to a command is the one that the commands before it lead to. -/
theorem reply_handler {done : List (List Bytes)} {args : List Bytes} {rs : List Command.Reply}
    {r : Command.Reply} {s t : Desk} (hdone : S.run mapUpper 0 .new done = some (rs, s))
    (hserve : S.serve mapUpper done.length s args = some (r, t)) :
    (S.handler mapUpper src fails limits every).reply (done ++ [args]) = r.raw ∧
      S.run mapUpper 0 .new (done ++ [args]) = some (rs ++ [r], t) := by
  have hrun : S.run mapUpper 0 .new (done ++ [args]) = some (rs ++ [r], t) := by
    rw [run_append hdone, Nat.zero_add]
    simp only [run, hserve, Option.bind_some, Option.map_some]
  refine ⟨?_, hrun⟩
  simp only [handler, hrun, Option.bind_some, List.getLast?_append, List.getLast?_singleton,
    Option.some_or, Option.getD_some]

theorem replies_handler (done cmds : List (List Bytes))
    {rs ts : List Command.Reply} {s t : Desk} (hdone : S.run mapUpper 0 .new done = some (rs, s))
    (hrun : S.run mapUpper done.length s cmds = some (ts, t)) :
    (S.handler mapUpper src fails limits every).Replies done cmds ts := by
  induction cmds generalizing done rs ts s with
  | nil =>
    cases hrun
    rfl
  | cons args cmds ih =>
    simp only [run, Option.bind_eq_some_iff, Option.map_eq_some_iff, Prod.mk.injEq] at hrun
    obtain ⟨⟨r, u⟩, hserve, ⟨ts', v⟩, hrest, rfl, rfl⟩ := hrun
    obtain ⟨hreply, hnext⟩ := reply_handler src fails limits every hdone hserve
    refine ⟨r, ts', rfl, hreply, ih (done ++ [args]) hnext ?_⟩
    rw [List.length_append, List.length_singleton]
    exact hrest

end Surroundings

namespace Wire

variable {ι : Type*}

/-- A client talks to a map. Whatever bytes it sends and however the socket cuts them, with any
sweeps between its commands and any order of iteration, the connection is served to its end; if no
write fails, a RESP parser reads back exactly what a map that discards expired entries, with scan
sessions opened on its listings, answers to the commands of the stream's one parse, and then the
complaint about what follows them. -/
theorem client_reads_map (S : Surroundings) (mapUpper : Bytes → Bytes) {src : IoReader ι}
    (fails : Failures) {limits : Limits} (every : Bool) {I : ι → Prop} {rest : ι → Bytes}
    (hd : Delivers src I rest) {input : ι} (hi : I input) {frames : List (Frame limits)}
    {tail : Bytes} (hs : Splits limits (rest input) frames tail) :
    ∃ rs, S.Answers mapUpper 0 .new (frames.map Frame.args) rs ∧
      ((S.handler mapUpper src fails limits every).serveConn ((rest input).length + 1)
        input).isSome ∧
      ∀ fuel trace, (S.handler mapUpper src fails limits every).serveConn fuel input = some trace →
        Unfailed trace →
        parseReplies (delivered trace) = some (Command.Reply.values
          (rs ++ (complaint limits tail).toList.map protocolReply)) := by
  obtain ⟨rs, t, hrun, hanswers⟩ := S.run_answers mapUpper (frames.map Frame.args) 0
    (s := .new) (m := ∅) ⟨rfl, rfl, fun _ => rfl⟩
  have hreplies := Surroundings.replies_handler src fails limits every []
    (frames.map Frame.args) rfl hrun
  exact ⟨rs, hanswers, reads_replies (H := S.handler mapUpper src fails limits every)
    (fun _ => rfl) (fun _ => encode_raw_ok _) hd hi hs hreplies⟩

/-- A second passes with every command, nothing is swept, and the first session is named 7. -/
def quietSurroundings : Surroundings where
  clock i := i * 1000000000
  sweeps _ := []
  order _ e := e.store.data.keys
  table _ m := m.sessions.keys
  tokens _ _ := [some 7, none]
  ordered i := by
    rw [List.map_nil, List.nil_append, List.pairwise_pair]
    push_cast
    omega
  perm _ _ := List.Perm.refl _
  table_perm _ _ := List.Perm.refl _
  settled _ m := by
    simp only [ScanManager.nextTokenLocked]
    split_ifs <;> rfl

/-- Two keys are set and one is listed, the other is deleted and still listed; the pieces cut
frames. -/
def scanOverDelete : Chunks :=
  ⟨[text "*3\r\n$3\r\nSET\r\n$1\r\na\r\n$1\r\n1\r\n*3\r\n$3\r\nSE",
    text "T\r\n$1\r\nb\r\n$1\r\n2\r\n*4\r\n$4\r\nSCAN\r\n$1\r\n0\r\n$5\r\nCOUNT\r\n$1\r\n1\r",
    text "\n*2\r\n$3\r\nDEL\r\n$1\r\nb\r\n*2\r\n$4\r\nscan\r\n$1\r\n7\r\n"], by decide⟩

def scanOverDeleteArgs : List (List Bytes) :=
  [[text "SET", text "a", text "1"], [text "SET", text "b", text "2"],
    [text "SCAN", text "0", text "COUNT", text "1"], [text "DEL", text "b"],
    [text "scan", text "7"]]

private theorem fitsFrame_scanOverDelete :
    ∀ args ∈ scanOverDeleteArgs, FitsFrame defaultLimits args := by
  intro args hargs
  constructor <;> revert args <;> decide

theorem client_reads_map_scan :
    ∃ rs trace, quietSurroundings.Answers id 0 .new scanOverDeleteArgs rs ∧
      (quietSurroundings.handler id Chunks.reader (fun _ _ => none) defaultLimits
        false).serveConn 6 scanOverDelete = some trace ∧
      parseReplies (delivered trace) = some (Command.Reply.values rs) ∧
      parseReplies (delivered trace) = some [.simple (text "OK"), .simple (text "OK"),
        .array [.bulk (text "7"), .array [.bulk (text "a")]], .int 1,
        .array [.bulk (text "0"), .array [.bulk (text "b")]]] := by
  have hsplits : Splits defaultLimits scanOverDelete.rest (scanOverDeleteArgs.attach.map
      fun args => ⟨_, _, isFrame_writeCommand (fitsFrame_scanOverDelete args.1 args.2)⟩) [] := by
    refine ⟨by decide +kernel, fun f hf => f.bytes_ne_nil (List.prefix_nil.mp hf)⟩
  obtain ⟨rs, hanswers, -, hall⟩ := client_reads_map quietSurroundings id (fun _ _ => none) false
    Chunks.delivers trivial hsplits
  have hrun : ((quietSurroundings.handler id Chunks.reader (fun _ _ => none) defaultLimits
      false).serveConn 6 scanOverDelete).any (fun trace => decide (Unfailed trace ∧
        delivered trace = text "+OK\r\n+OK\r\n*2\r\n$1\r\n7\r\n*1\r\n$1\r\na\r\n:1\r\n" ++
          text "*2\r\n$1\r\n0\r\n*1\r\n$1\r\nb\r\n")) = true := by
    decide +kernel
  obtain ⟨trace, htrace, hgood⟩ := (Option.any_eq_true _ _).mp hrun
  obtain ⟨hgood, hbytes⟩ := of_decide_eq_true hgood
  refine ⟨rs, trace, hanswers, htrace, ?_, ?_⟩
  · have hcalm : complaint defaultLimits [] = none := rfl
    rw [hall 6 trace htrace hgood, hcalm, Option.toList_none, List.map_nil, List.append_nil]
  · rw [hbytes]
    rfl

end Wire

end GoKv
