import GoKv.Command.Operation
import GoKv.Engine.Discovery
import GoKv.Engine.ScanTraversal

/-! SCAN as a client uses it: commands and replies, with the cursor as text. Whatever else happens
between its calls, a traversal returns the keys that KEYS would have returned at its start. -/
namespace GoKv
open GoLib GoKv.Aof

namespace Command

variable (mapUpper : Bytes → Bytes)

def scanRequest (args : List Bytes) : Option ScanRequest :=
  match resolve mapUpper args with
  | .ok .scan => (parseScan mapUpper args).toOption
  | _ => none

theorem scanReply_page {res : Except ScanErr ScanResult} {next : Bytes} {keys : List Bytes}
    (h : scanReply res = .array [.bulk next, .array (keys.map .bulk)]) :
    res = .ok ⟨digitsValue next, keys⟩ ∧ next = natText (digitsValue next) := by
  cases res with
  | error err => cases err <;> cases h
  | ok page =>
    obtain ⟨cursor, ks⟩ := page
    simp only [scanReply, Reply.array.injEq, List.cons.injEq, Reply.bulk.injEq, and_true] at h
    obtain ⟨rfl, hkeys⟩ := h
    rw [digitsValue_natText]
    have hinj : Function.Injective Reply.bulk := fun _ _ heq => Reply.bulk.inj heq
    rw [hinj.list_map hkeys]
    exact ⟨rfl, rfl⟩

/-- A command that reaches the sessions is a SCAN whose options parse. -/
theorem resolve_of_scanRequest {args : List Bytes} {req : ScanRequest}
    (h : scanRequest mapUpper args = some req) :
    resolve mapUpper args = .ok .scan ∧ parseScan mapUpper args = .ok req := by
  unfold scanRequest at h
  split at h
  · rename_i hr
    refine ⟨hr, ?_⟩
    cases hp : parseScan mapUpper args with
    | error bad => rw [hp] at h; cases h
    | ok r =>
      rw [hp] at h
      cases h
      rfl
  · cases h

private theorem dispatch_scan {args : List Bytes} {req : ScanRequest}
    (h : scanRequest mapUpper args = some req) (env : Env) (e : Engine) :
    dispatch mapUpper env e args = (scanReply (env.scan req), e) := by
  obtain ⟨hr, hp⟩ := resolve_of_scanRequest mapUpper h
  simp only [dispatch, hr, runResolved, Cmd.run, cmdScan, hp]

private theorem cursor_scanOptions {opts : List Bytes} {req req' : ScanRequest}
    (h : scanOptions mapUpper opts req = .ok req') : req'.cursor = req.cursor := by
  fun_induction scanOptions mapUpper opts req
  case case1 => cases h; rfl
  case case3 ih => exact ih h
  case case7 ih => exact ih h
  all_goals cases h

theorem natText_injective : Function.Injective natText :=
  Function.LeftInverse.injective digitsValue_natText

private theorem head_natText_ne_plus (n : ℕ) : (natText n).head? ≠ some 43 := by
  intro h
  obtain ⟨cs, hcs⟩ := List.head?_eq_some_iff.mp h
  exact absurd (head_natText_isDigit n hcs) (by decide)

/-- A cursor is read as the number its text denotes. -/
theorem cursor_scanRequest {args : List Bytes} {req : ScanRequest} {n : ℕ}
    (h : scanRequest mapUpper args = some req) (hc : arg args 1 = natText n) : req.cursor = n := by
  have hp := (resolve_of_scanRequest mapUpper h).2
  simp only [parseScan, hc, if_neg (head_natText_ne_plus n), parseUint64, digitsValue_natText] at hp
  split at hp
  · cases hp
  · rename_i cursor hcursor
    split_ifs at hcursor
    cases hcursor
    exact cursor_scanOptions mapUpper hp

end Command

/-! ## Commands one after the other -/

open Command

structure Desk where
  engine : Engine
  sessions : ScanManager

/-- What a command meets: the clock, the orders the map and the session table are iterated in, what
its durability wait returns, and the answers of the token source. -/
structure DeskMet where
  now : ℤ
  order : List Bytes
  wait : Except AofErr Unit
  table : List ℕ
  draws : List (Option ℕ)

structure Served where
  args : List Bytes
  reply : Command.Reply

namespace Desk

variable (mapUpper : Bytes → Bytes)

/-- Dispatch, with the sessions behind SCAN. There is no reply while the token source is asked. -/
def serve (s : Desk) (x : DeskMet) (args : List Bytes) : Option (Command.Reply × Desk) :=
  if ho : x.order.Perm s.engine.store.data.keys ∧ x.table.Perm s.sessions.sessions.keys then
    match scanRequest mapUpper args with
    | none =>
      let (r, e) := dispatch mapUpper ⟨x.now, x.order, x.wait, fun _ => .error .other⟩ s.engine args
      some (r, { s with engine := e })
    | some req =>
      (s.engine.scan s.sessions req x.now x.order ho.1 x.table x.draws).map fun (m, res) =>
        let (r, e) := dispatch mapUpper ⟨x.now, x.order, x.wait, fun _ => res⟩ s.engine args
        (r, ⟨e, m⟩)
  else none

def new : Desk := ⟨.new, .new defaultScanSessionLimits⟩

/-- The commands of any number of clients with their replies. Between them anything may happen to
the engine, and the sessions may be cleared. -/
inductive Runs : Desk → List Served → Desk → Prop where
  | nil (s : Desk) : Runs s [] s
  | command {s t u : Desk} {x : DeskMet} {c : Served} {log : List Served}
      (step : s.serve mapUpper x c.args = some (c.reply, t)) (rest : Runs t log u) :
      Runs s (c :: log) u
  | engine {s u : Desk} {log : List Served} (e : Engine)
      (rest : Runs { s with engine := e } log u) : Runs s log u
  | clear {s u : Desk} {log : List Served}
      (rest : Runs { s with sessions := s.sessions.clear } log u) : Runs s log u

end Desk

/-- The cursor a reply hands out, if there is more to come. -/
def Served.issued (mapUpper : Bytes → Bytes) (c : Served) : Option Bytes :=
  match scanRequest mapUpper c.args, c.reply with
  | some _, .array [.bulk cursor, _] => if cursor = natText 0 then none else some cursor
  | _, _ => none

/-- The pages a client gets that was handed `cursor` and sends it back, and then each cursor it is
handed, until that is zero. -/
inductive Pages (mapUpper : Bytes → Bytes) : List Served → Bytes → List (List Bytes) → Prop where
  | done (log : List Served) : Pages mapUpper log (natText 0) []
  | skip {log : List Served} {cursor : Bytes} {pages : List (List Bytes)} (c : Served)
      (rest : Pages mapUpper log cursor pages) : Pages mapUpper (c :: log) cursor pages
  | page {log : List Served} {cursor next : Bytes} {keys : List Bytes} {pages : List (List Bytes)}
      {c : Served} {req : ScanRequest} (hz : cursor ≠ natText 0)
      (hreq : scanRequest mapUpper c.args = some req) (hcursor : arg c.args 1 = cursor)
      (hreply : c.reply = .array [.bulk next, .array (keys.map .bulk)])
      (rest : Pages mapUpper log next pages) : Pages mapUpper (c :: log) cursor (keys :: pages)

namespace Desk

variable {mapUpper : Bytes → Bytes} {s t u : Desk}

theorem serve_of_scanRequest {x : DeskMet} {args : List Bytes} {req : ScanRequest}
    (ho : x.order.Perm s.engine.store.data.keys) (ht : x.table.Perm s.sessions.sessions.keys)
    (hreq : scanRequest mapUpper args = some req) :
    s.serve mapUpper x args =
      (s.engine.scan s.sessions req x.now x.order ho x.table x.draws).map fun (m, res) =>
        (scanReply res, { s with sessions := m }) := by
  simp only [serve, dif_pos (And.intro ho ht), hreq, dispatch_scan mapUpper hreq]

theorem serve_of_no_scanRequest {x : DeskMet} {args : List Bytes}
    (ho : x.order.Perm s.engine.store.data.keys) (ht : x.table.Perm s.sessions.sessions.keys)
    (hreq : scanRequest mapUpper args = none) :
    s.serve mapUpper x args =
      let (r, e) := dispatch mapUpper ⟨x.now, x.order, x.wait, fun _ => .error .other⟩ s.engine args
      some (r, { s with engine := e }) := by
  simp only [serve, dif_pos (And.intro ho ht), hreq]

theorem perm_of_serve {x : DeskMet} {args : List Bytes} {out : Command.Reply × Desk}
    (h : s.serve mapUpper x args = some out) :
    x.order.Perm s.engine.store.data.keys ∧ x.table.Perm s.sessions.sessions.keys := by
  unfold serve at h
  split_ifs at h with ho
  exact ho

theorem serve_scan {x : DeskMet} {c : Served} {req : ScanRequest}
    (hreq : scanRequest mapUpper c.args = some req)
    (h : s.serve mapUpper x c.args = some (c.reply, t)) :
    ∃ e res, s.sessions.step e.call = some (t.sessions, e) ∧ e.result = some res ∧
      c.reply = scanReply res ∧
      (req.cursor ≠ 0 → e.call.continues = some req.cursor) ∧
      (req.cursor = 0 → ∃ keys : KeySlice,
        e.call = .start keys (Engine.scanPattern req) req.count x.now x.table x.draws ∧
        s.engine.Discovers x.now (Engine.scanPattern req) keys.list) := by
  have ho := perm_of_serve h
  rw [serve_of_scanRequest ho.1 ho.2 hreq] at h
  obtain ⟨⟨m, res⟩, hscan, heq⟩ := Option.map_eq_some_iff.mp h
  simp only [Prod.mk.injEq] at heq
  obtain ⟨hreply, rfl⟩ := heq
  unfold Engine.scan at hscan
  split_ifs at hscan with hc
  · refine ⟨⟨.next req.cursor req.pattern req.patternSet req.count x.now x.table x.draws,
      some res⟩, res, ?_, rfl, hreply.symm, fun _ => rfl, fun hz => absurd hz hc⟩
    simp only [ScanManager.step, if_pos ho.2, hscan, Option.map_some]
  · refine ⟨⟨.start _ _ req.count x.now x.table x.draws, some res⟩, res, ?_, rfl, hreply.symm,
      fun hz => absurd hz hc, fun _ => ⟨_, rfl, Engine.discovers_scan ho.1 _⟩⟩
    simp only [Engine.captureLiveKeys] at hscan
    simp only [ScanManager.step, if_pos ho.2, Engine.captureLiveKeys, hscan, Option.map_some]

private theorem serve_other {x : DeskMet} {c : Served} (hreq : scanRequest mapUpper c.args = none)
    (h : s.serve mapUpper x c.args = some (c.reply, t)) : t.sessions = s.sessions := by
  have ho := perm_of_serve h
  rw [serve_of_no_scanRequest ho.1 ho.2 hreq] at h
  simp only [Option.some.injEq, Prod.mk.injEq] at h
  obtain ⟨-, rfl⟩ := h
  rfl

private theorem issued_scanReply {c : Served} {req : ScanRequest} {e : ScanEntry}
    {res : Except ScanErr ScanResult} (hreq : scanRequest mapUpper c.args = some req)
    (hres : e.result = some res) (hreply : c.reply = scanReply res) :
    e.issued.map natText = c.issued mapUpper := by
  rw [ScanEntry.issued, hres, Served.issued, hreq, hreply]
  cases res with
  | error err => cases err <;> rfl
  | ok page =>
    simp only [scanReply, natText_injective.eq_iff]
    split_ifs <;> rfl

theorem map_issued_cons {c : Served} {req : ScanRequest} {e : ScanEntry}
    {res : Except ScanErr ScanResult} (hreq : scanRequest mapUpper c.args = some req)
    (hres : e.result = some res) (hreply : c.reply = scanReply res) {scans : List ScanEntry}
    {log : List Served} (h : (issued scans).map natText = log.filterMap (Served.issued mapUpper)) :
    (issued (e :: scans)).map natText = (c :: log).filterMap (Served.issued mapUpper) := by
  rw [issued, List.filterMap_cons, List.filterMap_cons, ← issued_scanReply hreq hres hreply]
  cases e.issued with
  | none => exact h
  | some n => exact congrArg (natText n :: ·) h

/-- The scan calls behind a run: they hand out the same cursors, and a client that follows its
cursors as text follows them as numbers. -/
theorem scanPages_of_pages {log : List Served} (hrun : Runs mapUpper s log t) :
    ∃ scans, ScanRuns s.sessions scans t.sessions ∧
      (issued scans).map natText = log.filterMap (Served.issued mapUpper) ∧
      ∀ n pages, Pages mapUpper log (natText n) pages → ScanPages scans n pages := by
  induction hrun with
  | nil s =>
    refine ⟨[], .nil _, rfl, fun n pages h => ?_⟩
    generalize hn : natText n = cursor at h
    cases h
    obtain rfl := natText_injective hn
    exact .done []
  | engine e rest ih => exact ih
  | clear rest ih =>
    obtain ⟨scans, hscans, hissued, hnumbers⟩ := ih
    exact ⟨⟨.clear, none⟩ :: scans, .cons rfl hscans, hissued,
      fun n pages h => .skip _ (hnumbers n pages h)⟩
  | @command s t u x c log step rest ih =>
    obtain ⟨scans, hscans, hissued, hnumbers⟩ := ih
    cases hreq : scanRequest mapUpper c.args with
    | none =>
      have hsame := serve_other hreq step
      have hnone : c.issued mapUpper = none := by rw [Served.issued, hreq]
      refine ⟨scans, hsame ▸ hscans, ?_, fun n pages h => ?_⟩
      · rw [hissued, List.filterMap_cons_none hnone]
      · generalize hn : natText n = cursor at h
        cases h with
        | done =>
          obtain rfl := natText_injective hn
          exact .done scans
        | skip _ rest => exact hnumbers n pages (hn ▸ rest)
        | page hz hreq' => rw [hreq] at hreq'; cases hreq'
    | some req =>
      obtain ⟨e, res, hstep, hres, hreply, hcont, -⟩ := serve_scan hreq step
      refine ⟨e :: scans, .cons hstep hscans, ?_, fun n pages h => ?_⟩
      · exact map_issued_cons hreq hres hreply hissued
      · generalize hn : natText n = cursor at h
        cases h with
        | done =>
          obtain rfl := natText_injective hn
          exact .done _
        | skip _ rest => exact .skip e (hnumbers n pages (hn ▸ rest))
        | page hz hreq' hcursor hreply' rest =>
          subst hn
          obtain ⟨rfl, hnext⟩ := scanReply_page (hreply.symm.trans hreply')
          have hn := cursor_scanRequest mapUpper hreq hcursor
          have hne : n ≠ 0 := fun h0 => hz (congrArg natText h0)
          refine .page hne ?_ hres (hnumbers _ _ (hnext ▸ rest))
          rw [← hn]
          exact hcont (hn ▸ hne)

/-- A traversal returns what KEYS would have returned. A client sends SCAN with cursor 0, and then
sends back each cursor it is handed until that is zero. Whatever other clients, mutations, expiry
and failed calls come between, the pages together are what KEYS replies in the state the first call
met: the keys alive and matching then, in order and each once. -/
theorem scan_pages {x : DeskMet} {c : Served} {req : ScanRequest} {first : List Bytes}
    {cursor : Bytes} {post : List Served} {pages : List (List Bytes)}
    (hreq : scanRequest mapUpper c.args = some req) (hzero : req.cursor = 0)
    (hstart : s.serve mapUpper x c.args = some (c.reply, t))
    (hreply : c.reply = .array [.bulk cursor, .array (first.map .bulk)])
    (hpost : Runs mapUpper t post u)
    (hfresh : ((c :: post).filterMap (Served.issued mapUpper)).Nodup)
    (hpages : Pages mapUpper post cursor pages) :
    s.engine.Discovers x.now (Engine.scanPattern req) (first ++ pages.flatten) ∧
      ∀ env : Env, env.now = x.now → env.order.Perm s.engine.store.data.keys →
        (dispatch mapUpper env s.engine [text "KEYS", Engine.scanPattern req]).1 =
          .array ((first ++ pages.flatten).map .bulk) := by
  obtain ⟨e, res, hstep, hres, hscan, -, hbegin⟩ := serve_scan hreq hstart
  obtain ⟨keys, hcall, hkeys⟩ := hbegin hzero
  obtain ⟨rfl, hcursor⟩ := scanReply_page (hscan.symm.trans hreply)
  obtain ⟨scans, hscans, hissued, hnumbers⟩ := scanPages_of_pages hpost
  have hnodup : (issued (e :: scans)).Nodup := by
    refine List.Nodup.of_map natText ?_
    rwa [map_issued_cons hreq hres hscan hissued]
  have hreads := (hnumbers _ _ (hcursor ▸ hpages)).reads
    (hnodup.sublist (issued_cons_sublist _ _)) (notMem_issued_of_nodup hres hnodup)
  have hmoves := ScanManager.moves_of_step hstep
  rw [hcall, hres] at hmoves
  have hlist := ScanManager.pages_of_start hmoves hscans hreads
  rw [hlist]
  refine ⟨hkeys, fun env hnow ho => ?_⟩
  rw [← hnow] at hkeys
  rw [hkeys.unique (Engine.discovers_keys ho _)]
  rfl

def threeKeys : Desk := ⟨Engine.threeKeys, .new defaultScanSessionLimits⟩

/-- What the first SCAN of two keys is met with: the session it opens is named 7. -/
def firstMet : DeskMet := ⟨0, [[97], [98], [99]], .ok (), [], [some 7]⟩

def firstScanned : Desk :=
  ((threeKeys.serve id firstMet [text "SCAN", text "0", text "COUNT", text "2"]).map
    Prod.snd).getD threeKeys

/-- The last key of the traversal is deleted after its first page. -/
def deletedBetween : List Served :=
  [⟨[text "DEL", text "c"], .int 1⟩,
    ⟨[text "scan", natText 7], .array [.bulk (natText 0), .array ([[99]].map .bulk)]⟩]

theorem scan_pages_deleted :
    ∃ t, Runs id firstScanned deletedBetween t ∧ t.engine.get [99] 1 = none ∧
      Engine.threeKeys.Discovers 0 [42] [[97], [98], [99]] := by
  have hstart : threeKeys.serve id firstMet [text "SCAN", text "0", text "COUNT", text "2"] =
      some (.array [.bulk (natText 7), .array ([[97], [98]].map .bulk)], firstScanned) := rfl
  have hdel : firstScanned.serve id ⟨1, [[97], [98], [99]], .ok (), [7], []⟩
      [text "DEL", text "c"] = some (.int 1, _) := rfl
  have hpost : Runs id firstScanned deletedBetween _ :=
    .command hdel (.command (x := ⟨2, [[97], [98]], .ok (), [7], []⟩) rfl (.nil _))
  have hpages : Pages id deletedBetween (natText 7) [[[99]]] :=
    .skip _ (.page (by decide) rfl rfl rfl (.done _))
  obtain ⟨hall, -⟩ := scan_pages (c := ⟨_, _⟩) rfl rfl hstart rfl hpost (by decide) hpages
  exact ⟨_, hpost, rfl, hall⟩

end Desk

end GoKv
