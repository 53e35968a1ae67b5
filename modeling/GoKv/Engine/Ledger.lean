import GoKv.Engine.Concurrent
import GoKv.Engine.Counter

/-! What the engine is for, to goroutines that call it together: a map that discards what has
expired, whose calls happen one at a time. -/
namespace GoKv
open GoLib GoKv.Aof

/-- A map that discards what has expired, the gate, and a log of the changes made. -/
structure Ledger where
  map : Reference
  accepting : Bool
  log : Option Sys

namespace Ledger

def record (log : Option Sys) : List Record → Except EngineErr ℕ × Option Sys
  | [] => (.ok 0, log)
  | r :: _ =>
    match log with
    | none => (.ok 0, none)
    | some l =>
      match l.append r with
      | (.error err, l) => (.error (Engine.appendErr err), some l)
      | (.ok seq, l) => (.ok seq, some l)

/-- Discard; then record the change, and answer and make it unless the log refused. -/
def exec (g : Ledger) (now : ℤ) (op : Op) : Ticket × Ledger :=
  let live := g.map.discard now
  let change := op.change live.lookup now
  let (res, log) := record g.log (change.records live.lookup)
  ((live.reply now op).ticket res,
    { g with map := if res.isOk then live.apply change else live, log := log })

def call (g : Ledger) (x : Met) : EngineCall → Ticket × Ledger
  | .op op =>
    if op.mutates && !g.accepting then ((.failed .draining, 0), g)
    else g.exec x.now (op.meeting x.order)
  | .sweep => ((.done, 0), g)
  | .beginDrain => ((.done, 0), { g with accepting := false })

/-- Nothing the map's iteration order could change. -/
def atomic : AtomicObject Ledger ℤ Met EngineCall Ticket Aof.Event where
  time := Met.now
  fits _ _ _ := true
  run k x g := g.call x k
  env g ev := (logStep g.log ev).map fun log => { g with log := log }

/-- An engine and a ledger that hold the same live entries. -/
structure Agrees (clock : ℤ) (e : Engine) (g : Ledger) : Prop where
  accepting : g.accepting = e.acceptingMutations
  log : g.log = e.log
  live : ∀ k, liveAt clock (e.store.entry k) = liveAt clock (g.map.lookup k)

theorem Agrees.later {c d : ℤ} {e : Engine} {g : Ledger} (h : Agrees c e g) (hle : c ≤ d) :
    Agrees d e g where
  accepting := h.accepting
  log := h.log
  live k := by rw [← liveAt_liveAt hle, h.live, liveAt_liveAt hle]

theorem record_commit (e : Engine) (rec : Record) (apply : Store → Store) :
    (e.commitRecord rec apply).1 = (record e.log [rec]).1 := by
  unfold Engine.commitRecord record
  cases e.log with
  | none => rfl
  | some l =>
    simp only [Engine.commit]
    rcases l.append rec with ⟨err | seq, l'⟩ <;> rfl

theorem incrFrom_ticket (e : Engine) (key : Bytes) (n delta : Int64) (d : Option ℤ) :
    (Reply.of (fun a => Reply.int a.1) (e.incrFrom key n delta d).1,
        Reply.sequence (e.incrFrom key n delta d).1) =
      match addInt64 n delta with
      | none => (.failed .incrOverflow, 0)
      | some k => (Reply.int k).ticket
          (record e.log [deriveSet key (formatInt k.toInt) (d.getD zeroTime) d.isSome]).1 := by
  cases hadd : addInt64 n delta with
  | none =>
    rw [Engine.incrFrom_of_none key d hadd]
    rfl
  | some k =>
    rw [Engine.incrFrom_of_some key d hadd]
    simp only [Prod.map_fst, Engine.commitSet, record_commit]
    exact Reply.ticket_map Reply.int k _

private theorem ticket_read {e : Engine} {now : ℤ} {m : Reference} {op : Op}
    (hop : op.mutates = false) (hm : ∀ k, e.view now k = m.lookup k) (ho : op.Iterates e.store) :
    (e.ticket now op).1 = (m.reply now op, 0) := by
  have hreply := Engine.exec_reply (e := { e with acceptingMutations := true, log := none })
    rfl rfl hm ho
  rw [← hreply]
  cases op with
  | set | expire | persist | delete | incrBy => cases hop
  | _ => rfl

private theorem ticket_reply {e : Engine} {now : ℤ} {m : Reference} {op : Op}
    (ha : op.mutates = true → e.acceptingMutations = true)
    (hm : ∀ k, e.view now k = m.lookup k) (ho : op.Iterates e.store) :
    (e.ticket now op).1 = (m.reply now op).ticket
      (record e.log ((op.change m.lookup now).records m.lookup)).1 := by
  have hview : e.view now = m.lookup := funext hm
  have hget : ∀ k, e.store.get k (e.readNow now) = (m.lookup k).map Prod.fst := fun k => by
    rw [e.get_readNow, hm]
  have hnow : ∀ k, e.store.get k now = (m.lookup k).map Prod.fst := fun k => by rw [e.get_now, hm]
  cases op with
  | set key value t =>
    simp only [Engine.ticket, Engine.set, ha rfl, if_true, Engine.commitSet, record_commit,
      Reference.reply, Op.change, Change.records]
    cases t.set <;> rfl
  | expire key d =>
    simp only [Engine.ticket, Engine.expire, ha rfl, if_true, hnow, Reference.reply,
      Reference.mem_iff, Op.change]
    cases m.lookup key with
    | none => rfl
    | some en =>
      simp only [Option.map_some, Engine.commitSet, record_commit]
      exact Reply.ticket_map Reply.flag true _
  | persist key =>
    have httl := e.store.ttl_eq key now
    rw [show liveAt now (e.store.entry key) = m.lookup key from hm key] at httl
    simp only [Engine.ticket, Engine.persist, ha rfl, if_true, hnow, httl, Reference.reply,
      Op.change]
    rcases m.lookup key with _ | ⟨v, _ | deadline⟩
    · rfl
    · rfl
    · simp only [Option.map_some, ne_eq, not_true, if_false, Engine.commitSet, record_commit]
      exact Reply.ticket_map Reply.flag true _
  | delete keys =>
    have hlive : Engine.liveDistinct e.store (e.readNow now) keys [] =
        Change.present m.lookup keys := by
      rw [Engine.liveDistinct_eq, hview]
      simp
    simp only [Engine.ticket, Engine.delete, ha rfl, if_true, hlive, Reference.reply,
      ← Engine.length_present, Op.change, Change.records]
    by_cases hnil : Change.present m.lookup keys = []
    · simp [hnil, record, Reply.of, Reply.sequence, Reply.ticket]
    · rw [if_neg (by simpa using hnil), if_neg hnil]
      simp only [Engine.commitDel, record_commit]
      exact Reply.ticket_map Reply.count _ _
  | incrBy key delta =>
    simp only [Engine.ticket, Engine.incrBy, ha rfl, if_true, hget, Reference.reply, Op.change,
      incrResult, incrStart]
    rcases hlook : m.lookup key with _ | ⟨v, d⟩
    · simp only [Option.map_none, incrFrom_ticket]
      cases addInt64 0 delta <;> rfl
    · have hd : e.store.expiresAt key = d :=
        Store.expiresAt_eq (liveAt_eq_some.mp ((hm key).trans hlook)).1
      simp only [Option.map_some]
      cases Engine.parseStoredInt v with
      | none => rfl
      | some n =>
        simp only [incrFrom_ticket, hd]
        cases addInt64 n delta <;> rfl
  | _ => exact ticket_read rfl hm ho

private theorem record_logs {log log' : Option Sys} {rs : List Record} (h : Logs log rs log') :
    (record log rs).2 = log' := by
  cases h with
  | off rs => cases rs <;> rfl
  | nothing l => rfl
  | one h => simp only [record, h]

private theorem record_error {log : Option Sys} {rs : List Record} {err : EngineErr}
    (h : (record log rs).1 = .error err) : (record log rs).2 = log := by
  cases rs with
  | nil => cases h
  | cons r rs =>
    cases log with
    | none => cases h
    | some l =>
      rcases l.append_cases r with ⟨e, -, hr⟩ | ⟨-, -, -, -, hr⟩
      · simp only [record, hr]
      · simp [record, hr] at h

/-- An operation the map itself fails changes nothing. -/
theorem change_of_failed {m : Reference} {now : ℤ} {op : Op}
    (h : (m.reply now op).isFailed = true) : op.change m.lookup now = .keep := by
  cases op with
  | incrBy key delta =>
    simp only [Reference.reply] at h
    cases hr : incrResult m.lookup key delta with
    | error err => simp only [Op.change, hr]
    | ok a =>
      rw [hr] at h
      cases h
  | persist key =>
    simp only [Reference.reply] at h
    split at h <;> cases h
  | ttl key =>
    simp only [Reference.reply] at h
    split at h <;> cases h
  | _ => cases h

/-- An operation keeps the ledger in agreement, whatever the log says. -/
theorem agrees_exec {clock now : ℤ} {e : Engine} {g : Ledger} {op : Op} (h : Agrees clock e g)
    (hnow : clock ≤ now) (ha : op.mutates = true → e.acceptingMutations = true)
    (ho : op.Iterates e.store) :
    (e.ticket now op).1 = (g.exec now op).1 ∧ Agrees now (e.ticket now op).2 (g.exec now op).2 := by
  have hview : ∀ k, e.view now k = (g.map.discard now).lookup k := fun k => by
    rw [Engine.view, Reference.lookup_discard, ← liveAt_liveAt hnow, h.live, liveAt_liveAt hnow]
  have hlive : ∀ k, liveAt now (e.store.entry k) = liveAt now ((g.map.discard now).lookup k) :=
    fun k => by rw [← hview k]; exact (liveAt_liveAt le_rfl _).symm
  have hreply := ticket_reply ha hview ho
  have hfunext : e.view now = (g.map.discard now).lookup := funext hview
  obtain ⟨hexec, hnext⟩ := e.ticket_exec now op
  have hperf := e.exec_performed now op
  rw [← hexec, ← hnext, hreply, Engine.Performed, hfunext] at hperf
  simp only [exec, h.log]
  refine ⟨hreply, ?_⟩
  cases hres : (record e.log
      ((op.change (g.map.discard now).lookup now).records (g.map.discard now).lookup)).1 with
  | error err =>
    have hlog := record_error hres
    simp only [hlog, Except.isOk, Except.toBool, Bool.false_eq_true, if_false]
    rcases hperf with ⟨heq, -, -⟩ | ⟨-, -, -, hkeep⟩
    · rw [heq]
      exact ⟨h.accepting, rfl, hlive⟩
    · rw [hkeep (by rw [hres]; rfl)] at hres
      cases hres
  | ok seq =>
    rw [hres] at hperf
    simp only [Except.isOk, Except.toBool, if_true]
    rcases hperf with ⟨heq, hok, -⟩ | ⟨hent, hlogs, hacc, -⟩
    · -- An INCR that fails on the value it finds.
      have hkeep := change_of_failed (by simpa [Reply.ticket] using hok)
      rw [heq, hkeep]
      exact ⟨h.accepting, rfl, hlive⟩
    · refine ⟨h.accepting.trans hacc.symm, record_logs hlogs, fun k => ?_⟩
      rw [hent, Reference.lookup_apply]
      exact liveAt_entries hlive _ k

private theorem ticket_draining {e : Engine} {now : ℤ} {op : Op} (hop : op.mutates = true)
    (ha : e.acceptingMutations = false) : e.ticket now op = ((.failed .draining, 0), e) := by
  cases op with
  | set key value t => simp [Engine.ticket, Engine.set, ha, Reply.ticket]
  | expire key d => simp [Engine.ticket, Engine.expire, ha, Reply.of, Reply.sequence]
  | persist key => simp [Engine.ticket, Engine.persist, ha, Reply.of, Reply.sequence]
  | delete keys => simp [Engine.ticket, Engine.delete, ha, Reply.of, Reply.sequence]
  | incrBy key delta => simp [Engine.ticket, Engine.incrBy, ha, Reply.of, Reply.sequence]
  | _ => cases hop

private theorem agrees_call {clock : ℤ} {e : Engine} {g : Ledger} {x : Met} {k : EngineCall}
    (h : Agrees clock e g) (hnow : clock ≤ x.now) (hfits : k.fits x e.store = true) :
    (e.call x k).1 = (g.call x k).1 ∧ Agrees x.now (e.call x k).2 (g.call x k).2 := by
  have hlater := (h.later hnow).live
  cases k with
  | op o =>
    simp only [Engine.call, call]
    by_cases hgate : (o.mutates && !g.accepting) = true
    · -- The gate is closed.
      rw [if_pos hgate]
      obtain ⟨hmut, hacc⟩ := Bool.and_eq_true_iff.mp hgate
      rw [h.accepting, Bool.not_eq_true'] at hacc
      rw [ticket_draining ((o.mutates_meeting x.order).trans hmut) hacc]
      exact ⟨rfl, h.accepting, h.log, hlater⟩
    · rw [if_neg hgate]
      refine agrees_exec h hnow (fun hmut => ?_) (of_decide_eq_true hfits)
      rw [o.mutates_meeting] at hmut
      simpa [hmut, h.accepting] using hgate
  | sweep =>
    refine ⟨rfl, h.accepting, h.log, fun j => ?_⟩
    exact (Store.liveAt_reclaimExpired le_rfl ..).trans (hlater j)
  | beginDrain => exact ⟨rfl, rfl, h.log, hlater⟩

/-- A goroutine cannot tell the engine from the ledger. -/
theorem refines : Engine.locked.atomic.Refines atomic
    fun clock s g => Agrees clock (s.1.engine s.2) g where
  time := rfl
  fits _ _ := rfl
  run {clock s g k x} h hnow hfits := by
    have hperform := Section.perform_ofCall s.1 s.2 x k
    have hcall := agrees_call h hnow hfits
    rw [← hperform] at hcall
    exact hcall
  env {clock s g ev s'} h henv := by
    obtain ⟨log, hlog, rfl⟩ := Option.map_eq_some_iff.mp henv
    refine ⟨{ g with log := log }, ?_, h.accepting, rfl, h.live⟩
    simp only [atomic, h.log]
    exact congrArg _ hlog

/-- However goroutines interleave, each call returns what the ledger answers at some moment
between the call and its return, and those moments come in the order of the clock; when no writer
is at work the store holds the ledger's entries. -/
theorem linearizable {m : Memory} {log : Option Sys} {g : Ledger} {clock : ℤ}
    (hstart : Agrees clock (m.engine log) g) {es : List (GuardedEvent Met EngineCall Aof.Event)}
    {t : Guarded Memory (Option Sys) ℤ Met EngineCall Ticket}
    (hrun : runSteps (Guarded.step Engine.locked) (.start m log clock) es = some t) :
    ∃ ds b, runSteps (AtomicState.step atomic) (.start g clock) ds = some b ∧
      b.trace = t.trace ∧ b.clock ≤ t.clock ∧
      (t.writer = none → Agrees b.clock (t.state.engine t.world) b.state) := by
  obtain ⟨ds, b, hb, htrace, hclock, hagrees⟩ := Guarded.linearizes refines hstart hrun
  refine ⟨ds, b, hb, htrace, hclock, fun hfree => ?_⟩
  rwa [Guarded.settled_of_free hfree] at hagrees

/-- Two reads share the lock before an increment that was called in between comes to it; a read
that is called later finds what it left. -/
def sharedRun : List (GuardedEvent Met EngineCall Aof.Event) :=
  [.call 0 (.op (.get [107])), .acquire 0, .call 1 (.op (.incrBy [107] 5)),
    .call 2 (.op (.existing [[107]])), .enter 0 ⟨1, []⟩, .acquire 2, .look 0, .enter 2 ⟨2, []⟩,
    .look 2, .look 0, .commit 0, .look 2, .release 0, .commit 2, .release 2, .acquire 1,
    .enter 1 ⟨3, []⟩, .look 1, .look 1, .look 1, .commit 1, .call 0 (.op (.get [107])), .change 1,
    .release 1, .acquire 0, .enter 0 ⟨4, []⟩, .look 0, .look 0, .commit 0, .release 0]

theorem linearizable_shared :
    ∃ t, runSteps (Guarded.step Engine.locked) (.start ⟨.new, true, 0⟩ none 0) sharedRun = some t ∧
      t.trace = [.call 0 (.op (.get [107])), .call 1 (.op (.incrBy [107] 5)),
        .call 2 (.op (.existing [[107]])), .answer 0 (.op (.get [107])) (.value none, 0),
        .answer 2 (.op (.existing [[107]])) (.count 0, 0), .call 0 (.op (.get [107])),
        .answer 1 (.op (.incrBy [107] 5)) (.int 5, 0),
        .answer 0 (.op (.get [107])) (.value (some [53]), 0)] ∧
      ∃ ds b, runSteps (AtomicState.step atomic) (.start ⟨∅, true, none⟩ 0) ds = some b ∧
        b.trace = t.trace := by
  have hrun : runSteps (Guarded.step Engine.locked) (.start ⟨.new, true, 0⟩ none 0) sharedRun =
      some _ := rfl
  obtain ⟨ds, b, hb, htrace, -⟩ :=
    linearizable (g := ⟨∅, true, none⟩) ⟨rfl, rfl, fun _ => rfl⟩ hrun
  exact ⟨_, hrun, rfl, ds, b, hb, htrace⟩

/-! ## No update is lost -/

/-- The operation leaves the key alone or adds to it. -/
def Counts (key : Bytes) : Op → Prop
  | .set k _ _ | .expire k _ | .persist k => k ≠ key
  | .delete ks => key ∉ ks
  | .incrBy k delta => k = key → 0 < delta
  | _ => True

def counted (key : Bytes) : EngineCall → Ticket → Option ℤ
  | .op (.incrBy k _), (.int n, _) => if k = key then some n.toInt else none
  | _, _ => none

def level (key : Bytes) (m : Reference) : ℤ :=
  match incrStart m.lookup key with
  | .ok (n, _) => n.toInt
  | .error _ => 0

theorem counted_failed (key : Bytes) (k : EngineCall) (err : EngineErr) (seq : ℕ) :
    counted key k (.failed err, seq) = none := by
  cases k with
  | op o => cases o <;> rfl
  | _ => rfl

private theorem counted_other {key : Bytes} {op : Op} (hop : ∀ delta, op ≠ .incrBy key delta)
    (r : Ticket) :
    counted key (.op op) r = none := by
  cases op with
  | incrBy k delta =>
    have hk : k ≠ key := fun heq => hop delta (heq ▸ rfl)
    obtain ⟨r, seq⟩ := r
    cases r <;> simp [counted, hk]
  | _ => rfl

theorem level_congr {key : Bytes} {m m' : Reference} (h : m'.lookup key = m.lookup key) :
    level key m' = level key m := by
  simp only [level, incrStart, h]

private theorem lookup_discard_of_lasting {m : Reference} {key : Bytes}
    (h : ∀ en, m.lookup key = some en → en.2 = none) (now : ℤ) :
    (m.discard now).lookup key = m.lookup key := by
  rw [Reference.lookup_discard]
  cases hk : m.lookup key with
  | none => rfl
  | some en =>
    obtain ⟨v, d⟩ := en
    obtain rfl : d = none := h _ hk
    rfl

private theorem lookup_apply_of_other {key : Bytes} {op : Op} (h : Counts key op)
    (hop : ∀ delta, op ≠ .incrBy key delta) (m : Reference) (now : ℤ) :
    (m.apply (op.change m.lookup now)).lookup key = m.lookup key := by
  rw [Reference.lookup_apply]
  cases op with
  | set k value t => simp [Op.change, Change.entries, Ne.symm h]
  | expire k d =>
    simp only [Op.change]
    cases m.lookup k with
    | none => rfl
    | some en => simp [Change.entries, Ne.symm h]
  | persist k =>
    simp only [Op.change]
    rcases m.lookup k with _ | ⟨v, _ | d⟩
    · rfl
    · rfl
    · simp [Change.entries, Ne.symm h]
  | delete ks => simp only [Op.change, Change.entries, if_neg h]
  | incrBy k delta =>
    have hk : key ≠ k := fun heq => hop delta (heq ▸ rfl)
    simp only [Op.change]
    rcases incrResult m.lookup k delta with err | ⟨n, d⟩
    · rfl
    · simp [Change.entries, hk]
  | _ => rfl

/-- An increment ends above what it starts from. -/
theorem incrResult_rises {f : Bytes → Option Entry} {key : Bytes} {delta n : Int64}
    {d : Option ℤ} (h : incrResult f key delta = .ok (n, d)) (hpos : 0 < delta) :
    ∃ k, incrStart f key = .ok (k, d) ∧ k.toInt < n.toInt := by
  unfold incrResult at h
  cases hs : incrStart f key with
  | error err => simp [hs] at h
  | ok a =>
    obtain ⟨k, d'⟩ := a
    simp only [hs] at h
    cases hadd : addInt64 k delta with
    | none => simp [hadd] at h
    | some m =>
      simp only [hadd] at h
      cases h
      refine ⟨k, rfl, ?_⟩
      have hdelta : 0 < delta.toInt := by simpa using Int64.lt_iff_toInt_lt.mp hpos
      rw [Engine.toInt_of_addInt64 hadd]
      omega

private theorem level_apply_incr {m : Reference} {key : Bytes} {delta n : Int64} {d : Option ℤ}
    (now : ℤ) (h : incrResult m.lookup key delta = .ok (n, d)) :
    (m.apply ((Op.incrBy key delta).change m.lookup now)).lookup key =
        some (formatInt n.toInt, d) ∧
      level key (m.apply ((Op.incrBy key delta).change m.lookup now)) = n.toInt := by
  have hlook : (m.apply ((Op.incrBy key delta).change m.lookup now)).lookup key =
      some (formatInt n.toInt, d) := by
    rw [Reference.lookup_apply]
    simp only [Op.change, h, Change.entries, if_true]
  refine ⟨hlook, ?_⟩
  simp only [level, incrStart, hlook, Engine.parseStoredInt_eq_some.mpr rfl]

private theorem rises_exec {g : Ledger} {key : Bytes} {op : Op} {now : ℤ} {k : EngineCall}
    (hinv : ∀ en, g.map.lookup key = some en → en.2 = none) (hop : Counts key op)
    (hk : ∀ r, counted key k r = counted key (.op op) r) :
    (∀ en, (g.exec now op).2.map.lookup key = some en → en.2 = none) ∧
      level key g.map ≤ level key (g.exec now op).2.map ∧
      ∀ a, counted key k (g.exec now op).1 = some a →
        level key g.map < a ∧ a ≤ level key (g.exec now op).2.map := by
  have hlive := lookup_discard_of_lasting hinv now
  have hlevel := level_congr hlive
  have hsame : ∀ {m : Reference}, m.lookup key = g.map.lookup key →
      (∀ en, m.lookup key = some en → en.2 = none) ∧ level key g.map ≤ level key m :=
    fun hm => ⟨hm ▸ hinv, (level_congr hm).ge⟩
  simp only [exec, hk]
  cases (record g.log
      ((op.change (g.map.discard now).lookup now).records (g.map.discard now).lookup)).1 with
  | error err =>
    obtain ⟨hnext, hle⟩ := hsame hlive
    refine ⟨hnext, hle, fun a ha => ?_⟩
    rw [Reply.ticket, counted_failed] at ha
    cases ha
  | ok seq =>
    simp only [Except.isOk, Except.toBool, if_true]
    by_cases hincr : ∃ delta, op = .incrBy key delta
    · obtain ⟨delta, rfl⟩ := hincr
      cases hres : incrResult (g.map.discard now).lookup key delta with
      | error err =>
        have hkeep : (Op.incrBy key delta).change (g.map.discard now).lookup now = .keep := by
          simp only [Op.change, hres]
        rw [hkeep]
        obtain ⟨hnext, hle⟩ := hsame hlive
        refine ⟨hnext, hle, fun a ha => ?_⟩
        simp only [Reference.reply, hres, Reply.ticket, counted_failed] at ha
        cases ha
      | ok nd =>
        obtain ⟨n, d⟩ := nd
        obtain ⟨hput, hn⟩ := level_apply_incr now hres
        obtain ⟨j, hj, hlt⟩ := incrResult_rises hres (hop rfl)
        have hfound : level key g.map = j.toInt := by
          rw [← hlevel]
          simp only [level, hj]
        rw [hn, hfound]
        refine ⟨fun en hen => ?_, hlt.le, fun a ha => ?_⟩
        · cases hput.symm.trans hen
          rcases incrResult_deadline hres with ⟨-, hd⟩ | ⟨v, hv⟩
          · exact hd
          · exact hinv (v, d) (hlive.symm.trans hv)
        · simp only [Reference.reply, hres, Reply.ticket, counted, if_true] at ha
          cases ha
          exact ⟨hlt, le_rfl⟩
    · obtain ⟨hnext, hle⟩ := hsame ((lookup_apply_of_other hop
        (fun delta heq => hincr ⟨delta, heq⟩) (g.map.discard now) now).trans hlive)
      refine ⟨hnext, hle, fun a ha => ?_⟩
      rw [counted_other fun delta heq => hincr ⟨delta, heq⟩] at ha
      cases ha

/-- While a key is only ever added to, what an increment answers is above all that came before. -/
theorem rises (key : Bytes) : atomic.Rises
    (fun g => ∀ en, g.map.lookup key = some en → en.2 = none) (fun g => level key g.map)
    (fun k => ∀ o, k = .op o → Counts key o) (counted key) where
  run {g k x} hinv hk _ := by
    cases k with
    | op o =>
      simp only [atomic, call]
      split_ifs
      · refine ⟨hinv, le_rfl, fun a ha => ?_⟩
        rw [counted_failed] at ha
        cases ha
      · refine rises_exec hinv ?_ fun r => ?_
        · have ho := hk o rfl
          cases o <;> exact ho
        · cases o <;> rfl
    | sweep => exact ⟨hinv, le_rfl, fun a ha => by cases ha⟩
    | beginDrain => exact ⟨hinv, le_rfl, fun a ha => by cases ha⟩
  env {g ev g'} hinv henv := by
    obtain ⟨log, -, rfl⟩ := Option.map_eq_some_iff.mp henv
    exact ⟨hinv, le_rfl⟩

/-- Goroutines that increment one key together, while no one sets, deletes or expires it, are all
given different numbers, whatever else they do and however they interleave. -/
theorem increments_distinct {m : Memory} {log : Option Sys} {g : Ledger} {clock : ℤ}
    (hstart : Agrees clock (m.engine log) g) {key : Bytes}
    (hkey : ∀ en, g.map.lookup key = some en → en.2 = none)
    {es : List (GuardedEvent Met EngineCall Aof.Event)}
    {t : Guarded Memory (Option Sys) ℤ Met EngineCall Ticket}
    (hrun : runSteps (Guarded.step Engine.locked) (.start m log clock) es = some t)
    (hcalls : ∀ c o, .call c (.op o) ∈ t.trace → Counts key o) :
    (t.trace.filterMap (Visible.answered (counted key))).Nodup := by
  obtain ⟨ds, b, hb, htrace, -⟩ := Guarded.linearizes refines hstart hrun
  rw [← htrace] at hcalls ⊢
  refine AtomicState.nodup_answers (rises key) hkey hb fun c k hck o hk => ?_
  subst hk
  exact hcalls c o hck

/-- Two increments, the second of which waits for the first. -/
def twoIncrements : List (GuardedEvent Met EngineCall Aof.Event) :=
  [.call 0 (.op (.incrBy [107] 1)), .call 1 (.op (.incrBy [107] 1)), .acquire 1,
    .enter 1 ⟨1, []⟩, .look 1, .look 1, .look 1, .commit 1, .change 1, .release 1, .acquire 0,
    .enter 0 ⟨1, []⟩, .look 0, .look 0, .look 0, .look 0, .commit 0, .change 0, .release 0]

theorem increments_distinct_two :
    ∃ t, runSteps (Guarded.step Engine.locked) (.start ⟨.new, true, 0⟩ none 0) twoIncrements =
        some t ∧
      t.trace.filterMap (Visible.answered (counted [107])) = [1, 2] ∧
      (t.trace.filterMap (Visible.answered (counted [107]))).Nodup := by
  have hrun : ∃ t, runSteps (Guarded.step Engine.locked) (.start ⟨.new, true, 0⟩ none 0)
        twoIncrements = some t ∧
      t.trace = [.call 0 (.op (.incrBy [107] 1)), .call 1 (.op (.incrBy [107] 1)),
        .answer 1 (.op (.incrBy [107] 1)) (.int 1, 0),
        .answer 0 (.op (.incrBy [107] 1)) (.int 2, 0)] := ⟨_, rfl, rfl⟩
  obtain ⟨t, hrun, htrace⟩ := hrun
  refine ⟨t, hrun, by rw [htrace]; rfl, increments_distinct (g := ⟨∅, true, none⟩)
    ⟨rfl, rfl, fun _ => rfl⟩ (fun en hen => by cases hen) hrun fun c o hco => ?_⟩
  rw [htrace] at hco
  simp only [List.mem_cons, Visible.call.injEq, EngineCall.op.injEq, reduceCtorEq, or_false,
    List.not_mem_nil] at hco
  rcases hco with ⟨-, rfl⟩ | ⟨-, rfl⟩ <;> exact fun _ => by decide

end Ledger

end GoKv
