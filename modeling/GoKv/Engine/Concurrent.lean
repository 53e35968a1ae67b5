import GoKv.Engine.Reference
import GoKv.Lib.Critical

/-! The engine under its readers-writer lock. Every operation is the sequence of its calls on the
store, its append to the log and its changes of the store; any number of goroutines interleave
theirs as the lock allows, and the log takes its own steps throughout. -/
namespace GoKv
open GoLib GoKv.Aof

/-- What the engine's lock protects. -/
structure Memory where
  store : Store
  acceptingMutations : Bool
  appliedSeq : ℕ

def Memory.engine (m : Memory) (log : Option Sys) : Engine :=
  ⟨m.store, m.acceptingMutations, log, m.appliedSeq⟩

@[simp] theorem Memory.engine_accepting (m : Memory) (log : Option Sys) :
    (m.engine log).acceptingMutations = m.acceptingMutations := rfl

/-- What a critical section returns: a result, and the sequence number to await, if any. -/
abbrev Ticket := Reply × ℕ

/-- What a call meets once it holds the lock: the clock's answer, and the order the map is
iterated in. -/
structure Met where
  now : ℤ
  order : List Bytes

inductive EngineCall where
  | op (op : Op)
  | sweep
  | beginDrain

/-- The operations that take the write lock. -/
def Op.mutates : Op → Bool
  | .set _ _ _ | .expire _ _ | .persist _ | .delete _ | .incrBy _ _ => true
  | _ => false

def EngineCall.exclusive : EngineCall → Bool
  | .op o => o.mutates
  | _ => true

def EngineCall.fits (x : Met) (s : Store) : EngineCall → Bool
  | .op o => decide ((o.meeting x.order).Iterates s)
  | .sweep => decide (x.order.Perm s.expires.keys)
  | .beginDrain => true

/-! ## Calls performed at once -/

def Reply.sequence {α : Type*} : Except EngineErr (α × ℕ) → ℕ
  | .ok a => a.2
  | .error _ => 0

def Reply.ticket (reply : Reply) : Except EngineErr ℕ → Ticket
  | .ok seq => (reply, seq)
  | .error err => (.failed err, 0)

theorem Reply.ticket_map {α : Type*} (f : α → Reply) (a : α) (res : Except EngineErr ℕ) :
    (Reply.of (fun x : α × ℕ => f x.1) (res.map fun seq => (a, seq)),
      Reply.sequence (res.map fun seq => (a, seq))) = (f a).ticket res := by
  cases res with
  | error err => rfl
  | ok seq => rfl

namespace Engine

def ticket (e : Engine) (now : ℤ) : Op → Ticket × Engine
  | .set key value t =>
    let (res, e) := e.set key value t now
    (Reply.done.ticket res, e)
  | .expire key d =>
    let (res, e) := e.expire key d now
    ((.of (fun a => .flag a.1) res, Reply.sequence res), e)
  | .persist key =>
    let (res, e) := e.persist key now
    ((.of (fun a => .flag a.1) res, Reply.sequence res), e)
  | .delete keys =>
    let (res, e) := e.delete keys now
    ((.of (fun a => .count a.1) res, Reply.sequence res), e)
  | .incrBy key delta =>
    let (res, e) := e.incrBy key delta now
    ((.of (fun a => .int a.1) res, Reply.sequence res), e)
  | op => (((e.exec now op).1, 0), (e.exec now op).2)

theorem ticket_exec (e : Engine) (now : ℤ) (op : Op) :
    (e.ticket now op).1.1 = (e.exec now op).1 ∧ (e.ticket now op).2 = (e.exec now op).2 := by
  cases op with
  | set key value t =>
    refine ⟨?_, rfl⟩
    simp only [ticket, exec]
    cases (e.set key value t now).1 <;> rfl
  | _ => exact ⟨rfl, rfl⟩

def call (e : Engine) (x : Met) : EngineCall → Ticket × Engine
  | .op op => e.ticket x.now (op.meeting x.order)
  | .sweep => ((.done, 0), (e.reclaimOnce x.now x.order).2)
  | .beginDrain => ((.done, 0), e.beginDrain)

end Engine

/-- A step of the log that is not an append of its own. -/
def logStep (log : Option Sys) : Aof.Event → Option (Option Sys)
  | .append _ => none
  | ev => log.bind fun l => (l.step ev).map some

/-! ## Critical sections -/

/-- The part of an operation that runs under the lock. -/
abbrev Section := Looking Memory (Option Sys → Option Sys × Changing Memory Ticket)

namespace Section

def answer (t : Ticket) : Section := .done fun log => (log, .done t)

def lookStore {α : Type} (f : Store → α) (next : α → Section) : Section :=
  .look fun m => next (f m.store)

/-- readNow. The clock is asked at some moment under the lock, when nothing changes the store. -/
def readNow (now : ℤ) (next : ℤ → Section) : Section :=
  lookStore Store.hasExpirations fun has => next (if has then now else zeroTime)

def gate (next : Section) : Section :=
  .look fun m => if m.acceptingMutations then next else answer (.failed .draining, 0)

def changes : List (Store → Store) → Changing Memory Ticket → Changing Memory Ticket
  | [], next => next
  | f :: fs, next => .change (fun m => { m with store := f m.store }) fun _ => changes fs next

/-- commit, and the wrappers that skip it without a log. -/
def commit (rec : Record) (fs : List (Store → Store)) (reply : Reply) : Section :=
  .done fun log =>
    match log with
    | none => (none, changes fs (.done (reply, 0)))
    | some l =>
      match l.append rec with
      | (.error err, l) => (some l, .done (.failed (Engine.appendErr err), 0))
      | (.ok seq, l) =>
        (some l, changes fs
          (.change (fun m => { m with appliedSeq := seq }) fun _ => .done (reply, seq)))

def get (key : Bytes) (now : ℤ) : Section :=
  readNow now fun now => lookStore (·.get key now) fun v => answer (.value v, 0)

def mgetLoop (now : ℤ) : List Bytes → List (Option Bytes) → Section
  | [], out => answer (.values out, 0)
  | k :: ks, out => lookStore (·.get k now) fun v => mgetLoop now ks (out ++ [v])

def existingLoop (now : ℤ) : List Bytes → ℕ → Section
  | [], n => answer (.count n, 0)
  | k :: ks, n =>
    lookStore (·.get k now) fun v => existingLoop now ks (if v.isSome then n + 1 else n)

def ttl (key : Bytes) (now : ℤ) : Section :=
  readNow now fun now => lookStore (·.ttl key now) fun
    | (d, .hasTTL) => answer (.ttl d .hasTTL, 0)
    | (_, .noTTL) => answer (.ttl 0 .noTTL, 0)
    | (_, .noKey) => answer (.ttl 0 .noKey, 0)

/-- Sorting and filtering come after the lock is released. -/
def keys (pattern : Bytes) (order : List Bytes) (now : ℤ) : Section :=
  readNow now fun now => lookStore (·.liveKeys now order) fun ks =>
    answer (.keys (Engine.filterSnapshot (Engine.sortSnapshot ks) pattern).1, 0)

def dbSize (now : ℤ) : Section :=
  readNow now fun now => lookStore (·.len now) fun n => answer (.count n, 0)

def set (key value : Bytes) (ttl : TTL) (now : ℤ) : Section :=
  gate <|
    let deadline := if ttl.set then timeAdd now ttl.d else zeroTime
    commit (deriveSet key value deadline ttl.set) [fun s => s.set key value deadline ttl.set] .done

def expire (key : Bytes) (d : Duration) (now : ℤ) : Section :=
  gate <| lookStore (·.get key now) fun
    | none => answer (.flag false, 0)
    | some value =>
      let deadline := timeAdd now d
      commit (deriveSet key value deadline true) [fun s => (s.expire key deadline now).2]
        (.flag true)

def persist (key : Bytes) (now : ℤ) : Section :=
  gate <| lookStore (·.get key now) fun
    | none => answer (.flag false, 0)
    | some value => lookStore (·.ttl key now) fun (_, st) =>
      if st ≠ .hasTTL then answer (.flag false, 0)
      else commit (deriveSet key value zeroTime false) [fun s => (s.persist key now).2] (.flag true)

/-- The loop that finds the live keys, in the order they are listed and each once. -/
def liveLoop (now : ℤ) : List Bytes → List Bytes → List Bytes → (List Bytes → Section) → Section
  | [], _, live, next => next live
  | k :: ks, seen, live, next =>
    if k ∈ seen then liveLoop now ks seen live next
    else lookStore (·.get k now) fun v =>
      liveLoop now ks (k :: seen) (if v.isSome then live ++ [k] else live) next

def delete (keys : List Bytes) (now : ℤ) : Section :=
  gate <| readNow now fun now => liveLoop now keys [] [] fun live =>
    let fs := keys.map fun k (s : Store) => (s.delete k).2
    if live.length = 0 then .done fun log => (log, changes fs (.done (.count 0, 0)))
    else commit (deriveDel live) fs (.count live.length)

/-- The new text under the deadline that was found. -/
def commitIncr (key : Bytes) (n : Int64) (deadline : Option ℤ) : Section :=
  let text := formatInt n.toInt
  let expiry := deadline.getD zeroTime
  commit (deriveSet key text expiry deadline.isSome)
    [fun s => s.set key text expiry deadline.isSome] (.int n)

/-- The overflow check; then the deadline is looked up if the key is live. -/
def incrFrom (key : Bytes) (current delta : Int64) (live : Bool) : Section :=
  if (0 < delta ∧ Int64.maxValue - delta < current) ∨
      (delta < 0 ∧ current < Int64.minValue - delta) then answer (.failed .incrOverflow, 0)
  else if live then lookStore (·.expiresAt key) fun deadline =>
    commitIncr key (current + delta) deadline
  else commitIncr key (current + delta) none

def incrBy (key : Bytes) (delta : Int64) (now : ℤ) : Section :=
  gate <| readNow now fun now => lookStore (·.get key now) fun
    | none => incrFrom key 0 delta false
    | some value =>
      match Engine.parseStoredInt value with
      | none => answer (.failed .notAnInteger, 0)
      | some n => incrFrom key n delta true

def sweepOne (now : ℤ) (k : Bytes) (m : Memory) : Memory :=
  match m.store.expires.lookup k with
  | none => m
  | some deadline => if now < deadline then m else { m with store := (m.store.delete k).2 }

/-- The sweep's loop; the worker has no use for its counts. -/
def sweepLoop (now : ℤ) (limit : ℕ) : List Bytes → ℕ → Changing Memory Ticket
  | [], _ => .done (.done, 0)
  | k :: ks, examined =>
    if examined = limit then .done (.done, 0)
    else .change (sweepOne now k) fun m =>
      if (m.store.expires.lookup k).isSome then sweepLoop now limit ks (examined + 1)
      else sweepLoop now limit ks examined

def sweep (now : ℤ) (order : List Bytes) : Section :=
  .done fun log => (log, sweepLoop now Engine.expirationSample order 0)

def beginDrain : Section :=
  .done fun log =>
    (log, .change (fun m => { m with acceptingMutations := false }) fun _ => .done (.done, 0))

def ofOp (now : ℤ) : Op → Section
  | .get key => get key now
  | .mget keys => readNow now fun now => mgetLoop now keys []
  | .existing keys => readNow now fun now => existingLoop now keys 0
  | .set key value ttl => set key value ttl now
  | .ttl key => ttl key now
  | .expire key d => expire key d now
  | .persist key => persist key now
  | .delete keys => delete keys now
  | .incrBy key delta => incrBy key delta now
  | .keys pattern order => keys pattern order now
  | .dbSize => dbSize now

def ofCall (x : Met) : EngineCall → Section
  | .op op => ofOp x.now (op.meeting x.order)
  | .sweep => sweep x.now x.order
  | .beginDrain => beginDrain

/-! ## What a section does when nothing interferes -/

def perform (sec : Section) (m : Memory) (log : Option Sys) : Ticket × Engine :=
  let (log, rest) := sec.run m log
  let (t, m) := rest.run m
  (t, m.engine log)

variable (m : Memory) (log : Option Sys)

@[simp] theorem perform_answer (t : Ticket) : (answer t).perform m log = (t, m.engine log) := rfl

@[simp] theorem perform_lookStore {α : Type} (f : Store → α) (next : α → Section) :
    (lookStore f next).perform m log = (next (f (m.engine log).store)).perform m log := rfl

@[simp] theorem perform_readNow (now : ℤ) (next : ℤ → Section) :
    (readNow now next).perform m log = (next ((m.engine log).readNow now)).perform m log := rfl

theorem perform_gate (next : Section) :
    (gate next).perform m log =
      if (m.engine log).acceptingMutations then next.perform m log
      else ((.failed .draining, 0), m.engine log) := by
  unfold gate
  cases ha : m.acceptingMutations <;>
    simp [perform, Looking.run, ha, answer, Changing.run]

theorem run_changes (fs : List (Store → Store)) (next : Changing Memory Ticket) :
    (changes fs next).run m =
      next.run { m with store := fs.foldl (fun s f => f s) m.store } := by
  induction fs generalizing m with
  | nil => rfl
  | cons f fs ih => exact ih { m with store := f m.store }

theorem perform_commit (rec : Record) (fs : List (Store → Store)) (reply : Reply) :
    (commit rec fs reply).perform m log =
      let (res, e) := (m.engine log).commitRecord rec fun s => fs.foldl (fun s f => f s) s
      (reply.ticket res, e) := by
  cases log with
  | none =>
    simp only [perform, commit, Looking.run, run_changes, Changing.run, Engine.commitRecord,
      Memory.engine]
    rfl
  | some l =>
    simp only [perform, commit, Looking.run, Engine.commitRecord, Memory.engine, Engine.commit]
    rcases hres : l.append rec with ⟨err | seq, l'⟩
    · rfl
    · simp only [run_changes, Changing.run]
      rfl

private theorem perform_mgetLoop (now : ℤ) (ks : List Bytes) (out : List (Option Bytes)) :
    (mgetLoop now ks out).perform m log =
      ((.values (out ++ ks.map fun k => (m.engine log).store.get k now), 0), m.engine log) := by
  induction ks generalizing out with
  | nil => simp [mgetLoop]
  | cons k ks ih => simp [mgetLoop, ih]

private theorem perform_existingLoop (now : ℤ) (ks : List Bytes) (n : ℕ) :
    (existingLoop now ks n).perform m log =
      ((.count (n + ks.countP fun k => ((m.engine log).store.get k now).isSome), 0),
        m.engine log) := by
  induction ks generalizing n with
  | nil => simp [existingLoop]
  | cons k ks ih =>
    simp only [existingLoop, perform_lookStore, ih, List.countP_cons]
    split_ifs
    · rw [Nat.add_assoc, Nat.add_comm 1]
    · rfl

private theorem perform_liveLoop (now : ℤ) (ks seen live : List Bytes)
    (next : List Bytes → Section) :
    (liveLoop now ks seen live next).perform m log =
      (next (live ++ Engine.liveDistinct (m.engine log).store now ks seen)).perform m log := by
  induction ks generalizing seen live with
  | nil => simp [liveLoop, Engine.liveDistinct]
  | cons k ks ih =>
    unfold liveLoop Engine.liveDistinct
    split_ifs with hseen hlive
    · exact ih seen live
    · rw [perform_lookStore, ih, if_pos hlive, List.append_assoc, List.singleton_append]
    · rw [perform_lookStore, ih, if_neg hlive]

theorem foldl_deletes (keys : List Bytes) (s : Store) :
    (keys.map fun k (s : Store) => (s.delete k).2).foldl (fun s f => f s) s =
      keys.foldl (fun s k => (s.delete k).2) s := by
  rw [List.foldl_map]

private theorem perform_set (key value : Bytes) (t : TTL) (now : ℤ) :
    (set key value t now).perform m log = (m.engine log).ticket now (.set key value t) := by
  rw [set, perform_gate]
  simp only [Engine.ticket, Engine.set]
  by_cases ha : (m.engine log).acceptingMutations = true
  · simp only [if_pos ha, perform_commit]
    rfl
  · simp only [if_neg ha]
    rfl

private theorem perform_expire (key : Bytes) (d : Duration) (now : ℤ) :
    (expire key d now).perform m log = (m.engine log).ticket now (.expire key d) := by
  rw [expire, perform_gate]
  simp only [Engine.ticket, Engine.expire, perform_lookStore]
  by_cases ha : (m.engine log).acceptingMutations = true
  · simp only [if_pos ha]
    cases (m.engine log).store.get key now with
    | none => rfl
    | some value =>
      simp only [perform_commit, Reply.ticket_map Reply.flag]
      rfl
  · simp only [if_neg ha]
    rfl

private theorem perform_persist (key : Bytes) (now : ℤ) :
    (persist key now).perform m log = (m.engine log).ticket now (.persist key) := by
  rw [persist, perform_gate]
  simp only [Engine.ticket, Engine.persist, perform_lookStore]
  by_cases ha : (m.engine log).acceptingMutations = true
  · simp only [if_pos ha]
    cases (m.engine log).store.get key now with
    | none => rfl
    | some value =>
      simp only [perform_lookStore]
      obtain ⟨d, st⟩ := (m.engine log).store.ttl key now
      cases st with
      | hasTTL =>
        simp only [ne_eq, not_true, if_false, perform_commit,
          Reply.ticket_map Reply.flag]
        rfl
      | _ => rfl
  · simp only [if_neg ha]
    rfl

private theorem perform_delete (keys : List Bytes) (now : ℤ) :
    (delete keys now).perform m log = (m.engine log).ticket now (.delete keys) := by
  rw [delete, perform_gate]
  simp only [Engine.ticket, Engine.delete, perform_readNow, perform_liveLoop, List.nil_append]
  by_cases ha : (m.engine log).acceptingMutations = true
  · simp only [if_pos ha]
    generalize Engine.liveDistinct (m.engine log).store _ keys [] = live
    by_cases hlive : live.length = 0
    · simp only [if_pos hlive, perform, Looking.run, run_changes, foldl_deletes, Changing.run]
      rfl
    · simp only [if_neg hlive, perform_commit, foldl_deletes,
        Reply.ticket_map Reply.count]
      rfl
  · simp only [if_neg ha]
    rfl

theorem perform_commitIncr (key : Bytes) (n : Int64) (deadline : Option ℤ) :
    (commitIncr key n deadline).perform m log =
      let text := formatInt n.toInt
      let expiry := deadline.getD zeroTime
      let (res, e) := (m.engine log).commitSet key text expiry deadline.isSome
        fun s => s.set key text expiry deadline.isSome
      ((.of (fun a => .int a.1) (res.map fun seq => (n, seq)),
        Reply.sequence (res.map fun seq => (n, seq))), e) := by
  rw [commitIncr, perform_commit]
  simp only [Reply.ticket_map Reply.int]
  rfl

theorem perform_incrFrom (key : Bytes) (n delta : Int64) (live : Bool) :
    (incrFrom key n delta live).perform m log =
      let (res, e) := (m.engine log).incrFrom key n delta
        (if live then (m.engine log).store.expiresAt key else none)
      ((.of (fun a => .int a.1) res, Reply.sequence res), e) := by
  unfold incrFrom Engine.incrFrom
  by_cases hover : (0 < delta ∧ Int64.maxValue - delta < n) ∨
      (delta < 0 ∧ n < Int64.minValue - delta)
  · simp only [if_pos hover]
    rfl
  · simp only [if_neg hover]
    cases live with
    | true => exact perform_commitIncr m log key _ _
    | false => exact perform_commitIncr m log key _ none

private theorem perform_incrBy (key : Bytes) (delta : Int64) (now : ℤ) :
    (incrBy key delta now).perform m log = (m.engine log).ticket now (.incrBy key delta) := by
  rw [incrBy, perform_gate]
  simp only [Engine.ticket, Engine.incrBy, perform_readNow, perform_lookStore]
  by_cases ha : (m.engine log).acceptingMutations = true
  · simp only [if_pos ha]
    cases (m.engine log).store.get key _ with
    | none => exact perform_incrFrom m log key 0 delta false
    | some value =>
      dsimp only
      cases Engine.parseStoredInt value with
      | none => rfl
      | some n => exact perform_incrFrom m log key n delta true
  · simp only [if_neg ha]
    rfl

private theorem perform_ttl (key : Bytes) (now : ℤ) :
    (ttl key now).perform m log = (m.engine log).ticket now (.ttl key) := by
  rw [ttl, perform_readNow, perform_lookStore]
  simp only [Engine.ticket, Engine.exec, Engine.ttl]
  obtain ⟨d, st⟩ := (m.engine log).store.ttl key _
  cases st <;> rfl

private theorem perform_ofOp (now : ℤ) (op : Op) :
    (ofOp now op).perform m log = (m.engine log).ticket now op := by
  cases op with
  | mget keys => exact perform_mgetLoop m log _ keys []
  | existing keys =>
    refine (perform_existingLoop m log _ keys 0).trans ?_
    rw [Nat.zero_add]
    rfl
  | set key value t => exact perform_set m log key value t now
  | ttl key => exact perform_ttl m log key now
  | expire key d => exact perform_expire m log key d now
  | persist key => exact perform_persist m log key now
  | delete keys => exact perform_delete m log keys now
  | incrBy key delta => exact perform_incrBy m log key delta now
  | _ => rfl

private theorem run_sweepLoop (now : ℤ) (limit : ℕ) (ks : List Bytes) (removed examined : ℕ) :
    (sweepLoop now limit ks examined).run m =
      ((.done, 0), { m with
        store := (Store.reclaimLoop now limit ks m.store removed examined).2 }) := by
  induction ks generalizing m removed examined with
  | nil => rfl
  | cons k ks ih =>
    unfold sweepLoop Store.reclaimLoop
    split_ifs with hlimit
    · rfl
    · simp only [Changing.run, sweepOne]
      cases hk : m.store.expires.lookup k with
      | none => exact ih m removed examined
      | some deadline =>
        simp only [Option.isSome_some, if_true]
        split_ifs with hlt
        · exact ih m removed (examined + 1)
        · exact ih _ (removed + 1) (examined + 1)

theorem perform_ofCall (x : Met) (k : EngineCall) :
    (ofCall x k).perform m log = (m.engine log).call x k := by
  cases k with
  | op op => exact perform_ofOp m log x.now _
  | sweep =>
    simp only [ofCall, sweep, perform, Looking.run, run_sweepLoop m x.now _ x.order 0 0]
    rfl
  | beginDrain => rfl

/-! ## Reads -/

/-- A section that looks and answers. -/
def Silent (sec : Section) : Prop := ∀ m, ∃ r, ∀ log, sec.run m log = (log, .done r)

theorem silent_answer (t : Ticket) : Silent (answer t) := fun _ => ⟨t, fun _ => rfl⟩

theorem silent_lookStore {α : Type} {f : Store → α} {next : α → Section}
    (h : ∀ a, Silent (next a)) : Silent (lookStore f next) := fun m => h (f m.store) m

theorem silent_readNow (now : ℤ) {next : ℤ → Section} (h : ∀ now, Silent (next now)) :
    Silent (readNow now next) :=
  silent_lookStore fun _ => h _

private theorem silent_mgetLoop (now : ℤ) (ks : List Bytes) (out : List (Option Bytes)) :
    Silent (mgetLoop now ks out) := by
  induction ks generalizing out with
  | nil => exact silent_answer _
  | cons k ks ih => exact silent_lookStore fun v => ih _

private theorem silent_existingLoop (now : ℤ) (ks : List Bytes) (n : ℕ) :
    Silent (existingLoop now ks n) := by
  induction ks generalizing n with
  | nil => exact silent_answer _
  | cons k ks ih => exact silent_lookStore fun v => ih _

private theorem silent_ttl (key : Bytes) (now : ℤ) : Silent (ttl key now) := by
  refine silent_readNow now fun now => silent_lookStore fun a => ?_
  obtain ⟨d, st⟩ := a
  cases st <;> exact silent_answer _

theorem silent_read {α : Type} (now : ℤ) (f : ℤ → Store → α) (t : α → Ticket) :
    Silent (readNow now fun now => lookStore (f now) fun a => answer (t a)) :=
  silent_readNow now fun _ => silent_lookStore fun _ => silent_answer _

/-- The operations under the read lock leave the store and the log alone. -/
theorem silent_ofOp {op : Op} (h : op.mutates = false) (now : ℤ) : Silent (ofOp now op) := by
  cases op with
  | get key => exact silent_read now (fun now s => s.get key now) _
  | mget keys => exact silent_readNow now fun now => silent_mgetLoop now keys []
  | existing keys => exact silent_readNow now fun now => silent_existingLoop now keys 0
  | ttl key => exact silent_ttl key now
  | keys pattern order => exact silent_read now (fun now s => s.liveKeys now order) _
  | dbSize => exact silent_read now (fun now s => s.len now) _
  | _ => cases h

end Section

theorem Op.mutates_meeting (order : List Bytes) (op : Op) :
    (op.meeting order).mutates = op.mutates := by
  cases op <;> rfl

/-- The engine behind its lock. -/
def Engine.locked : LockedObject Memory (Option Sys) ℤ Met EngineCall Ticket Aof.Event where
  exclusive := EngineCall.exclusive
  time := Met.now
  fits k x m := k.fits x m.store
  body k x := Section.ofCall x k
  shared k x m h := by
    cases k with
    | op o => exact Section.silent_ofOp ((o.mutates_meeting x.order).trans h) x.now m
    | _ => cases h
  env := logStep

theorem Engine.run_locked (k : EngineCall) (x : Met) (m : Memory) (log : Option Sys) :
    let out := Engine.locked.atomic.run k x (m, log)
    out.1 = ((m.engine log).call x k).1 ∧ out.2.1.engine out.2.2 = ((m.engine log).call x k).2 := by
  rw [← Section.perform_ofCall]
  exact ⟨rfl, rfl⟩

end GoKv
