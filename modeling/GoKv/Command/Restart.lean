import GoKv.Aof.Readback
import GoKv.Command.Operation
import GoKv.Engine.Effects

/-! Whether the next start can read the log back. The records of a run's commands are accepted by
Replay exactly when each of them is within the default limits; a command accepted under those same
limits can have a larger record than it was itself. -/
namespace GoKv
open GoLib GoKv.Aof GoKv.Resp

/-! ## Sizes -/

/-- The sizes of an operation, on the entries alive when it is made, that keep its record within
the limits of Replay. -/
def Op.SizesFit (f : Bytes → Option Entry) (now : ℤ) : Op → Prop
  | .set key value t =>
    SetFits key value (if t.set then some (unixMilli (timeAdd now t.d)) else none)
  | .expire key d => ∀ en, f key = some en → SetFits key en.1 (some (unixMilli (timeAdd now d)))
  | .persist key => ∀ v d, f key = some (v, some d) → SetFits key v none
  | .incrBy key delta => ∀ n d, incrResult f key delta = .ok (n, d) →
      SetFits key (formatInt n.toInt) (d.map unixMilli)
  | .delete ks => DelFits (Change.present f ks)
  | _ => True

def Engine.Recoverable (e : Engine) (now : ℤ) (op : Op) : Prop :=
  (e.exec now op).1.isFailed = true ∨ op.SizesFit (e.view now) now

theorem deriveSet_fits_iff (key value : Bytes) (d : Option ℤ) :
    (deriveSet key value (d.getD zeroTime) d.isSome).Fits ↔
      SetFits key value (d.map unixMilli) := by
  rw [deriveSet, fits_set_iff]
  cases d <;> rfl

private theorem sizesFit_iff (f : Bytes → Option Entry) (now : ℤ) (op : Op) :
    (∀ r ∈ (op.change f now).records f, r.Fits) ↔ op.SizesFit f now := by
  cases op with
  | set key value t =>
    simp only [Op.change, Op.SizesFit, Change.records, List.forall_mem_singleton,
      deriveSet_fits_iff]
    split_ifs <;> rfl
  | expire key d =>
    simp only [Op.change, Op.SizesFit]
    cases f key with
    | none => simp [Change.records]
    | some en =>
      have := deriveSet_fits_iff key en.1 (some (timeAdd now d))
      simpa [Change.records] using this
  | persist key =>
    simp only [Op.change, Op.SizesFit]
    rcases f key with _ | ⟨v, _ | d⟩
    · simp [Change.records]
    · simp [Change.records]
    · have := deriveSet_fits_iff key v none
      simpa [Change.records] using this
  | incrBy key delta =>
    simp only [Op.change, Op.SizesFit]
    cases incrResult f key delta with
    | error e => simp [Change.records]
    | ok q =>
      obtain ⟨n, d⟩ := q
      simp [Change.records, deriveSet_fits_iff]
  | delete keys =>
    simp only [Op.change, Op.SizesFit, Change.records]
    split_ifs with hnil
    · rw [hnil]
      simp [DelFits, verbDel, defaultLimits, ascii]
    · simp only [List.forall_mem_singleton, deriveDel, fits_del_iff]
  | _ => simp [Op.change, Op.SizesFit, Change.records]

theorem Engine.effects_fit_iff (e : Engine) (now : ℤ) (op : Op) :
    (∀ r ∈ e.effects now op (e.exec now op).1, r.Fits) ↔ e.Recoverable now op := by
  unfold Engine.effects Engine.Recoverable
  split_ifs with hfailed
  · simp [hfailed]
  · rw [sizesFit_iff]
    simp [hfailed]

theorem Change.writable_of_mem_records {f : Bytes → Option Entry} {c : Change} {r : Record}
    (h : r ∈ c.records f) : r.Writable := by
  cases c with
  | keep => cases h
  | put key value d =>
    obtain rfl := List.mem_singleton.mp h
    exact deriveSet_writable _ _ _ _
  | remove keys =>
    simp only [Change.records] at h
    split_ifs at h with hnil
    · cases h
    · obtain rfl := List.mem_singleton.mp h
      simpa [Record.Writable, deriveDel] using hnil

theorem Engine.writable_of_mem_effects {e : Engine} {now : ℤ} {op : Op} {reply : Reply} {r : Record}
    (h : r ∈ e.effects now op reply) : r.Writable := by
  unfold Engine.effects at h
  split_ifs at h
  · cases h
  · exact Change.writable_of_mem_records h

/-! ## The connections and the engine -/

/-- The reader of each connection, in front of the engine, and the replies so far. -/
structure Frontend where
  session : Session
  readers : ℕ → Reader Chunks
  replies : List Command.Reply

/-- Connection `c` reads its next command and dispatches it, or the expiration worker or the log
takes a step. -/
inductive Request where
  | command (c : ℕ) (env : Command.Env)
  | background (call : Call)

namespace Frontend

variable (mapUpper : Bytes → Bytes)

/-- The clients' bytes may arrive in any pieces. -/
def start (engine : Engine) (clock : ℤ) (limits : Limits) (clients : ℕ → Chunks) : Frontend where
  session := .start engine clock
  readers c := .new (clients c) limits
  replies := []

def step (s : Frontend) : Request → Option Frontend
  | .command c env =>
    if s.session.clock ≤ env.now ∧ env.order.Perm s.session.engine.store.data.keys then
      match (s.readers c).readCommand Chunks.reader with
      | (.error _, _) => none
      | (.ok args, r) =>
        let (reply, e) := Command.dispatch mapUpper env s.session.engine args
        some
          { session := { s.session with engine := e, clock := env.now }
            readers := Function.update s.readers c r
            replies := s.replies ++ [reply] }
    else none
  | .background (.op _ _) => none
  | .background call => (s.session.step call).map fun t => { s with session := t }

/-- A command's record, if it has one, is within the limits of Replay. -/
def Recoverable (s : Frontend) : Request → Prop
  | .command c env => ∀ args r op, (s.readers c).readCommand Chunks.reader = (.ok args, r) →
      Command.operation mapUpper env.order args = some op →
      s.session.engine.Recoverable env.now op
  | .background _ => True

/-- The log took records that can be written, and all of them fit exactly when `P` holds. -/
def Took (P : Prop) (l : Sys) (log : Option Sys) : Prop :=
  ∃ l' rs, log = some l' ∧ l'.journal = l.journal ++ rs ∧ (∀ r ∈ rs, r.Writable) ∧
    ((∀ r ∈ rs, r.Fits) ↔ P)

theorem took_nothing {P : Prop} {l l' : Sys} {log : Option Sys} (hl : log = some l')
    (hj : l'.journal = l.journal) (hP : P) : Took P l log :=
  ⟨l', [], hl, by rw [hj, List.append_nil], nofun, by simpa using hP⟩

private theorem took_command {s : Frontend} {c : ℕ} {env : Command.Env} {args : List Bytes}
    {r : Reader Chunks} (hr : (s.readers c).readCommand Chunks.reader = (.ok args, r)) {l : Sys}
    (hl : s.session.engine.log = some l) :
    Took (s.Recoverable mapUpper (.command c env)) l
      (Command.dispatch mapUpper env s.session.engine args).2.log := by
  rw [Command.dispatch_engine]
  cases hop : Command.operation mapUpper env.order args with
  | none =>
    refine took_nothing hl rfl fun args' r' op hr' hop' => ?_
    rw [hr] at hr'
    cases hr'
    rw [hop] at hop'
    cases hop'
  | some op =>
    obtain ⟨l', hl', hj⟩ := Engine.journal_exec hl env.now op
    refine ⟨l', _, hl', hj, fun r => Engine.writable_of_mem_effects, ?_⟩
    rw [Engine.effects_fit_iff]
    constructor
    · intro h args' r' op' hr' hop'
      rw [hr] at hr'
      cases hr'
      rw [hop] at hop'
      cases hop'
      exact h
    · exact fun h => h args r op hr hop

theorem took_step {s t : Frontend} {e : Request} (hstep : s.step mapUpper e = some t) {l : Sys}
    (hl : s.session.engine.log = some l) :
    Took (s.Recoverable mapUpper e) l t.session.engine.log := by
  cases e with
  | command c env =>
    simp only [step] at hstep
    split_ifs at hstep
    rcases hr : (s.readers c).readCommand Chunks.reader with ⟨_ | args, r⟩
    · simp [hr] at hstep
    · simp only [hr] at hstep
      cases hstep
      exact took_command mapUpper hr hl
  | background call =>
    cases call with
    | op now op => cases hstep
    | sweep now order =>
      obtain ⟨u, hu, rfl⟩ := Option.map_eq_some_iff.mp hstep
      simp only [Session.step] at hu
      split_ifs at hu
      cases hu
      exact took_nothing hl rfl trivial
    | log ev =>
      obtain ⟨u, hu, rfl⟩ := Option.map_eq_some_iff.mp hstep
      obtain ⟨l₀, l', hl₀, hne, hl', rfl⟩ := Session.log_step hu
      obtain rfl : l₀ = l := Option.some.inj (hl₀.symm.trans hl)
      exact took_nothing rfl (Sys.journal_of_step hl' hne) trivial

def Logging (s : Frontend) : Prop :=
  ∃ l, s.session.engine.log = some l ∧ ∀ r ∈ l.journal, r.Writable

def Fits (s : Frontend) : Prop := ∀ l, s.session.engine.log = some l → ∀ r ∈ l.journal, r.Fits

theorem logging_step {s t : Frontend} {e : Request} (hstep : s.step mapUpper e = some t)
    (h : s.Logging) : t.Logging := by
  obtain ⟨l, hl, hw⟩ := h
  obtain ⟨l', rs, hl', hj, hrs, -⟩ := took_step mapUpper hstep hl
  refine ⟨l', hl', ?_⟩
  rw [hj]
  exact List.forall_mem_append.mpr ⟨hw, hrs⟩

theorem fits_step {s t : Frontend} {e : Request} (hstep : s.step mapUpper e = some t)
    (h : s.Logging) : t.Fits ↔ s.Fits ∧ s.Recoverable mapUpper e := by
  obtain ⟨l, hl, -⟩ := h
  obtain ⟨l', rs, hl', hj, -, hfits⟩ := took_step mapUpper hstep hl
  simp only [Fits, hl, hl', Option.some.injEq, forall_eq', hj, List.forall_mem_append, hfits]

/-- The next start reads the log of a run back exactly when every command of the run kept its
record within the limits of Replay, whatever limits the commands themselves were read under. -/
theorem restart_iff {policy : Policy} {a : FileAnswers} {src : Chunks} {now : ℤ} {o : Opened}
    (ho : openFile policy a src now .new = some o) (hlog : o.log ≠ none) {limits : Limits}
    {clients : ℕ → Chunks} {es : List Request} {s : Frontend}
    (hrun : runSteps (step mapUpper) (start o.engine now limits clients) es = some s) :
    ∃ l, s.session.engine.log = some l ∧
      ∀ file : Chunks, file.rest = o.file ++ encodes l.journal → ∀ t dst,
        ((∃ out, replayChunks file t dst = some out ∧ out.err = none) ↔
          ∀ before e after u, es = before ++ e :: after →
            runSteps (step mapUpper) (start o.engine now limits clients) before = some u →
            u.Recoverable mapUpper e) := by
  obtain ⟨l₀, hl₀⟩ := Option.ne_none_iff_exists'.mp hlog
  obtain ⟨rfl, hdr, recovered, body, hrec, hfile, -⟩ := openFile_log ho hl₀
  have hstart : (start o.engine now limits clients).Logging := ⟨_, hl₀, nofun⟩
  have hempty : (start o.engine now limits clients).Fits := by
    intro l hl
    obtain rfl := Option.some.inj (hl₀.symm.trans hl)
    nofun
  obtain ⟨l, hl, hw⟩ := runSteps_invariant (fun _ _ _ => logging_step mapUpper) hrun hstart
  have hiff := runSteps_iff_forall (fun _ _ _ => logging_step mapUpper)
    (fun _ _ _ => fits_step mapUpper) hrun hstart
  refine ⟨l, hl, fun file hsrc t dst => ?_⟩
  rw [hfile, List.append_assoc] at hsrc
  rw [replay_ok_iff hrec.header hw hrec.records hsrc t dst]
  have hfits : s.Fits ↔ ∀ r ∈ l.journal, r.Fits := by simp [Fits, hl]
  rw [← hfits, hiff, and_iff_right hempty]

/-! ## One command -/

/-- The map is empty, the clock stands at the epoch and every wait succeeds. -/
def calm : Command.Env := ⟨0, [], .ok (), fun _ => .error .other⟩

def single (args : List Bytes) : Frontend :=
  start (newLog .always).engine 0 defaultLimits fun _ => .whole (writeCommand args)

theorem readCommand_single {args : List Bytes} (h : FitsFrame defaultLimits args) (c : ℕ) :
    ∃ r, ((single args).readers c).readCommand Chunks.reader = (.ok args, r) := by
  obtain ⟨r, hres, -⟩ := Reader.readCommand_written Chunks.delivers trivial h (Chunks.rest_whole _)
  exact ⟨r, hres⟩

theorem step_single {args : List Bytes} (h : FitsFrame defaultLimits args) :
    ∃ readers, (single args).step mapUpper (.command 0 calm) = some
      ⟨⟨(Command.dispatch mapUpper calm (newLog .always).engine args).2, 0, []⟩, readers,
        [(Command.dispatch mapUpper calm (newLog .always).engine args).1]⟩ := by
  obtain ⟨r, hr⟩ := readCommand_single h 0
  refine ⟨Function.update (single args).readers 0 r, ?_⟩
  simp only [step, hr]
  rfl

/-- SET k v is read back. -/
theorem restart_iff_small :
    ∃ s l, runSteps (step id) (single [verbSet, [107], [118]]) [.command 0 calm] = some s ∧
      s.session.engine.log = some l ∧
      ∃ out, replayChunks (.whole (encodeHeader ++ encodes l.journal)) 0 .new = some out ∧
        out.err = none := by
  have hfit : FitsFrame defaultLimits [verbSet, [107], [118]] :=
    ⟨by decide, by decide, by decide, by decide, by decide⟩
  obtain ⟨readers, hstep⟩ := step_single id hfit
  have hrun := runSteps_cons_eq_some.mpr ⟨_, hstep, runSteps_nil _⟩
  obtain ⟨l, hl, h⟩ := restart_iff id (openFile_new .always) nofun hrun
  have hiff := h (.whole (encodeHeader ++ encodes l.journal)) (Chunks.rest_whole _) 0 .new
  refine ⟨_, l, hrun, hl, hiff.mpr ?_⟩
  intro before e after u hes hu
  obtain ⟨rfl, rfl, rfl⟩ : before = [] ∧ e = .command 0 calm ∧ after = [] := by
    cases before <;> simp_all
  cases hu
  intro args r op hr hop
  obtain ⟨r', hr'⟩ := readCommand_single hfit 0
  cases hr'.symm.trans hr
  cases hop
  exact Or.inr ⟨by decide, by decide, by decide⟩

/-- SET with an expiry is accepted and acknowledged under the default limits. Its record spells
the expiry out, exceeds the same limits, and the next start refuses the log. -/
theorem restart_refused :
    ∃ key value s l out offset msg,
      runSteps (step id) (single [verbSet, key, value, Command.optEX, [49]]) [.command 0 calm] =
        some s ∧
      s.replies = [.simple (text "OK")] ∧ s.session.engine.log = some l ∧
      replayChunks (.whole (encodeHeader ++ encodes l.journal)) 0 .new = some out ∧
      out.err = some (.corruption offset (.read (protoErr msg))) := by
  obtain ⟨key, hk⟩ : ∃ key : Bytes, key.length = 67108864 :=
    ⟨List.replicate 67108864 0, List.length_replicate⟩
  obtain ⟨value, hv⟩ : ∃ value : Bytes, value.length = 67108856 :=
    ⟨List.replicate 67108856 0, List.length_replicate⟩
  have hfit : FitsFrame defaultLimits [verbSet, key, value, Command.optEX, [49]] := by
    refine ⟨by simp, by simp [defaultLimits], by simp, ?_, fun _ => ?_⟩
    · simp [hk, hv, defaultLimits, verbSet, Command.optEX, ascii]
    · simp [hk, hv, defaultLimits, verbSet, Command.optEX, ascii]
  obtain ⟨readers, hstep⟩ := step_single id hfit
  have hlarge : ¬ ∀ r ∈ [Record.set key value (some 1000)], r.Fits := by
    rw [List.forall_mem_singleton, fits_set_iff]
    rintro ⟨-, -, htotal⟩
    have hexp : expirySize (some 1000) = 8 := by decide
    rw [hk, hv, hexp] at htotal
    exact absurd htotal (by decide)
  have hfile := Chunks.rest_whole (encodeHeader ++ encodes [.set key value (some 1000)])
  obtain ⟨out, offset, msg, hout, herr⟩ := replay_oversize validHeader_encodeHeader
    (fun r hr => by obtain rfl := List.mem_singleton.mp hr; nofun) hlarge .nil hfile 0 .new
  exact ⟨key, value, _, _, out, offset, msg, runSteps_cons_eq_some.mpr ⟨_, hstep, runSteps_nil _⟩,
    rfl, rfl, hout, herr⟩

end Frontend

end GoKv
