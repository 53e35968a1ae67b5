import GoKv.Command.Answer
import GoKv.Command.Names

/-! Error replies. A command that is answered with an error changed nothing, unless its change was
made and could not be made durable; and no error reply grows with what the client sent. -/
namespace GoKv
open GoLib GoKv.Aof

namespace Command

/-! ## Texts -/

/-- An error text: marked as one, and no longer than an unknown command's with its name cut. -/
structure ErrorText (msg : Bytes) : Prop where
  marked : text "ERR " <+: msg
  short : msg.length ≤ 153

def Reply.isError : Reply → Bool
  | .error _ => true
  | _ => false

def Reply.Texted (r : Reply) : Prop := ∀ msg, r = .error msg → ErrorText msg

private theorem texted_of_not_isError {r : Reply} (h : r.isError = false) : r.Texted := by
  rintro msg rfl
  cases h

theorem texted_error {msg : Bytes} (h : ErrorText msg) : (Reply.error msg).Texted := by
  rintro _ ⟨⟩
  exact h

theorem texted_notAnInteger : (Reply.error errNotAnInteger).Texted :=
  texted_error ⟨by decide, by decide⟩

theorem texted_syntax : (Reply.error errSyntax).Texted := texted_error ⟨by decide, by decide⟩

theorem texted_mutationError (err : EngineErr) : (mutationError err).Texted := by
  cases err <;> exact texted_error ⟨by decide, by decide⟩

private theorem texted_scanError (err : ScanErr) : (scanError err).Texted := by
  cases err <;> exact texted_error ⟨by decide, by decide⟩

/-- However long the name is, its echo is not. -/
theorem texted_unknown (first : Bytes) :
    (Reply.error (text "ERR unknown command '" ++ echoName first ++ text "'")).Texted := by
  refine texted_error ⟨?_, ?_⟩
  · rw [List.append_assoc]
    exact (by decide : text "ERR " <+: text "ERR unknown command '").trans (List.prefix_append _ _)
  · have hecho : (echoName first).length ≤ 131 := by
      unfold echoName
      split_ifs with hlong
      · rw [List.length_append, List.length_take]
        have hdots : (text "...").length = 3 := by decide
        rw [hdots]
        exact Nat.add_le_add_right (Nat.min_le_left _ _) 3
      · exact (not_lt.mp hlong).trans (by decide)
    have hopen : (text "ERR unknown command '").length = 21 := by decide
    have hclose : (text "'").length = 1 := by decide
    rw [List.length_append, List.length_append, hopen, hclose]
    omega

/-- The name in an arity error is one of the table's. -/
theorem texted_arity {name : Bytes} {sp : Spec} (h : cmds.lookup name = some sp) :
    (Reply.error (text "ERR wrong number of arguments for '" ++ asciiLower name ++
      text "' command")).Texted := by
  refine texted_error ⟨?_, ?_⟩
  · rw [List.append_assoc]
    exact (by decide : text "ERR " <+: text "ERR wrong number of arguments for '").trans
      (List.prefix_append _ _)
  · have hname : name.length ≤ 7 :=
      (by decide : ∀ p ∈ cmds, p.1.length ≤ 7) _ (mem_cmds_of_lookup h)
    have hopen : (text "ERR wrong number of arguments for '").length = 35 := by decide
    have hclose : (text "' command").length = 9 := by decide
    rw [List.length_append, List.length_append, hopen, hclose, asciiLower, List.length_map]
    omega

variable (mapUpper : Bytes → Bytes)

private theorem texted_setOptions (opts : List Bytes) (t : TTL) (unit : Option Bytes) {bad : Reply}
    (h : setOptions mapUpper opts t unit = .error bad) : bad.Texted := by
  fun_induction setOptions mapUpper opts t unit
  case case1 => cases h
  case case2 => cases h; exact texted_syntax
  case case3 => cases h; exact texted_syntax
  case case4 => cases h; exact texted_notAnInteger
  case case5 => cases h; exact texted_error ⟨by decide, by decide⟩
  case case6 => cases h; exact texted_error ⟨by decide, by decide⟩
  case case7 ih => exact ih h
  case case8 => cases h; exact texted_syntax

private theorem texted_scanOptions (opts : List Bytes) (req : ScanRequest) {bad : Reply}
    (h : scanOptions mapUpper opts req = .error bad) : bad.Texted := by
  fun_induction scanOptions mapUpper opts req
  case case1 => cases h
  case case2 => cases h; exact texted_syntax
  case case3 ih => exact ih h
  case case4 => cases h; exact texted_syntax
  case case5 => cases h; exact texted_notAnInteger
  case case6 => cases h; exact texted_syntax
  case case7 ih => exact ih h
  case case8 => cases h; exact texted_syntax

private theorem texted_parseScan (args : List Bytes) {bad : Reply}
    (h : parseScan mapUpper args = .error bad) : bad.Texted := by
  unfold parseScan at h
  dsimp only at h
  split at h
  · cases h
    exact texted_error ⟨by decide, by decide⟩
  · exact texted_scanOptions mapUpper _ _ h

private theorem texted_resolve (args : List Bytes) {bad : Reply}
    (h : resolve mapUpper args = .error bad) :
    bad.Texted := by
  cases args with
  | nil =>
    cases h
    exact texted_error ⟨by decide, by decide⟩
  | cons first rest =>
    simp only [resolve] at h
    cases hl : cmds.lookup (toUpper mapUpper first) with
    | none =>
      simp only [hl] at h
      cases h
      exact texted_unknown first
    | some sp =>
      simp only [hl, Spec.checkArity] at h
      split_ifs at h
      cases h
      exact texted_arity hl

/-! ## The engine behind an error reply -/

def errPersistence : Bytes := text "ERR persistence unavailable"

/-- A command's reply and engine, beside those of the same command with a durability wait that
succeeds. An error leaves the engine as it was, unless that wait is all that failed. -/
structure Excused (e : Engine) (out retry : Reply × Engine) : Prop where
  texted : out.1.Texted
  engine : out.1.isError = true → out.2 = e ∨
    out.1 = .error errPersistence ∧ retry.1.isError = false ∧ retry.2 = out.2

variable {e : Engine}

theorem excused_unchanged {r : Reply} (h : r.Texted) (retry : Reply × Engine) :
    Excused e (r, e) retry :=
  ⟨h, fun _ => .inl rfl⟩

theorem excused_fine {r : Reply} (h : r.isError = false) (e' : Engine) (retry : Reply × Engine) :
    Excused e (r, e') retry :=
  ⟨texted_of_not_isError h, fun he => by rw [h] at he; cases he⟩

/-- A mutation that is refused changes nothing; one that is applied fails only by its wait. -/
theorem excused_await {α : Type*} (reply : Except EngineErr α → Reply)
    (hok : ∀ a, (reply (.ok a)).isError = false) (herr : ∀ err, (reply (.error err)).Texted)
    (hpers : ∀ err, reply (.error (.persistenceUnavailable err)) = .error errPersistence)
    {r : Except EngineErr (α × ℕ) × Engine} (hr : e.Commits r) (wait : Except AofErr Unit) :
    Excused e (reply (r.2.await wait r.1), r.2) (reply (r.2.await (.ok ()) r.1), r.2) := by
  obtain ⟨res, e'⟩ := r
  rcases res with err | ⟨a, seq⟩
  · obtain rfl : e' = e := hr.refused err rfl
    exact excused_unchanged (herr err) _
  · simp only [Engine.await]
    split_ifs
    · exact excused_fine (hok a) _ _
    · cases wait with
      | ok u => exact excused_fine (hok a) _ _
      | error err => exact ⟨herr _, fun _ => .inr ⟨hpers err, hok a, rfl⟩⟩

theorem excused_mutation {α : Type*} {f : α → Reply} (hf : ∀ a, (f a).isError = false)
    {r : Except EngineErr (α × ℕ) × Engine} (hr : e.Commits r) (wait : Except AofErr Unit) :
    Excused e (mutationReply f (r.2.await wait r.1), r.2)
      (mutationReply f (r.2.await (.ok ()) r.1), r.2) :=
  excused_await (mutationReply f) hf texted_mutationError (fun _ => rfl) hr wait

private theorem texted_incrReply (err : EngineErr) : (incrReply (.error err)).Texted := by
  cases err with
  | notAnInteger => exact texted_notAnInteger
  | incrOverflow => exact texted_error ⟨by decide, by decide⟩
  | draining => exact texted_mutationError .draining
  | persistenceUnavailable err => exact texted_mutationError (.persistenceUnavailable err)
  | log err => exact texted_mutationError (.log err)

theorem excused_incrBy (delta : Int64) (env : Env) (args : List Bytes) :
    Excused e (incrBy delta env e args) (incrBy delta { env with wait := .ok () } e args) :=
  excused_await incrReply (fun _ => rfl) texted_incrReply (fun _ => rfl)
    (Engine.commits_incrBy _ _ _) env.wait

theorem isError_boolInt (b : Bool) : (boolInt b).isError = false := by
  cases b <;> rfl

theorem excused_run (c : Cmd) (env : Env) (args : List Bytes) :
    Excused e (c.run mapUpper env e args) (c.run mapUpper { env with wait := .ok () } e args) := by
  cases c with
  | ping =>
    simp only [Cmd.run, cmdPing]
    split_ifs
    · exact excused_fine rfl _ _
    · exact excused_fine rfl _ _
  | set =>
    simp only [Cmd.run, cmdSet]
    cases hp : parseSetOptions mapUpper (args.drop 3) with
    | error bad => exact excused_unchanged (texted_setOptions mapUpper _ _ _ hp) _
    | ok t =>
      exact excused_mutation (fun _ => rfl) (Engine.commits_set _ _ _ _) env.wait
  | get =>
    simp only [Cmd.run, cmdGet]
    cases e.get (arg args 1) env.now <;> exact excused_fine rfl _ _
  | expire =>
    simp only [Cmd.run, cmdExpire]
    cases parseInt64 (arg args 2) with
    | none => exact excused_unchanged texted_notAnInteger _
    | some n =>
      dsimp only
      split_ifs
      · exact excused_mutation (fun _ => rfl) (Engine.commits_delete _ _) env.wait
      · exact excused_unchanged (texted_error ⟨by decide, by decide⟩) _
      · exact excused_mutation isError_boolInt (Engine.commits_expire _ _ _) env.wait
  | ttl =>
    simp only [Cmd.run, cmdTTL]
    obtain ⟨d, st⟩ := e.ttl (arg args 1) env.now
    cases st <;> exact excused_fine rfl _ _
  | del => exact excused_mutation (fun _ => rfl) (Engine.commits_delete _ _) env.wait
  | persist => exact excused_mutation isError_boolInt (Engine.commits_persist _ _) env.wait
  | incr => exact excused_incrBy 1 env args
  | decr => exact excused_incrBy (-1) env args
  | scan =>
    simp only [Cmd.run, cmdScan]
    cases hp : parseScan mapUpper args with
    | error bad => exact excused_unchanged (texted_parseScan mapUpper args hp) _
    | ok req =>
      dsimp only
      cases env.scan req with
      | error err => exact excused_unchanged (texted_scanError err) _
      | ok page => exact excused_fine rfl _ _
  | _ => exact excused_fine rfl _ _

/-- An error reply is marked as one and bounded whatever the client sent, and the engine behind it
is the one before the command. The one exception is a change that could not be made durable: it is
the change the same command makes when it succeeds. -/
theorem error_reply (env : Env) (e : Engine) (args : List Bytes) {msg : Bytes}
    (h : (dispatch mapUpper env e args).1 = .error msg) :
    text "ERR " <+: msg ∧ msg.length ≤ 153 ∧
      ((dispatch mapUpper env e args).2 = e ∨
        msg = text "ERR persistence unavailable" ∧
          (dispatch mapUpper { env with wait := .ok () } e args).1.isError = false ∧
          (dispatch mapUpper { env with wait := .ok () } e args).2 =
            (dispatch mapUpper env e args).2) := by
  have hex : Excused e (dispatch mapUpper env e args)
      (dispatch mapUpper { env with wait := .ok () } e args) := by
    unfold dispatch
    cases hr : resolve mapUpper args with
    | error bad => exact excused_unchanged (texted_resolve mapUpper args hr) _
    | ok c => exact excused_run mapUpper c env args
  obtain ⟨hmarked, hshort⟩ := hex.texted msg h
  refine ⟨hmarked, hshort, ?_⟩
  have hengine := hex.engine (by rw [h]; rfl)
  rwa [h, Reply.error.injEq] at hengine

def unsynced : Env := ⟨0, [], .error .closed, fun _ => .error .other⟩

/-- The wait of a SET fails: the reply is an error, and the value is there. -/
theorem error_reply_unsynced :
    ∃ msg, (dispatch id unsynced { Engine.new with log := some (.init .always 0) }
        [text "SET", text "k", text "v"]).1 = .error msg ∧
      msg.length ≤ 153 ∧
      (dispatch id unsynced { Engine.new with log := some (.init .always 0) }
        [text "SET", text "k", text "v"]).2.get (text "k") 0 = some (text "v") := by
  have herr : (dispatch id unsynced { Engine.new with log := some (.init .always 0) }
      [text "SET", text "k", text "v"]).1 = .error (text "ERR persistence unavailable") := rfl
  exact ⟨_, herr, (error_reply id unsynced _ _ herr).2.1, rfl⟩

end Command

end GoKv
