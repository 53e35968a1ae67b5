import GoKv.Command.Operation
import GoKv.Engine.Mutation

/-! What Dispatch replies: its operation's result as the client sees it, or, when it performs none,
a reply that does not depend on the engine. -/
namespace GoKv
open GoLib GoKv.Aof

namespace Command

def render : Op → GoKv.Reply → Reply
  | .incrBy _ _, .failed .notAnInteger => .error errNotAnInteger
  | .incrBy _ _, .failed .incrOverflow => .error errIncrOverflow
  | _, .failed err => mutationError err
  | _, .value v => optionalBulk v
  | _, .values vs => .array (vs.map optionalBulk)
  | _, .count n => .int (Int64.ofNat n)
  | _, .done => .simple (text "OK")
  | _, .ttl d st => ttlReply (d, st)
  | _, .flag b => boolInt b
  | _, .int n => .int n
  | _, .keys ks => .array (ks.map .bulk)

/-- All that a command meets when it performs no operation. -/
def Env.idle (scan : ScanRequest → Except ScanErr ScanResult) : Env := ⟨0, [], .ok (), scan⟩

def awaited (wait : Except AofErr Unit) : Ticket → GoKv.Reply
  | (r, seq) =>
    match wait with
    | .ok () => r
    | .error err => if seq = 0 then r else .failed (.persistenceUnavailable err)

theorem of_await {α : Type*} {e : Engine} {r : Except EngineErr (α × ℕ) × Engine}
    (h : e.Commits r) (wait : Except AofErr Unit) (f : α → GoKv.Reply) :
    GoKv.Reply.of f (r.2.await wait r.1) =
      awaited wait (.of (fun a => f a.1) r.1, Reply.sequence r.1) := by
  obtain ⟨res, e'⟩ := r
  rcases res with err | ⟨a, seq⟩
  · cases wait <;> rfl
  · have hzero : (e'.log.isNone = true ∨ seq = 0) ↔ seq = 0 := by
      refine ⟨fun hor => hor.elim (fun hn => ?_) id, Or.inr⟩
      exact h.unlogged (Option.isNone_iff_eq_none.mp hn)
    by_cases hseq : seq = 0
    · simp only [Engine.await, if_pos (hzero.mpr hseq)]
      subst hseq
      cases wait <;> rfl
    · simp only [Engine.await, if_neg (mt hzero.mp hseq)]
      cases wait with
      | ok u => rfl
      | error err => exact (if_neg hseq).symm

theorem render_meeting (order : List Bytes) (op : Op) (r : GoKv.Reply) :
    render (op.meeting order) r = render op r := by
  cases op with
  | keys => cases r <;> rfl
  | _ => rfl

variable (mapUpper : Bytes → Bytes) (env : Env) (e : Engine) (args : List Bytes)

theorem mutationReply_eq {α : Type*} {r : Except EngineErr (α × ℕ) × Engine} (h : e.Commits r)
    (wait : Except AofErr Unit) (op : Op) {g : α → Reply} {f : α → GoKv.Reply}
    (hok : ∀ a, g a = render op (f a)) (herr : ∀ err, render op (.failed err) = mutationError err) :
    mutationReply g (r.2.await wait r.1) =
      render op (awaited wait (.of (fun a => f a.1) r.1, Reply.sequence r.1)) := by
  rw [← of_await h wait f]
  cases r.2.await wait r.1 with
  | error err => exact (herr err).symm
  | ok a => exact hok a

private theorem run_reply (c : Cmd) :
    (c.run mapUpper env e args).1 =
      match c.operation mapUpper env.order args with
      | none => (c.run mapUpper (.idle env.scan) .new args).1
      | some op => render op (awaited env.wait (e.ticket env.now op).1) := by
  have hread : ∀ r, awaited env.wait (r, 0) = r := fun r => by
    simp only [awaited, if_true]
    cases env.wait <;> rfl
  cases c with
  | set =>
    simp only [Cmd.run, cmdSet, Cmd.operation]
    cases parseSetOptions mapUpper (args.drop 3) with
    | error bad => rfl
    | ok ttl =>
      have hreply := mutationReply_eq e (Engine.commits_set (arg args 1) (arg args 2) ttl env.now)
        env.wait (.set (arg args 1) (arg args 2) ttl) (f := fun _ => .done)
        (g := fun _ => .simple (text "OK")) (fun _ => rfl) fun _ => rfl
      simp only [Engine.ticket]
      refine hreply.trans ?_
      cases (e.set (arg args 1) (arg args 2) ttl env.now).1 <;> rfl
  | expire =>
    simp only [Cmd.run, cmdExpire, Cmd.operation]
    cases parseInt64 (arg args 2) with
    | none => rfl
    | some n =>
      dsimp only
      split_ifs
      · exact mutationReply_eq e (Engine.commits_delete _ _) env.wait _ (fun _ => rfl) fun _ => rfl
      · rfl
      · exact mutationReply_eq e (Engine.commits_expire _ _ _)
          env.wait _ (fun _ => rfl) fun _ => rfl
  | del =>
    exact mutationReply_eq e (Engine.commits_delete _ _) env.wait _ (fun _ => rfl) fun _ => rfl
  | persist =>
    exact mutationReply_eq e (Engine.commits_persist _ _) env.wait _ (fun _ => rfl) fun _ => rfl
  | incr | decr =>
    simp only [Cmd.run, cmdIncr, cmdDecr, incrBy, Cmd.operation, Engine.ticket]
    rw [← of_await (Engine.commits_incrBy (arg args 1) _ env.now) env.wait GoKv.Reply.int]
    generalize ((e.incrBy (arg args 1) _ env.now).2.await env.wait
      (e.incrBy (arg args 1) _ env.now).1) = res
    rcases res with err | n
    · cases err <;> rfl
    · rfl
  | ttl =>
    simp only [Cmd.operation, Engine.ticket, hread]
    rfl
  | ping | scan => rfl
  | get | mget | existing | keys | dbSize =>
    simp only [Cmd.operation, Engine.ticket, hread]
    rfl

/-- Dispatch replies with what its operation comes to, if it has one. -/
theorem dispatch_ticket :
    (dispatch mapUpper env e args).1 =
      match operation mapUpper env.order args with
      | none => (dispatch mapUpper (.idle env.scan) .new args).1
      | some op => render op (awaited env.wait (e.ticket env.now op).1) := by
  unfold dispatch operation
  cases resolve mapUpper args with
  | error bad => rfl
  | ok c => exact run_reply mapUpper env e args c

theorem dispatch_reply {env : Env} (hwait : env.wait = .ok ()) :
    (dispatch mapUpper env e args).1 =
      match operation mapUpper env.order args with
      | none => (dispatch mapUpper (.idle env.scan) .new args).1
      | some op => render op (e.exec env.now op).1 := by
  rw [dispatch_ticket, hwait]
  cases operation mapUpper env.order args with
  | none => rfl
  | some op => exact congrArg (render op) (e.ticket_exec env.now op).1

theorem operation_order (order : List Bytes) :
    operation mapUpper order args = (operation mapUpper [] args).map (·.meeting order) := by
  unfold operation
  cases resolve mapUpper args with
  | error bad => rfl
  | ok c =>
    cases c with
    | set =>
      simp only [Cmd.operation]
      cases parseSetOptions mapUpper (args.drop 3) <;> rfl
    | expire =>
      simp only [Cmd.operation]
      cases parseInt64 (arg args 2) with
      | none => rfl
      | some n =>
        dsimp only
        split_ifs <;> rfl
    | _ => rfl

end Command

end GoKv
