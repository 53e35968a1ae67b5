import GoKv.Command.Command

/-! The one operation a command performs. It is decided by the arguments alone, and everything
Dispatch does to the engine is to perform it. -/
namespace GoKv
open GoLib

def Engine.perform (e : Engine) (now : ℤ) : Option Op → Engine
  | none => e
  | some op => (e.exec now op).2

namespace Command

variable (mapUpper : Bytes → Bytes)

def Cmd.operation (order args : List Bytes) : Cmd → Option Op
  | .ping | .scan => none
  | .set =>
    match parseSetOptions mapUpper (args.drop 3) with
    | .error _ => none
    | .ok expiry => some (.set (arg args 1) (arg args 2) expiry)
  | .get => some (.get (arg args 1))
  | .mget => some (.mget (args.drop 1))
  | .del => some (.delete (args.drop 1))
  | .existing => some (.existing (args.drop 1))
  | .incr => some (.incrBy (arg args 1) 1)
  | .decr => some (.incrBy (arg args 1) (-1))
  | .expire =>
    match parseInt64 (arg args 2) with
    | none => none
    | some n =>
      if n ≤ 0 then some (.delete [arg args 1])
      else if maxExpireSeconds < n then none
      else some (.expire (arg args 1) (n * second))
  | .ttl => some (.ttl (arg args 1))
  | .persist => some (.persist (arg args 1))
  | .keys => some (.keys (arg args 1) order)
  | .dbSize => some .dbSize

def operation (order args : List Bytes) : Option Op :=
  match resolve mapUpper args with
  | .error _ => none
  | .ok c => c.operation mapUpper order args

private theorem run_engine (c : Cmd) (env : Env) (e : Engine) (args : List Bytes) :
    (c.run mapUpper env e args).2 = e.perform env.now (c.operation mapUpper env.order args) := by
  cases c with
  | set =>
    simp only [Cmd.run, cmdSet, Cmd.operation]
    cases parseSetOptions mapUpper (args.drop 3) with
    | error bad => rfl
    | ok ttl => rfl
  | expire =>
    simp only [Cmd.run, cmdExpire, Cmd.operation]
    cases parseInt64 (arg args 2) with
    | none => rfl
    | some n =>
      dsimp only
      split_ifs
      · rfl
      · rfl
      · rfl
  | _ => rfl

/-- Dispatch performs the command's operation and nothing else. -/
theorem dispatch_engine (env : Env) (e : Engine) (args : List Bytes) :
    (dispatch mapUpper env e args).2 = e.perform env.now (operation mapUpper env.order args) := by
  unfold dispatch operation
  cases resolve mapUpper args with
  | error bad => rfl
  | ok c => exact run_engine mapUpper c env e args

end Command

end GoKv
