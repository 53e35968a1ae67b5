import GoKv.Engine.Concurrent

/-! How a mutation comes out. -/
namespace GoKv
open GoLib GoKv.Aof

namespace Engine

/-- A mutation that fails leaves the engine as it was; what there is to await is the record it
appended, and without a log there is nothing. -/
structure Commits {α : Type*} (e : Engine) (r : Except EngineErr (α × ℕ) × Engine) : Prop where
  refused : ∀ err, r.1 = .error err → r.2 = e
  unlogged : r.2.log = none → Reply.sequence r.1 = 0
  sequenced : ∀ l, e.log = some l → 0 < Reply.sequence r.1 →
    Reply.sequence r.1 = l.log.nextSeq + 1

variable {e : Engine} {α : Type*}

theorem commits_error (err : EngineErr) :
    e.Commits ((.error err, e) : Except EngineErr (α × ℕ) × Engine) :=
  ⟨fun _ _ => rfl, fun _ => rfl, fun _ _ h => absurd h (lt_irrefl 0)⟩

theorem commits_zero (a : α) (e' : Engine) : e.Commits (.ok (a, 0), e') where
  refused _ h := by cases h
  unlogged _ := rfl
  sequenced _ _ h := absurd h (lt_irrefl 0)

theorem commits_record (rec : Record) (apply : Store → Store) (a : α) :
    e.Commits ((e.commitRecord rec apply).1.map fun seq => (a, seq),
      (e.commitRecord rec apply).2) := by
  unfold commitRecord
  cases hl : e.log with
  | none => exact commits_zero a _
  | some l =>
    simp only [commit]
    rcases l.append_cases rec with ⟨err, -, h⟩ | ⟨-, -, -, -, h⟩
    · rw [h]
      dsimp only
      rw [← hl]
      exact commits_error _
    · rw [h]
      refine ⟨fun _ he => (by cases he), fun hlog => (by cases hlog), fun l' hl' _ => ?_⟩
      obtain rfl : l = l' := Option.some.inj (hl.symm.trans hl')
      rfl

theorem commits_gate {r : Except EngineErr (α × ℕ) × Engine} (h : e.Commits r) :
    e.Commits (if e.acceptingMutations then r else (.error .draining, e)) := by
  split_ifs
  · exact h
  · exact commits_error _

theorem commits_set (key value : Bytes) (t : TTL) (now : ℤ) :
    e.Commits ((e.set key value t now).1.map fun seq => ((), seq), (e.set key value t now).2) := by
  unfold set
  by_cases ha : e.acceptingMutations = true
  · rw [if_pos ha]
    exact commits_record _ _ ()
  · rw [if_neg ha]
    exact commits_error _

theorem commits_expire (key : Bytes) (d : Duration) (now : ℤ) :
    e.Commits (e.expire key d now) := by
  refine commits_gate ?_
  cases e.store.get key now with
  | none => exact commits_zero _ _
  | some value =>
    dsimp only
    exact commits_record _ _ true

theorem commits_persist (key : Bytes) (now : ℤ) : e.Commits (e.persist key now) := by
  refine commits_gate ?_
  cases e.store.get key now with
  | none => exact commits_zero _ _
  | some value =>
    dsimp only
    split_ifs
    · exact commits_zero _ _
    · exact commits_record _ _ true

theorem commits_delete (keys : List Bytes) (now : ℤ) : e.Commits (e.delete keys now) := by
  refine commits_gate ?_
  dsimp only
  split_ifs
  · exact commits_zero _ _
  · exact commits_record _ _ _

theorem commits_incrFrom (key : Bytes) (n delta : Int64) (d : Option ℤ) :
    e.Commits (e.incrFrom key n delta d) := by
  unfold incrFrom
  split_ifs
  · exact commits_error _
  · dsimp only
    exact commits_record _ _ _

theorem commits_incrBy (key : Bytes) (delta : Int64) (now : ℤ) :
    e.Commits (e.incrBy key delta now) := by
  refine commits_gate ?_
  cases e.store.get key (e.readNow now) with
  | none => exact commits_incrFrom _ _ _ _
  | some value =>
    dsimp only
    cases parseStoredInt value with
    | none => exact commits_error _
    | some n => exact commits_incrFrom _ _ _ _

/-- What a call has to await is the record it appends. -/
theorem sequence_call {l : Sys} (hl : e.log = some l) {x : Met} {k : EngineCall}
    (h : 0 < (e.call x k).1.2) : (e.call x k).1.2 = l.log.nextSeq + 1 := by
  cases k with
  | sweep => exact absurd h (lt_irrefl 0)
  | beginDrain => exact absurd h (lt_irrefl 0)
  | op o =>
    cases o with
    | set key value t =>
      have hset := (commits_set (e := e) key value t x.now).sequenced l hl
      simp only [call, Op.meeting, ticket] at h ⊢
      cases hres : (e.set key value t x.now).1 with
      | error err =>
        rw [hres] at h
        exact absurd h (lt_irrefl 0)
      | ok seq =>
        rw [hres] at h hset
        exact hset h
    | expire key d => exact (commits_expire key d x.now).sequenced l hl h
    | persist key => exact (commits_persist key x.now).sequenced l hl h
    | delete keys => exact (commits_delete keys x.now).sequenced l hl h
    | incrBy key delta => exact (commits_incrBy key delta x.now).sequenced l hl h
    | _ => exact absurd h (lt_irrefl 0)

end Engine

end GoKv
