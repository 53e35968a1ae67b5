import GoKv.Aof.LogSteps
import GoKv.Engine.Session

/-! What each operation means: the change it makes to the entries a client can see, and the
records that describe the change. -/
namespace GoKv
open GoLib GoKv.Aof

abbrev Entry := Bytes × Option ℤ

inductive Change where
  | keep
  | put (key value : Bytes) (deadline : Option ℤ)
  | remove (keys : List Bytes)

namespace Change

def entries (f : Bytes → Option Entry) : Change → Bytes → Option Entry
  | keep, k => f k
  | put key value deadline, k => if k = key then some (value, deadline) else f k
  | remove keys, k => if k ∈ keys then none else f k

/-- The keys that hold a value among those listed, each once, in the order of the list. -/
def present (f : Bytes → Option Entry) : List Bytes → List Bytes
  | [] => []
  | k :: ks =>
    if (f k).isSome then k :: (present f ks).filter (· ≠ k) else present f ks

theorem mem_present {f : Bytes → Option Entry} {keys : List Bytes} {k : Bytes} :
    k ∈ present f keys ↔ k ∈ keys ∧ (f k).isSome = true := by
  induction keys with
  | nil => simp [present]
  | cons j ks ih =>
    unfold present
    by_cases hk : k = j
    · subst hk
      split_ifs with hs
      · simp [hs]
      · simp [ih, hs]
    · split_ifs with hs
      · simp [ih, hk]
      · simp [ih, hk]

theorem nodup_present (f : Bytes → Option Entry) (keys : List Bytes) : (present f keys).Nodup := by
  induction keys with
  | nil => simp [present]
  | cons j ks ih =>
    unfold present
    split_ifs with hs
    · exact List.nodup_cons.mpr ⟨by simp, ih.filter _⟩
    · exact ih

/-- The records of a change, on the entries alive when it is made. -/
def records (f : Bytes → Option Entry) : Change → List Record
  | keep => []
  | put key value deadline => [deriveSet key value (deadline.getD zeroTime) deadline.isSome]
  | remove keys => if present f keys = [] then [] else [deriveDel (present f keys)]

end Change

def addInt64 (a b : Int64) : Option Int64 :=
  if a.toInt + b.toInt < -2 ^ 63 ∨ 2 ^ 63 ≤ a.toInt + b.toInt then none
  else some (Int64.ofInt (a.toInt + b.toInt))

private theorem toInt_maxValue_sub {d : Int64} (h : 0 < d) :
    (Int64.maxValue - d).toInt = 2 ^ 63 - 1 - d.toInt := by
  have hpos : 0 < d.toInt := by simpa using Int64.lt_iff_toInt_lt.mp h
  have hlt := Int64.toInt_lt d
  rw [Int64.toInt_sub, Int64.toInt_maxValue]
  apply Int.bmod_eq_of_le_mul_two <;> norm_num at * <;> omega

private theorem toInt_minValue_sub {d : Int64} (h : d < 0) :
    (Int64.minValue - d).toInt = -2 ^ 63 - d.toInt := by
  have hneg : d.toInt < 0 := by simpa using Int64.lt_iff_toInt_lt.mp h
  have hle := Int64.le_toInt d
  rw [Int64.toInt_sub, Int64.toInt_minValue]
  apply Int.bmod_eq_of_le_mul_two <;> norm_num at * <;> omega

/-- INCRBY's two comparisons detect exactly the sums that do not fit. -/
theorem incr_overflow_iff (n delta : Int64) :
    ((0 < delta ∧ Int64.maxValue - delta < n) ∨ (delta < 0 ∧ n < Int64.minValue - delta)) ↔
      addInt64 n delta = none := by
  have hlo := Int64.le_toInt n
  have hhi := Int64.toInt_lt n
  have hz : (0 : Int64).toInt = 0 := rfl
  have hmax : 0 < delta → (Int64.maxValue - delta < n ↔ 2 ^ 63 - 1 - delta.toInt < n.toInt) :=
    fun h => by rw [Int64.lt_iff_toInt_lt, toInt_maxValue_sub h]
  have hmin : delta < 0 → (n < Int64.minValue - delta ↔ n.toInt < -2 ^ 63 - delta.toInt) :=
    fun h => by rw [Int64.lt_iff_toInt_lt, toInt_minValue_sub h]
  rw [and_congr_right_iff.mpr hmax, and_congr_right_iff.mpr hmin, Int64.lt_iff_toInt_lt,
    Int64.lt_iff_toInt_lt, hz, addInt64]
  split_ifs with h <;> simp <;> omega

private theorem not_overflow_of_addInt64 {n delta m : Int64} (h : addInt64 n delta = some m) :
    ¬ ((0 < delta ∧ Int64.maxValue - delta < n) ∨ (delta < 0 ∧ n < Int64.minValue - delta)) := by
  rw [incr_overflow_iff, h]
  exact Option.some_ne_none m

private theorem addInt64_eq_some {n delta m : Int64} (h : addInt64 n delta = some m) :
    m = n + delta := by
  unfold addInt64 at h
  split_ifs at h
  rw [← Option.some.inj h, Int64.ofInt_add, Int64.ofInt_toInt, Int64.ofInt_toInt]

/-- What INCRBY finds: zero where the key is absent, else the value and deadline it keeps. -/
def incrStart (f : Bytes → Option Entry) (key : Bytes) : Except EngineErr (Int64 × Option ℤ) :=
  match f key with
  | none => .ok (0, none)
  | some (v, d) =>
    match Engine.parseStoredInt v with
    | none => .error .notAnInteger
    | some n => .ok (n, d)

def incrResult (f : Bytes → Option Entry) (key : Bytes) (delta : Int64) :
    Except EngineErr (Int64 × Option ℤ) :=
  match incrStart f key with
  | .error e => .error e
  | .ok (n, d) =>
    match addInt64 n delta with
    | none => .error .incrOverflow
    | some m => .ok (m, d)

theorem incrResult_deadline {f : Bytes → Option Entry} {key : Bytes} {delta n : Int64}
    {d : Option ℤ} (h : incrResult f key delta = .ok (n, d)) :
    f key = none ∧ d = none ∨ ∃ v, f key = some (v, d) := by
  unfold incrResult incrStart at h
  rcases hf : f key with _ | ⟨v, d'⟩
  · simp only [hf] at h
    cases hadd : addInt64 0 delta with
    | none => simp [hadd] at h
    | some m =>
      simp only [hadd] at h
      cases h
      exact .inl ⟨rfl, rfl⟩
  · simp only [hf] at h
    cases hp : Engine.parseStoredInt v with
    | none => simp [hp] at h
    | some k =>
      simp only [hp] at h
      cases hadd : addInt64 k delta with
      | none => simp [hadd] at h
      | some m =>
        simp only [hadd] at h
        cases h
        exact .inr ⟨v, rfl⟩

/-- The change an operation makes at `now`, on the entries alive then. -/
def Op.change (f : Bytes → Option Entry) (now : ℤ) : Op → Change
  | .set key value t => .put key value (if t.set then some (timeAdd now t.d) else none)
  | .expire key d =>
    match f key with
    | none => .keep
    | some (v, _) => .put key v (some (timeAdd now d))
  | .persist key =>
    match f key with
    | some (v, some _) => .put key v none
    | _ => .keep
  | .delete ks => .remove ks
  | .incrBy key delta =>
    match incrResult f key delta with
    | .error _ => .keep
    | .ok (n, d) => .put key (formatInt n.toInt) d
  | _ => .keep

/-- A log that is absent, or took the records. -/
inductive Logs : Option Sys → List Record → Option Sys → Prop where
  | off (rs : List Record) : Logs none rs none
  | nothing (l : Sys) : Logs (some l) [] (some l)
  | one {l t : Sys} {r : Record} {seq : ℕ} (h : l.append r = (.ok seq, t)) :
      Logs (some l) [r] (some t)

namespace Engine

def view (e : Engine) (now : ℤ) (k : Bytes) : Option Entry := liveAt now (e.store.entry k)

theorem liveAt_readNow (e : Engine) (now : ℤ) (k : Bytes) :
    liveAt (e.readNow now) (e.store.entry k) = e.view now k := by
  unfold readNow view
  cases h : e.store.hasExpirations with
  | true => rfl
  | false =>
    rw [if_neg (by simp), Store.liveAt_of_not_hasExpirations h,
      Store.liveAt_of_not_hasExpirations h]

/-- Skipping the clock is not observable. -/
theorem get_readNow (e : Engine) (now : ℤ) (k : Bytes) :
    e.store.get k (e.readNow now) = (e.view now k).map Prod.fst := by
  rw [Store.get_eq, liveAt_readNow]

theorem get_now (e : Engine) (now : ℤ) (k : Bytes) :
    e.store.get k now = (e.view now k).map Prod.fst :=
  Store.get_eq _ _ _

def effects (e : Engine) (now : ℤ) (op : Op) (reply : Reply) : List Record :=
  if reply.isFailed then [] else (op.change (e.view now) now).records (e.view now)

/-- A commit is refused and changes nothing, or applies the change and logs its record. -/
theorem commitRecord_cases (e : Engine) (rec : Record) (apply : Store → Store) :
    (e.log ≠ none ∧ ∃ err, e.commitRecord rec apply = (.error err, e)) ∨
      ∃ seq log' applied, e.commitRecord rec apply =
          (.ok seq, { e with store := apply e.store, log := log', appliedSeq := applied }) ∧
        Logs e.log [rec] log' := by
  unfold commitRecord
  cases hl : e.log with
  | none => exact Or.inr ⟨0, none, e.appliedSeq, rfl, .off _⟩
  | some l =>
    dsimp only [commit]
    rcases l.append_cases rec with ⟨err, -, h⟩ | ⟨-, -, -, -, h⟩
    · exact Or.inl ⟨by simp, appendErr err, by simp only [h, ← hl]⟩
    · exact Or.inr ⟨_, _, _, by rw [h], .one h⟩

/-- What one operation left behind: nothing when it was refused, else its change to the entries
and its records. One that fails in another way makes no change. -/
def Performed (e : Engine) (now : ℤ) (op : Op) (ok : Bool) (e' : Engine) : Prop :=
  (e' = e ∧ ok = false ∧ (e.acceptingMutations = false ∨ e.log ≠ none)) ∨
    ((∀ k, e'.store.entry k = (op.change (e.view now) now).entries e.store.entry k) ∧
      Logs e.log ((op.change (e.view now) now).records (e.view now)) e'.log ∧
      e'.acceptingMutations = e.acceptingMutations ∧
      (ok = false → op.change (e.view now) now = .keep))

theorem Logs.refl (log : Option Sys) : Logs log [] log := by
  cases log with
  | none => exact .off []
  | some l => exact .nothing l

theorem performed_keep {e : Engine} {now : ℤ} {op : Op} {ok : Bool}
    (h : op.change (e.view now) now = .keep) : e.Performed now op ok e := by
  refine Or.inr ⟨fun k => ?_, ?_, rfl, fun _ => h⟩
  · rw [h]; rfl
  · rw [h]; exact Logs.refl _

theorem performed_commit {e : Engine} (now : ℤ) (op : Op) (rec : Record) (apply : Store → Store)
    (ha : ∀ k, (apply e.store).entry k =
      (op.change (e.view now) now).entries e.store.entry k)
    (hr : (op.change (e.view now) now).records (e.view now) = [rec]) :
    ∃ res e', e.commitRecord rec apply = (res, e') ∧ e.Performed now op res.isOk e' := by
  rcases e.commitRecord_cases rec apply with
    ⟨hl, err, hres⟩ | ⟨seq, log', applied, hres, hlogs⟩
  · exact ⟨_, _, hres, Or.inl ⟨rfl, rfl, Or.inr hl⟩⟩
  · exact ⟨_, _, hres, Or.inr ⟨ha, by rw [hr]; exact hlogs, rfl, nofun⟩⟩

theorem performed_put {e : Engine} {now : ℤ} {op : Op} {key value : Bytes} {d : Option ℤ}
    (apply : Store → Store) (h : op.change (e.view now) now = .put key value d)
    (ha : ∀ k, (apply e.store).entry k = if k = key then some (value, d) else e.store.entry k) :
    ∃ res e', e.commitSet key value (d.getD zeroTime) d.isSome apply = (res, e') ∧
      e.Performed now op res.isOk e' :=
  performed_commit now op _ apply (fun k => by rw [h]; exact ha k) (by rw [h]; rfl)

theorem performed_refused {e : Engine} {now : ℤ} {op : Op} (h : e.acceptingMutations = false) :
    e.Performed now op false e :=
  Or.inl ⟨rfl, rfl, Or.inl h⟩

theorem isOk_map {α β : Type*} (f : α → β) (x : Except EngineErr α) : (x.map f).isOk = x.isOk := by
  cases x <;> rfl

private theorem performed_set (e : Engine) (now : ℤ) (key value : Bytes) (t : TTL) :
    e.Performed now (.set key value t)
      (e.set key value t now).1.isOk (e.set key value t now).2 := by
  cases ha : e.acceptingMutations with
  | false => simp only [set, ha, Bool.false_eq_true, if_false]; exact performed_refused ha
  | true =>
    simp only [set, ha, if_true]
    cases hs : t.set with
    | true =>
      have hc : Op.change (e.view now) now (.set key value t) =
          .put key value (some (timeAdd now t.d)) := by simp [Op.change, hs]
      obtain ⟨res, e', hres, hp⟩ := performed_put (fun s => s.set key value (timeAdd now t.d) true)
        hc fun k => by simp [Store.entry_set]
      rw [Option.getD_some, Option.isSome_some] at hres
      simpa only [if_true, hres] using hp
    | false =>
      have hc : Op.change (e.view now) now (.set key value t) = .put key value none := by
        simp [Op.change, hs]
      obtain ⟨res, e', hres, hp⟩ := performed_put (fun s => s.set key value zeroTime false)
        hc fun k => by simp [Store.entry_set]
      rw [Option.getD_none, Option.isSome_none] at hres
      simpa only [Bool.false_eq_true, if_false, hres] using hp

private theorem performed_expire (e : Engine) (now : ℤ) (key : Bytes) (d : Duration) :
    e.Performed now (.expire key d)
      (e.expire key d now).1.isOk (e.expire key d now).2 := by
  cases ha : e.acceptingMutations with
  | false => simp only [expire, ha, Bool.false_eq_true, if_false]; exact performed_refused ha
  | true =>
    have hget := e.get_now now key
    simp only [expire, ha, if_true]
    cases hv : e.view now key with
    | none =>
      rw [hv, Option.map_none] at hget
      simp only [hget]
      exact performed_keep (by simp only [Op.change, hv])
    | some en =>
      rw [hv, Option.map_some] at hget
      have hc : Op.change (e.view now) now (.expire key d) =
          .put key en.1 (some (timeAdd now d)) := by simp only [Op.change, hv]
      obtain ⟨res, e', hres, hp⟩ := performed_put (fun s => (s.expire key (timeAdd now d) now).2)
        hc (Store.entry_expire hget)
      rw [Option.getD_some, Option.isSome_some] at hres
      simpa only [hget, hres, isOk_map] using hp

private theorem performed_persist (e : Engine) (now : ℤ) (key : Bytes) :
    e.Performed now (.persist key)
      (e.persist key now).1.isOk (e.persist key now).2 := by
  cases ha : e.acceptingMutations with
  | false => simp only [persist, ha, Bool.false_eq_true, if_false]; exact performed_refused ha
  | true =>
    have hget := e.get_now now key
    have httl := e.store.ttl_eq key now
    simp only [persist, ha, if_true]
    cases hv : e.view now key with
    | none =>
      rw [hv, Option.map_none] at hget
      simp only [hget]
      exact performed_keep (by simp only [Op.change, hv])
    | some en =>
      obtain ⟨v, d⟩ := en
      rw [hv, Option.map_some] at hget
      rw [show liveAt now (e.store.entry key) = some (v, d) from hv] at httl
      cases d with
      | none =>
        simp only [hget, httl, ne_eq, reduceCtorEq, not_false_iff, if_true]
        exact performed_keep (by simp only [Op.change, hv])
      | some deadline =>
        simp only [hget, httl, ne_eq, not_true, if_false]
        have hc : Op.change (e.view now) now (.persist key) = .put key v none := by
          simp only [Op.change, hv]
        obtain ⟨res, e', hres, hp⟩ := performed_put (fun s => (s.persist key now).2)
          hc (Store.entry_persist hget)
        rw [Option.getD_none, Option.isSome_none] at hres
        simpa only [hres, isOk_map] using hp

theorem liveDistinct_eq (e : Engine) (now : ℤ) (keys seen : List Bytes) :
    liveDistinct e.store (e.readNow now) keys seen =
      (Change.present (e.view now) keys).filter (· ∉ seen) := by
  induction keys generalizing seen with
  | nil => rfl
  | cons k ks ih =>
    have hsome : (e.store.get k (e.readNow now)).isSome = (e.view now k).isSome := by
      rw [get_readNow, Option.isSome_map]
    unfold liveDistinct Change.present
    rw [ih, ih, hsome]
    have hseen : ∀ l : List Bytes,
        l.filter (· ∉ k :: seen) = (l.filter (· ≠ k)).filter (· ∉ seen) := by
      intro l
      rw [List.filter_filter]
      congr 1
      funext j
      simp [Bool.and_comm]
    by_cases hmem : k ∈ seen
    · rw [if_pos hmem]
      split_ifs with hs
      · rw [List.filter_cons_of_neg (by simpa using hmem), List.filter_filter]
        apply List.filter_congr
        intro j _
        by_cases hj : j = k
        · subst hj; simp [hmem]
        · simp [hj]
      · rfl
    · rw [if_neg hmem]
      split_ifs with hs
      · rw [List.filter_cons_of_pos (by simpa using hmem), hseen]
      · have hk : k ∉ Change.present (e.view now) ks := by simp [Change.mem_present, hs]
        have hself : (Change.present (e.view now) ks).filter (· ≠ k) =
            Change.present (e.view now) ks := by
          apply List.filter_eq_self.mpr
          intro j hj
          simpa using fun h : j = k => hk (h ▸ hj)
        rw [hseen, hself]

private theorem performed_delete (e : Engine) (now : ℤ) (keys : List Bytes) :
    e.Performed now (.delete keys)
      (e.delete keys now).1.isOk (e.delete keys now).2 := by
  cases ha : e.acceptingMutations with
  | false => simp only [delete, ha, Bool.false_eq_true, if_false]; exact performed_refused ha
  | true =>
    have hlive : liveDistinct e.store (e.readNow now) keys [] =
        Change.present (e.view now) keys := by
      rw [liveDistinct_eq]
      simp
    have hc : Op.change (e.view now) now (.delete keys) = .remove keys := rfl
    simp only [delete, ha, if_true, hlive, List.length_eq_zero_iff]
    by_cases hnil : Change.present (e.view now) keys = []
    · rw [if_pos hnil]
      refine Or.inr ⟨fun k => ?_, ?_, ha.symm, nofun⟩
      · rw [hc]; exact Store.entry_deleteAll keys e.store k
      · rw [hc, Change.records, if_pos hnil]; exact Logs.refl _
    · rw [if_neg hnil]
      obtain ⟨res, e', hres, hp⟩ := performed_commit now (.delete keys)
        (deriveDel (Change.present (e.view now) keys))
        (fun s => keys.foldl (fun s k => (s.delete k).2) s)
        (fun k => Store.entry_deleteAll keys e.store k)
        (by rw [hc, Change.records, if_neg hnil])
      simpa only [commitDel, hres, isOk_map] using hp

theorem incrFrom_of_none {e : Engine} {n delta : Int64} (key : Bytes) (d : Option ℤ)
    (h : addInt64 n delta = none) : e.incrFrom key n delta d = (.error .incrOverflow, e) := by
  unfold incrFrom
  rw [if_pos ((incr_overflow_iff n delta).mpr h)]

theorem incrFrom_of_some {e : Engine} {n delta m : Int64} (key : Bytes) (d : Option ℤ)
    (h : addInt64 n delta = some m) :
    e.incrFrom key n delta d = Prod.map (Except.map fun seq => (m, seq)) id
      (e.commitSet key (formatInt m.toInt) (d.getD zeroTime) d.isSome
        fun s => s.set key (formatInt m.toInt) (d.getD zeroTime) d.isSome) := by
  unfold incrFrom
  rw [if_neg (not_overflow_of_addInt64 h), ← addInt64_eq_some h]
  rfl

theorem performed_incrFrom (e : Engine) (now : ℤ) (key : Bytes) (n delta : Int64) (d : Option ℤ)
    (h : incrStart (e.view now) key = .ok (n, d)) :
    e.Performed now (.incrBy key delta)
      (e.incrFrom key n delta d).1.isOk (e.incrFrom key n delta d).2 := by
  cases hadd : addInt64 n delta with
  | none =>
    rw [incrFrom_of_none key d hadd]
    exact performed_keep (by simp only [Op.change, incrResult, h, hadd])
  | some m =>
    rw [incrFrom_of_some key d hadd]
    have hc : Op.change (e.view now) now (.incrBy key delta) = .put key (formatInt m.toInt) d := by
      simp only [Op.change, incrResult, h, hadd]
    obtain ⟨res, e', hres, hp⟩ := performed_put
      (fun s => s.set key (formatInt m.toInt) (d.getD zeroTime) d.isSome) hc fun k => by
        rw [Store.entry_set]
        cases d <;> rfl
    simpa only [hres, Prod.map_apply, isOk_map, id_eq] using hp

private theorem performed_incrBy (e : Engine) (now : ℤ) (key : Bytes) (delta : Int64) :
    e.Performed now (.incrBy key delta)
      (e.incrBy key delta now).1.isOk (e.incrBy key delta now).2 := by
  cases ha : e.acceptingMutations with
  | false => simp only [incrBy, ha, Bool.false_eq_true, if_false]; exact performed_refused ha
  | true =>
    have hget := e.get_readNow now key
    simp only [incrBy, ha, if_true]
    cases hv : e.view now key with
    | none =>
      rw [hv, Option.map_none] at hget
      simp only [hget]
      exact performed_incrFrom e now key 0 delta none (by simp only [incrStart, hv])
    | some en =>
      obtain ⟨v, d⟩ := en
      rw [hv, Option.map_some] at hget
      simp only [hget]
      cases hp : parseStoredInt v with
      | none => exact performed_keep (by simp only [Op.change, incrResult, incrStart, hv, hp])
      | some n =>
        have hd : e.store.expiresAt key = d := Store.expiresAt_eq (liveAt_eq_some.mp hv).1
        rw [hd]
        exact performed_incrFrom e now key n delta d (by simp only [incrStart, hv, hp])

theorem Performed.of {e e' : Engine} {now : ℤ} {op : Op} {α : Type*} {x : Except EngineErr α}
    (h : e.Performed now op x.isOk e') {f : α → Reply} (hf : ∀ a, (f a).isFailed = false) :
    e.Performed now op (!(Reply.of f x).isFailed) e' := by
  cases x with
  | error err => exact h
  | ok a =>
    rw [Reply.of, hf]
    exact h

/-- Every operation makes its change and logs its records, or is refused. -/
theorem exec_performed (e : Engine) (now : ℤ) (op : Op) :
    e.Performed now op (!(e.exec now op).1.isFailed) (e.exec now op).2 := by
  cases op with
  | set key value t => exact (performed_set e now key value t).of fun _ => rfl
  | expire key d => exact (performed_expire e now key d).of fun _ => rfl
  | persist key => exact (performed_persist e now key).of fun _ => rfl
  | delete keys => exact (performed_delete e now keys).of fun _ => rfl
  | incrBy key delta => exact (performed_incrBy e now key delta).of fun _ => rfl
  | _ => exact performed_keep rfl

theorem exec_accepting (e : Engine) (now : ℤ) (op : Op) :
    (e.exec now op).2.acceptingMutations = e.acceptingMutations := by
  rcases exec_performed e now op with ⟨he, -⟩ | ⟨-, -, ha, -⟩
  · rw [he]
  · exact ha

end Engine

end GoKv
