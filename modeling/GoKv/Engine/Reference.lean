import GoKv.Engine.Spec
import Mathlib.Data.List.Dedup

/-! The engine against a reference map that discards what has expired before each operation.
Neither the sweeps nor the skipped clock reads show in any result. -/
namespace GoKv
open GoLib

/-- One map from keys to entries. -/
abbrev Reference := AList fun _ : Bytes => Entry

namespace Reference

def discard (m : Reference) (now : ℤ) : Reference where
  entries := m.entries.filter fun e => aliveAt now e.2
  nodupKeys := m.nodupKeys.sublist List.filter_sublist

def apply (m : Reference) : Change → Reference
  | .keep => m
  | .put key value deadline => m.insert key (value, deadline)
  | .remove keys => keys.foldl (fun m k => m.erase k) m

/-- What an operation answers on a map that holds only live entries. -/
def reply (m : Reference) (now : ℤ) : Op → Reply
  | .get key => .value ((m.lookup key).map Prod.fst)
  | .mget ks => .values (ks.map fun k => (m.lookup k).map Prod.fst)
  | .existing ks => .count (ks.countP fun k => decide (k ∈ m))
  | .set _ _ _ => .done
  | .ttl key =>
    match m.lookup key with
    | none => .ttl 0 .noKey
    | some (_, none) => .ttl 0 .noTTL
    | some (_, some deadline) => .ttl (timeSub deadline now) .hasTTL
  | .expire key _ => .flag (decide (key ∈ m))
  | .persist key =>
    match m.lookup key with
    | some (_, some _) => .flag true
    | _ => .flag false
  | .delete ks => .count (ks.dedup.countP fun k => decide (k ∈ m))
  | .incrBy key delta =>
    match incrResult m.lookup key delta with
    | .error e => .failed e
    | .ok (n, _) => .int n
  | .keys pattern _ => .keys ((m.keys.insertionSort (· ≤ ·)).filter (Glob.isMatch pattern))
  | .dbSize => .count m.keys.length

def step (m : Reference) (now : ℤ) (op : Op) : Reply × Reference :=
  ((m.discard now).reply now op, (m.discard now).apply (op.change (m.discard now).lookup now))

/-- The answers to the operations of a run; nothing else concerns the reference. -/
def replies : Reference → List Call → List Reply
  | _, [] => []
  | m, .op now op :: cs => (m.step now op).1 :: replies (m.step now op).2 cs
  | m, .sweep _ _ :: cs => replies m cs
  | m, .log _ :: cs => replies m cs

private theorem dlookup_filter (p : Entry → Bool) (k : Bytes)
    (l : List (Sigma fun _ : Bytes => Entry)) (h : l.NodupKeys) :
    (l.filter fun e => p e.2).dlookup k = (l.dlookup k).filter p := by
  induction l with
  | nil => rfl
  | cons e l ih =>
    obtain ⟨j, x⟩ := e
    obtain ⟨hj, hl⟩ := List.nodupKeys_cons.mp h
    by_cases hk : k = j
    · subst hk
      cases hp : p x with
      | true => simp [hp, Option.filter_some]
      | false =>
        have hnone : l.dlookup k = none := List.dlookup_eq_none.mpr hj
        rw [List.filter_cons_of_neg (by simp [hp]), ih hl, hnone]
        simp [hp, Option.filter_some]
    · cases hp : p x with
      | true =>
        rw [List.filter_cons_of_pos (by simp [hp]), List.dlookup_cons_ne _ _ hk,
          List.dlookup_cons_ne _ _ hk, ih hl]
      | false =>
        rw [List.filter_cons_of_neg (by simp [hp]), List.dlookup_cons_ne _ _ hk, ih hl]

theorem lookup_discard (m : Reference) (now : ℤ) (k : Bytes) :
    (m.discard now).lookup k = liveAt now (m.lookup k) :=
  dlookup_filter (aliveAt now) k m.entries m.nodupKeys

theorem lookup_apply (m : Reference) (c : Change) (k : Bytes) :
    (m.apply c).lookup k = c.entries m.lookup k := by
  cases c with
  | keep => rfl
  | put key value deadline =>
    unfold apply Change.entries
    by_cases hk : k = key
    · subst hk; simp
    · simp [hk, AList.lookup_insert_ne hk]
  | remove keys =>
    dsimp only [apply, Change.entries]
    induction keys generalizing m with
    | nil => simp
    | cons j ks ih =>
      rw [List.foldl_cons, ih]
      by_cases hj : k = j
      · subst hj; simp
      · by_cases hk : k ∈ ks <;> simp [hj, hk, AList.lookup_erase_ne hj]

theorem mem_iff {m : Reference} {k : Bytes} : k ∈ m ↔ (m.lookup k).isSome = true :=
  AList.lookup_isSome.symm

end Reference

/-! ## The in-place filter -/

/-- After `fuel` passes from `i`, what is not yet examined stands where it stood, and the result
has grown by the keys that match. -/
theorem filterLoop_passes (pattern : Bytes) (fuel : ℕ) (keys : List Bytes) (i n : ℕ) (hn : n ≤ i)
    (hf : i + fuel ≤ keys.length) :
    ∃ arr n', Engine.filterLoop pattern fuel keys i n = (arr, n') ∧ n' ≤ i + fuel ∧
      arr.length = keys.length ∧ arr.drop (i + fuel) = keys.drop (i + fuel) ∧
      arr.take n' = keys.take n ++ ((keys.drop i).take fuel).filter (Glob.isMatch pattern) := by
  induction fuel generalizing keys i n with
  | zero => exact ⟨keys, n, rfl, hn, rfl, rfl, by simp⟩
  | succ fuel ih =>
    have hlt : i < keys.length := by omega
    have hnext : i + 1 + fuel = i + (fuel + 1) := by omega
    unfold Engine.filterLoop
    rw [List.getElem?_eq_getElem hlt, List.drop_eq_getElem_cons hlt, List.take_succ_cons, ← hnext]
    dsimp only
    split_ifs with hm
    · -- The slot written is one already examined.
      obtain ⟨arr, n', hloop, hle, hlen, hdrop, htake⟩ := ih (keys.set n keys[i]) (i + 1) (n + 1)
        (by omega) (by rw [List.length_set]; omega)
      refine ⟨arr, n', hloop, hle, by rw [hlen, List.length_set], ?_, ?_⟩
      · rw [hdrop, List.drop_set_of_lt (by omega)]
      · rw [htake, List.filter_cons_of_pos hm, List.drop_set_of_lt (by omega),
          List.take_succ_eq_append_getElem (by rw [List.length_set]; omega), List.getElem_set_self,
          List.take_set_of_le le_rfl, List.append_assoc, List.singleton_append]
    · rw [List.filter_cons_of_neg hm]
      exact ih keys (i + 1) n (by omega) (by omega)

/-- The result is the keys that match, and every other slot is cleared. -/
theorem filterSnapshot_array (keys : List Bytes) (pattern : Bytes) :
    Engine.filterSnapshot keys pattern =
      (keys.filter (Glob.isMatch pattern),
        keys.filter (Glob.isMatch pattern) ++
          List.replicate (keys.length - (keys.filter (Glob.isMatch pattern)).length) []) := by
  obtain ⟨arr, n, hloop, hle, hlen, -, htake⟩ :=
    filterLoop_passes pattern keys.length keys 0 0 le_rfl (by omega)
  rw [List.take_zero, List.nil_append, List.drop_zero, List.take_length] at htake
  have hn : (keys.filter (Glob.isMatch pattern)).length = n := by
    rw [← htake, List.length_take]
    omega
  rw [Engine.filterSnapshot, hloop]
  simp only [htake, hlen, hn]

theorem filterSnapshot_eq (keys : List Bytes) (pattern : Bytes) :
    (Engine.filterSnapshot keys pattern).1 = keys.filter (Glob.isMatch pattern) := by
  rw [filterSnapshot_array]

/-- Sorting forgets the order the map was iterated in. -/
theorem sortSnapshot_eq_of_perm {xs ys : List Bytes} (h : xs.Perm ys) :
    Engine.sortSnapshot xs = Engine.sortSnapshot ys := by
  unfold Engine.sortSnapshot
  refine List.Perm.eq_of_pairwise ?_ (List.pairwise_insertionSort (· ≤ ·) xs)
    (List.pairwise_insertionSort (· ≤ ·) ys) ?_
  · intro a b _ _ hab hba
    exact Std.le_antisymm hab hba
  · exact (List.perm_insertionSort _ _).trans (h.trans (List.perm_insertionSort _ _).symm)

namespace Engine

/-- The live keys, in any iteration order, are the keys of a map with the same live entries. -/
theorem liveKeys_perm {e : Engine} {now : ℤ} {m : Reference} (hm : ∀ k, e.view now k = m.lookup k)
    {order : List Bytes} (ho : order.Perm e.store.data.keys) :
    (e.store.liveKeys (e.readNow now) order).Perm m.keys := by
  have hnodup : order.Nodup := ho.nodup_iff.mpr (AList.keys_nodup _)
  apply (List.perm_ext_iff_of_nodup (hnodup.filter _) (AList.keys_nodup _)).mpr
  intro k
  rw [List.mem_filter, ho.mem_iff, ← AList.mem_keys, ← AList.mem_keys, Reference.mem_iff, ← hm,
    ← e.liveAt_readNow now k, ← Store.mem_data_and_not_expired]
  simp

private theorem len_eq {e : Engine} {now : ℤ} {m : Reference}
    (hm : ∀ k, e.view now k = m.lookup k) :
    e.store.len (e.readNow now) = m.keys.length := by
  rw [Store.len, List.countP_eq_length_filter]
  exact (liveKeys_perm hm (List.Perm.refl _)).length_eq

/-- The clock that is skipped when there is no deadline does not matter to TTL. -/
theorem ttl_readNow (e : Engine) (now : ℤ) (key : Bytes) :
    e.store.ttl key (e.readNow now) = e.store.ttl key now := by
  cases h : e.store.hasExpirations with
  | true => rw [readNow, if_pos h]
  | false =>
    simp only [Store.ttl, Store.expired, Store.expires_lookup_of_not_hasExpirations h]

/-- The keys a delete counts are the distinct ones that hold a value. -/
theorem length_present (m : Reference) (keys : List Bytes) :
    (Change.present m.lookup keys).length = keys.dedup.countP fun k => decide (k ∈ m) := by
  rw [List.countP_eq_length_filter]
  apply List.Perm.length_eq
  apply (List.perm_ext_iff_of_nodup (Change.nodup_present _ _) ((List.nodup_dedup _).filter _)).mpr
  intro k
  simp [Change.mem_present, Reference.mem_iff]

theorem commitRecord_none {e : Engine} (hl : e.log = none) (rec : Aof.Record)
    (apply : Store → Store) :
    e.commitRecord rec apply = (.ok 0, { e with store := apply e.store }) := by
  simp only [commitRecord, hl]

theorem incrFrom_reply {e : Engine} (hl : e.log = none) (key : Bytes) (n delta : Int64)
    (d : Option ℤ) :
    Reply.of (fun a => .int a.1) (e.incrFrom key n delta d).1 =
      match addInt64 n delta with
      | none => .failed .incrOverflow
      | some k => .int k := by
  cases hadd : addInt64 n delta with
  | none =>
    rw [incrFrom_of_none key d hadd]
    rfl
  | some k =>
    rw [incrFrom_of_some key d hadd, commitSet, commitRecord_none hl]
    rfl

/-- Every result is the reference's on a map with the same live entries. -/
theorem exec_reply {e : Engine} (ha : e.acceptingMutations = true) (hl : e.log = none) {now : ℤ}
    {m : Reference} (hm : ∀ k, e.view now k = m.lookup k) {op : Op}
    (ho : op.Iterates e.store) : (e.exec now op).1 = m.reply now op := by
  have hview : e.view now = m.lookup := funext hm
  have hget : ∀ k, e.store.get k (e.readNow now) = (m.lookup k).map Prod.fst := fun k => by
    rw [get_readNow, hm]
  have hnow : ∀ k, e.store.get k now = (m.lookup k).map Prod.fst := fun k => by rw [get_now, hm]
  cases op with
  | get key => simp only [exec, get, hget, Reference.reply]
  | mget keys => simp only [exec, mget, hget, Reference.reply]
  | existing keys =>
    simp only [exec, existing, hget, Option.isSome_map, Reference.reply, Reference.mem_iff,
      Bool.decide_eq_true]
  | set key value t =>
    simp [exec, set, ha, commitSet, commitRecord_none hl, Reply.of, Reference.reply]
  | ttl key =>
    have httl := e.store.ttl_eq key now
    rw [show liveAt now (e.store.entry key) = m.lookup key from hm key] at httl
    simp only [exec, ttl, ttl_readNow, httl, Reference.reply]
    rcases m.lookup key with _ | ⟨v, _ | deadline⟩ <;> rfl
  | expire key d =>
    simp only [exec, expire, ha, if_true, hnow, Reference.reply, Reference.mem_iff]
    cases m.lookup key with
    | none => rfl
    | some en => simp [commitSet, commitRecord_none hl, Reply.of, Except.map]
  | persist key =>
    have httl := e.store.ttl_eq key now
    rw [show liveAt now (e.store.entry key) = m.lookup key from hm key] at httl
    simp only [exec, persist, ha, if_true, hnow, httl, Reference.reply]
    rcases m.lookup key with _ | ⟨v, _ | deadline⟩
    · rfl
    · rfl
    · simp [commitSet, commitRecord_none hl, Reply.of, Except.map]
  | delete keys =>
    have hlive : liveDistinct e.store (e.readNow now) keys [] = Change.present m.lookup keys := by
      rw [liveDistinct_eq, hview]
      simp
    simp only [exec, delete, ha, if_true, hlive, commitDel, commitRecord_none hl, Reference.reply,
      ← length_present]
    split_ifs with hz
    · simp [Reply.of, hz]
    · simp [Reply.of, Except.map]
  | incrBy key delta =>
    simp only [exec, incrBy, ha, if_true, hget, Reference.reply, incrResult, incrStart]
    rcases hlook : m.lookup key with _ | ⟨v, d⟩
    · simp only [Option.map_none, incrFrom_reply hl]
      cases addInt64 0 delta <;> rfl
    · simp only [Option.map_some]
      cases parseStoredInt v with
      | none => rfl
      | some n =>
        simp only [incrFrom_reply hl]
        cases addInt64 n delta <;> rfl
  | keys pattern order =>
    simp only [exec, keys, filterSnapshot_eq, sortSnapshot_eq_of_perm (liveKeys_perm hm ho)]
    rfl
  | dbSize => simp only [exec, dbSize, len_eq hm, Reference.reply]

end Engine

/-- The same change to entries that agree on the living leaves entries that agree on them. -/
theorem liveAt_entries {f g : Bytes → Option Entry} {now : ℤ}
    (h : ∀ k, liveAt now (f k) = liveAt now (g k)) (c : Change) (k : Bytes) :
    liveAt now (c.entries f k) = liveAt now (c.entries g k) := by
  cases c with
  | keep => exact h k
  | put key value deadline =>
    dsimp only [Change.entries]
    split_ifs
    · rfl
    · exact h k
  | remove keys =>
    dsimp only [Change.entries]
    split_ifs
    · rfl
    · exact h k

namespace Session

/-- An engine without a log and a reference that hold the same live entries. -/
structure Agrees (s : Session) (m : Reference) : Prop where
  accepting : s.engine.acceptingMutations = true
  log : s.engine.log = none
  live : ∀ k, liveAt s.clock (s.engine.store.entry k) = liveAt s.clock (m.lookup k)

theorem Agrees.view {s : Session} {m : Reference} (h : s.Agrees m) {now : ℤ}
    (hnow : s.clock ≤ now) (k : Bytes) :
    s.engine.view now k = (m.discard now).lookup k := by
  rw [Engine.view, Reference.lookup_discard, ← liveAt_liveAt hnow, h.live, liveAt_liveAt hnow]

theorem agrees_op {s : Session} {m : Reference} (h : s.Agrees m) {now : ℤ} {op : Op}
    (hnow : s.clock ≤ now) (replies : List Reply) :
    Agrees ⟨(s.engine.exec now op).2, now, replies⟩ (m.step now op).2 := by
  have hview : s.engine.view now = (m.discard now).lookup := funext (h.view hnow)
  rcases s.engine.exec_performed now op with ⟨-, -, hbad | hbad⟩ | ⟨hent, hlogs, hacc, -⟩
  · rw [h.accepting] at hbad; cases hbad
  · exact absurd h.log hbad
  · refine ⟨hacc.trans h.accepting, ?_, fun k => ?_⟩
    · change (s.engine.exec now op).2.log = none
      rw [h.log] at hlogs
      cases hlog : (s.engine.exec now op).2.log with
      | none => rfl
      | some l => rw [hlog] at hlogs; cases hlogs
    · change liveAt now ((s.engine.exec now op).2.store.entry k) = _
      rw [hent, hview, Reference.step, Reference.lookup_apply]
      refine liveAt_entries (fun j => ?_) _ k
      rw [← h.view hnow]
      exact (liveAt_liveAt le_rfl _).symm

theorem agrees_sweep {s : Session} {m : Reference} (h : s.Agrees m) {now : ℤ}
    (order : List Bytes) (hnow : s.clock ≤ now) :
    Agrees { s with engine := (s.engine.reclaimOnce now order).2, clock := now } m where
  accepting := h.accepting
  log := h.log
  live k := by
    change liveAt now ((s.engine.store.reclaimExpired now _ order).2.entry k) = _
    rw [Store.liveAt_reclaimExpired le_rfl, ← liveAt_liveAt hnow, h.live, liveAt_liveAt hnow]

theorem replies_run {s t : Session} {m : Reference} (h : s.Agrees m) {cs : List Call}
    (hrun : runSteps step s cs = some t) : t.replies = s.replies ++ m.replies cs := by
  induction cs generalizing s m with
  | nil =>
    cases hrun
    simp [Reference.replies]
  | cons c cs ih =>
    obtain ⟨u, hu, ht⟩ := runSteps_cons_eq_some.mp hrun
    cases c with
    | op now op =>
      simp only [step] at hu
      split_ifs at hu with hc
      cases hu
      rw [ih (agrees_op h hc.1 _) ht,
        Engine.exec_reply h.accepting h.log (h.view hc.1) hc.2, Reference.replies, Reference.step]
      simp
    | sweep now order =>
      simp only [step] at hu
      split_ifs at hu with hc
      cases hu
      have hrec := ih (agrees_sweep h order hc.1) ht
      exact hrec
    | log e =>
      cases e <;> simp [step, h.log] at hu

/-- Every result of every run is the reference's: expiry is exact at each clock reading, and
neither what the sweeps reclaimed nor the skipped clock reads can be observed. No store that is
reached records a deadline for a key without a value. -/
theorem expiry_exact {clock : ℤ} {cs : List Call} {s : Session}
    (hrun : runSteps step (start .new clock) cs = some s) :
    s.replies = Reference.replies ∅ cs ∧
      ∀ k ∈ s.engine.store.expires, k ∈ s.engine.store.data := by
  refine ⟨?_, s.engine.store.subset⟩
  have h : Agrees (start .new clock) ∅ := ⟨rfl, rfl, fun k => rfl⟩
  simpa [start] using replies_run h hrun

/-- A key set for 5 ns, incremented, swept after its deadline and read again. -/
def lapsedCalls : List Call :=
  [.op 10 (.set [107] [49] (.expiresIn 5)), .op 12 (.incrBy [107] 41), .op 13 (.ttl [107]),
    .sweep 15 [[107]], .op 15 (.keys [42] []), .op 15 (.persist [107]), .op 15 .dbSize]

theorem expiry_exact_lapsed :
    ∃ s, runSteps step (start .new 0) lapsedCalls = some s ∧
      s.replies = [.done, .int 42, .ttl 2 .hasTTL, .keys [], .flag false, .count 0] := by
  have hrun : runSteps step (start .new 0) lapsedCalls = some _ := rfl
  exact ⟨_, hrun, (expiry_exact hrun).1.trans rfl⟩

end Session

end GoKv
