import GoKv.Engine.Reference
import GoKv.Engine.ScanSessions

/-! KEYS, SCAN and DBSIZE. They capture, sort and filter in different orders and judge expiry at
differently read clocks; they list the same keys. -/
namespace GoKv
open GoLib

namespace Engine

/-- The pattern of a request without MATCH is "*". -/
def scanPattern (req : ScanRequest) : Bytes := if req.patternSet then req.pattern else [42]

/-- captureLiveKeys: the live keys in the order the map is iterated in, with room for all of the
map, and the instant they are live at. -/
def captureLiveKeys (e : Engine) (now : ℤ) (order : List Bytes)
    (ho : order.Perm e.store.data.keys) : KeySlice × ℤ where
  fst :=
    { list := e.store.liveKeys now order
      cap := e.store.data.keys.length
      len_le := (List.length_filter_le _ _).trans ho.length_eq.le }
  snd := now

/-- scanFilter and scanSort: the slice keeps the array it was captured in. -/
def scanSlice (keys : KeySlice) (pattern : Bytes) : KeySlice where
  list := sortSnapshot (filterSnapshot keys.list pattern).1
  cap := keys.cap
  len_le := by
    rw [sortSnapshot, List.length_insertionSort, filterSnapshot_eq]
    exact (List.length_filter_le _ _).trans keys.len_le

/-- Scan, with the orders the map and the session table are iterated in and the answers of the
token source. -/
def scan (e : Engine) (m : ScanManager) (req : ScanRequest) (now : ℤ) (order : List Bytes)
    (ho : order.Perm e.store.data.keys) (sessions : List ℕ) (draws : List (Option ℕ)) :
    Option (ScanManager × Except ScanErr ScanResult) :=
  if req.cursor ≠ 0 then
    m.next req.cursor req.pattern req.patternSet req.count now sessions draws
  else
    let (keys, now) := e.captureLiveKeys now order ho
    m.start (scanSlice keys (scanPattern req)) (scanPattern req) req.count now sessions draws

/-- The list holds, in strictly increasing bytewise order, exactly the keys that are live and
match. -/
structure Discovers (e : Engine) (now : ℤ) (pattern : Bytes) (ks : List Bytes) : Prop where
  increasing : ks.Pairwise (· < ·)
  mem_iff : ∀ k, k ∈ ks ↔ (e.view now k).isSome = true ∧ Glob.isMatch pattern k = true

theorem Discovers.unique {e : Engine} {now : ℤ} {pattern : Bytes} {ks js : List Bytes}
    (h : e.Discovers now pattern ks) (h' : e.Discovers now pattern js) : ks = js :=
  h.increasing.eq_of_mem_iff h'.increasing fun k => (h.mem_iff k).trans (h'.mem_iff k).symm

theorem sortSnapshot_increasing {ks : List Bytes} (h : ks.Nodup) :
    (sortSnapshot ks).Pairwise (· < ·) := by
  have hnodup : (sortSnapshot ks).Nodup := (List.perm_insertionSort _ ks).nodup_iff.mpr h
  refine ((List.pairwise_insertionSort (· ≤ ·) ks).and hnodup).imp ?_
  rintro a b ⟨hle, hne⟩
  exact Std.lt_of_le_of_ne hle hne

variable {e : Engine} {now : ℤ} {order : List Bytes}

theorem nodup_liveKeys (ho : order.Perm e.store.data.keys) : (e.store.liveKeys now order).Nodup :=
  (ho.nodup_iff.mpr (AList.keys_nodup _)).filter _

theorem mem_liveKeys (ho : order.Perm e.store.data.keys) {k : Bytes} :
    k ∈ e.store.liveKeys now order ↔ (liveAt now (e.store.entry k)).isSome = true := by
  rw [Store.liveKeys, List.mem_filter, ho.mem_iff, AList.mem_keys.symm,
    ← Store.mem_data_and_not_expired]
  simp

/-- Keys sorts and then filters what is live at the clock it may skip. -/
theorem discovers_keys (ho : order.Perm e.store.data.keys) (pattern : Bytes) :
    e.Discovers now pattern (e.keys pattern now order) := by
  rw [keys, filterSnapshot_eq]
  refine ⟨(sortSnapshot_increasing (nodup_liveKeys ho)).filter _, fun k => ?_⟩
  rw [List.mem_filter, sortSnapshot, (List.perm_insertionSort _ _).mem_iff, mem_liveKeys ho,
    liveAt_readNow]

/-- Scan filters and then sorts what is live at the clock it reads. -/
theorem discovers_scan (ho : order.Perm e.store.data.keys) (pattern : Bytes) :
    e.Discovers now pattern (scanSlice (e.captureLiveKeys now order ho).1 pattern).list := by
  change e.Discovers now pattern
    (sortSnapshot (filterSnapshot (e.store.liveKeys now order) pattern).1)
  rw [filterSnapshot_eq]
  refine ⟨sortSnapshot_increasing ((nodup_liveKeys ho).filter _), fun k => ?_⟩
  rw [sortSnapshot, (List.perm_insertionSort _ _).mem_iff, List.mem_filter]
  exact and_congr_left' (mem_liveKeys ho)

/-- DBSIZE counts what KEYS "*" lists. -/
theorem dbSize_eq (ho : order.Perm e.store.data.keys) :
    e.dbSize now = (e.keys [42] now order).length := by
  have hall : ∀ k ∈ sortSnapshot (e.store.liveKeys (e.readNow now) order),
      Glob.isMatch [42] k = true := fun k _ => Glob.isMatch_star k
  rw [dbSize, Store.len, keys, filterSnapshot_eq, List.filter_eq_self.mpr hall, sortSnapshot,
    List.length_insertionSort, Store.liveKeys, ← List.countP_eq_length_filter, ho.countP_eq]

/-- KEYS lists exactly the keys that are live and match, in strictly increasing order, whatever
the order the map is iterated in. An initial SCAN hands the session manager that same list, for
"*" where it has no MATCH, and DBSIZE is the length of the latter. The filter behind both keeps
every key it has not examined where it was, loses and repeats none that matches, and clears the
slots of the others. -/
theorem discovery_agrees (e : Engine) (now : ℤ) :
    (∀ pattern order, order.Perm e.store.data.keys →
      e.Discovers now pattern (e.keys pattern now order) ∧
      ∀ order', order'.Perm e.store.data.keys →
        e.keys pattern now order' = e.keys pattern now order) ∧
    (∀ (m : ScanManager) req order order' (ho : order.Perm e.store.data.keys) sessions draws,
      req.cursor = 0 → order'.Perm e.store.data.keys → ∃ slice : KeySlice,
        e.scan m req now order ho sessions draws =
          m.start slice (scanPattern req) req.count now sessions draws ∧
        slice.list = e.keys (if req.patternSet then req.pattern else [42]) now order') ∧
    (∀ order, order.Perm e.store.data.keys → e.dbSize now = (e.keys [42] now order).length) ∧
    ∀ keys pattern,
      filterSnapshot keys pattern =
        (keys.filter (Glob.isMatch pattern),
          keys.filter (Glob.isMatch pattern) ++
            List.replicate (keys.length - (keys.filter (Glob.isMatch pattern)).length) []) ∧
      ∀ i ≤ keys.length, ∃ arr n, filterLoop pattern i keys 0 0 = (arr, n) ∧ n ≤ i ∧
        arr.drop i = keys.drop i ∧ arr.take n = (keys.take i).filter (Glob.isMatch pattern) := by
  refine ⟨fun pattern order ho => ⟨discovers_keys ho pattern, fun order' ho' =>
    (discovers_keys ho' pattern).unique (discovers_keys ho pattern)⟩, ?_,
    fun order ho => dbSize_eq ho, fun keys pattern => ⟨filterSnapshot_array keys pattern, ?_⟩⟩
  · intro m req order order' ho sessions draws hcursor ho'
    refine ⟨_, if_neg (not_not.mpr hcursor), ?_⟩
    exact (discovers_scan ho (scanPattern req)).unique (discovers_keys ho' _)
  · intro i hi
    obtain ⟨arr, n, hloop, hle, -, hdrop, htake⟩ :=
      filterLoop_passes pattern i keys 0 0 le_rfl (by omega)
    rw [Nat.zero_add] at hle hdrop
    exact ⟨arr, n, hloop, hle, hdrop, by simpa using htake⟩

def threeKeys : Engine :=
  { Engine.new with
    store := ((Store.new.set [98] [49] zeroTime false).set [99] [50] 5 true).set [97] [51] zeroTime
      false }

/-- At 5 two are left, in whichever order SCAN finds the three. -/
theorem discovery_agrees_three :
    [[97], [98], [99]].Perm threeKeys.store.data.keys ∧ threeKeys.dbSize 5 = 2 ∧
      ∀ (m : ScanManager) (ho : [[97], [98], [99]].Perm threeKeys.store.data.keys) sessions draws,
        ∃ slice : KeySlice, threeKeys.scan m ⟨0, [], false, 10⟩ 5 [[97], [98], [99]] ho sessions
            draws = m.start slice [42] 10 5 sessions draws ∧ slice.list = [[97], [98]] := by
  have hperm : [[97], [98], [99]].Perm threeKeys.store.data.keys := by decide
  obtain ⟨-, hscan, hsize, -⟩ := discovery_agrees threeKeys 5
  refine ⟨hperm, (hsize _ hperm).trans (by decide), fun m ho sessions draws => ?_⟩
  obtain ⟨slice, hstart, hlist⟩ := hscan m ⟨0, [], false, 10⟩ _ _ ho sessions draws rfl hperm
  exact ⟨slice, hstart, hlist.trans (by decide)⟩

end Engine

end GoKv
