import GoKv.Lib.Decimal
import GoKv.Lib.Expiring
import GoKv.Lib.Time
import Mathlib.Data.List.AList

/-! The passive store: values and deadlines in two maps. A deadline is only ever recorded for a
key that holds a value. -/
namespace GoKv
open GoLib

inductive TTLStatus where
  | noKey
  | noTTL
  | hasTTL
  deriving DecidableEq, Repr

/-- Keys carrying a deadline appear in `expires` as well as in `data`. -/
structure Store where
  data : AList fun _ : Bytes => Bytes
  expires : AList fun _ : Bytes => ℤ
  subset : ∀ k ∈ expires, k ∈ data

namespace Store

def new : Store := ⟨∅, ∅, by simp⟩

/-- The deadline instant itself counts as expired. -/
def expired (s : Store) (key : Bytes) (now : ℤ) : Bool :=
  match s.expires.lookup key with
  | some deadline => !decide (now < deadline)
  | none => false

def get (s : Store) (key : Bytes) (now : ℤ) : Option Bytes :=
  if s.expired key now then none else s.data.lookup key

/-- Without a TTL a deadline the key already had is cleared. -/
def set (s : Store) (key value : Bytes) (expiresAt : ℤ) (hasTTL : Bool) : Store where
  data := s.data.insert key value
  expires := if hasTTL then s.expires.insert key expiresAt else s.expires.erase key
  subset k hk := by
    rw [AList.mem_insert]
    by_cases h : k = key
    · exact Or.inl h
    · split_ifs at hk
      · exact Or.inr (s.subset k ((AList.mem_insert _).mp hk |>.resolve_left h))
      · exact Or.inr (s.subset k (AList.mem_erase.mp hk).2)

def delete (s : Store) (key : Bytes) : Bool × Store :=
  ((s.data.lookup key).isSome,
    { data := s.data.erase key
      expires := s.expires.erase key
      subset k hk :=
        AList.mem_erase.mpr ((AList.mem_erase.mp hk).imp_right (s.subset k)) })

/-- A key that is missing or has expired cannot be given a deadline. -/
def expire (s : Store) (key : Bytes) (expiresAt now : ℤ) : Bool × Store :=
  if h : key ∈ s.data ∧ s.expired key now = false then
    (true,
      { s with
        expires := s.expires.insert key expiresAt
        subset k hk := by
          rcases (AList.mem_insert _).mp hk with rfl | hk
          · exact h.1
          · exact s.subset k hk })
  else (false, s)

def persist (s : Store) (key : Bytes) (now : ℤ) : Bool × Store :=
  if key ∉ s.data ∨ s.expired key now then (false, s)
  else if (s.expires.lookup key).isNone then (false, s)
  else
    (true,
      { s with
        expires := s.expires.erase key
        subset k hk := s.subset k (AList.mem_erase.mp hk).2 })

def ttl (s : Store) (key : Bytes) (now : ℤ) : Duration × TTLStatus :=
  if key ∉ s.data ∨ s.expired key now then (0, .noKey)
  else
    match s.expires.lookup key with
    | none => (0, .noTTL)
    | some deadline => (timeSub deadline now, .hasTTL)

def expiresAt (s : Store) (key : Bytes) : Option ℤ := s.expires.lookup key

def len (s : Store) (now : ℤ) : ℕ := s.data.keys.countP fun k => !s.expired k now

/-- The live keys in the order `order` in which the map is iterated. -/
def liveKeys (s : Store) (now : ℤ) (order : List Bytes) : List Bytes :=
  order.filter fun k => !s.expired k now

/-- A sweep over the deadlines in iteration order: what it removed and examined. -/
def reclaimLoop (now : ℤ) (limit : ℕ) : List Bytes → Store → ℕ → ℕ → (ℕ × ℕ) × Store
  | [], s, removed, examined => ((removed, examined), s)
  | k :: ks, s, removed, examined =>
    if examined = limit then ((removed, examined), s)
    else
      match s.expires.lookup k with
      | none => reclaimLoop now limit ks s removed examined
      | some deadline =>
        if now < deadline then reclaimLoop now limit ks s removed (examined + 1)
        else reclaimLoop now limit ks (s.delete k).2 (removed + 1) (examined + 1)

def reclaimExpired (s : Store) (now : ℤ) (limit : ℕ) (order : List Bytes) : (ℕ × ℕ) × Store :=
  reclaimLoop now limit order s 0 0

def hasExpirations (s : Store) : Bool := !s.expires.keys.isEmpty

/-! ## Entries -/

def entry (s : Store) (k : Bytes) : Option (Bytes × Option ℤ) :=
  (s.data.lookup k).map fun v => (v, s.expires.lookup k)

theorem entry_eq_none_iff {s : Store} {k : Bytes} : s.entry k = none ↔ k ∉ s.data := by
  simp [entry, AList.lookup_eq_none]

private theorem expires_lookup_of_notMem {s : Store} {k : Bytes} (h : k ∉ s.data) :
    s.expires.lookup k = none :=
  AList.lookup_eq_none.mpr fun hk => h (s.subset k hk)

theorem expired_eq (s : Store) (k : Bytes) (now : ℤ) :
    s.expired k now = (s.entry k).any fun e => !aliveAt now e := by
  unfold expired entry
  cases hd : s.data.lookup k with
  | none => rw [expires_lookup_of_notMem (AList.lookup_eq_none.mp hd)]; rfl
  | some v => cases s.expires.lookup k <;> simp

theorem get_eq (s : Store) (k : Bytes) (now : ℤ) :
    s.get k now = (liveAt now (s.entry k)).map Prod.fst := by
  unfold get
  rw [expired_eq]
  unfold entry
  cases s.data.lookup k with
  | none => simp
  | some v => simp only [Option.map_some, Option.any_some, liveAt_some]; split_ifs <;> simp_all

theorem entry_set (s : Store) (key value : Bytes) (deadline : ℤ) (hasTTL : Bool) (k : Bytes) :
    (s.set key value deadline hasTTL).entry k =
      if k = key then some (value, if hasTTL then some deadline else none) else s.entry k := by
  unfold entry set
  by_cases hk : k = key
  · subst hk
    cases hasTTL <;> simp
  · cases hasTTL <;> simp [hk, AList.lookup_insert_ne hk, AList.lookup_erase_ne hk]

theorem entry_delete (s : Store) (key k : Bytes) :
    (s.delete key).2.entry k = if k = key then none else s.entry k := by
  unfold entry delete
  by_cases hk : k = key
  · subst hk
    simp
  · simp [hk, AList.lookup_erase_ne hk]

theorem entry_deleteAll (keys : List Bytes) (s : Store) (k : Bytes) :
    (keys.foldl (fun s k => (s.delete k).2) s).entry k = if k ∈ keys then none else s.entry k := by
  induction keys generalizing s with
  | nil => simp
  | cons j ks ih =>
    rw [List.foldl_cons, ih, entry_delete]
    by_cases hj : k = j <;> by_cases hk : k ∈ ks <;> simp [hj, hk]

theorem get_eq_some {s : Store} {k : Bytes} {now : ℤ} {v : Bytes} (h : s.get k now = some v) :
    s.expired k now = false ∧ s.data.lookup k = some v := by
  unfold get at h
  split_ifs at h with he
  exact ⟨by simpa using he, h⟩

theorem entry_expire {s : Store} {key : Bytes} {deadline now : ℤ} {v : Bytes}
    (h : s.get key now = some v) (k : Bytes) :
    (s.expire key deadline now).2.entry k =
      if k = key then some (v, some deadline) else s.entry k := by
  obtain ⟨he, hd⟩ := get_eq_some h
  have hmem : key ∈ s.data := AList.lookup_isSome.mp (by rw [hd]; rfl)
  rw [expire, dif_pos ⟨hmem, he⟩]
  unfold entry
  by_cases hk : k = key
  · subst hk
    simp [hd]
  · simp [hk, AList.lookup_insert_ne hk]

theorem entry_persist {s : Store} {key : Bytes} {now : ℤ} {v : Bytes}
    (h : s.get key now = some v) (k : Bytes) :
    (s.persist key now).2.entry k = if k = key then some (v, none) else s.entry k := by
  obtain ⟨he, hd⟩ := get_eq_some h
  have hmem : key ∈ s.data := AList.lookup_isSome.mp (by rw [hd]; rfl)
  rw [persist, if_neg (by simp [hmem, he])]
  by_cases hn : (s.expires.lookup key).isNone = true
  · rw [if_pos hn]
    by_cases hk : k = key
    · subst hk
      simp [entry, hd, Option.isNone_iff_eq_none.mp hn]
    · rw [if_neg hk]
  · rw [if_neg hn]
    unfold entry
    by_cases hk : k = key
    · subst hk
      simp [hd]
    · simp [hk, AList.lookup_erase_ne hk]

theorem ttl_eq (s : Store) (k : Bytes) (now : ℤ) :
    s.ttl k now =
      match liveAt now (s.entry k) with
      | none => (0, .noKey)
      | some (_, none) => (0, .noTTL)
      | some (_, some deadline) => (timeSub deadline now, .hasTTL) := by
  unfold ttl
  rw [expired_eq]
  unfold entry
  cases hd : s.data.lookup k with
  | none => simp [AList.lookup_eq_none.mp hd]
  | some v =>
    have hmem : k ∈ s.data := AList.lookup_isSome.mp (by rw [hd]; rfl)
    cases s.expires.lookup k with
    | none => simp [hmem]
    | some deadline =>
      simp only [hmem, not_true, Option.map_some, Option.any_some, aliveAt_some, false_or,
        liveAt_some]
      by_cases hlt : now < deadline <;> simp [hlt]

theorem expiresAt_eq {s : Store} {k : Bytes} {e : Bytes × Option ℤ} (h : s.entry k = some e) :
    s.expiresAt k = e.2 := by
  obtain ⟨v, -, rfl⟩ := Option.map_eq_some_iff.mp h
  rfl

theorem expires_lookup_of_not_hasExpirations {s : Store} (h : s.hasExpirations = false)
    (k : Bytes) : s.expires.lookup k = none := by
  rw [AList.lookup_eq_none, AList.mem_keys]
  simp only [hasExpirations, Bool.not_eq_false', List.isEmpty_iff] at h
  simp [h]

/-- With no deadline recorded the instant does not matter. -/
theorem liveAt_of_not_hasExpirations {s : Store} (h : s.hasExpirations = false) (t : ℤ)
    (k : Bytes) : liveAt t (s.entry k) = s.entry k := by
  unfold entry
  rw [expires_lookup_of_not_hasExpirations h]
  cases s.data.lookup k <;> simp

/-- A sweep removes nothing that is still alive. -/
theorem liveAt_reclaimLoop {now t : ℤ} (ht : now ≤ t) (limit : ℕ) (order : List Bytes) (s : Store)
    (removed examined : ℕ) (k : Bytes) :
    liveAt t ((reclaimLoop now limit order s removed examined).2.entry k) =
      liveAt t (s.entry k) := by
  induction order generalizing s removed examined with
  | nil => rfl
  | cons key ks ih =>
    unfold reclaimLoop
    split_ifs with hlim
    · rfl
    · cases hx : s.expires.lookup key with
      | none => exact ih s removed examined
      | some deadline =>
        dsimp only
        split_ifs with hlt
        · exact ih s removed (examined + 1)
        · rw [ih, entry_delete]
          split_ifs with hk
          · subst hk
            unfold entry
            rw [hx]
            cases s.data.lookup k with
            | none => rfl
            | some v =>
              rw [Option.map_some, liveAt_some, liveAt_none, if_neg]
              simp only [aliveAt_some, decide_eq_true_eq]
              omega
          · rfl

theorem liveAt_reclaimExpired {now t : ℤ} (ht : now ≤ t) (s : Store) (limit : ℕ)
    (order : List Bytes) (k : Bytes) :
    liveAt t ((s.reclaimExpired now limit order).2.entry k) = liveAt t (s.entry k) :=
  liveAt_reclaimLoop ht limit order s 0 0 k

theorem mem_data_and_not_expired {s : Store} {k : Bytes} {now : ℤ} :
    k ∈ s.data ∧ s.expired k now = false ↔ (liveAt now (s.entry k)).isSome = true := by
  rw [expired_eq]
  cases he : s.entry k with
  | none => simp [entry_eq_none_iff.mp he]
  | some e =>
    have hmem : k ∈ s.data := by
      by_contra hn
      rw [entry_eq_none_iff.mpr hn] at he
      cases he
    simp only [hmem, true_and, Option.any_some, liveAt_some]
    cases aliveAt now e <;> simp

end Store

end GoKv
