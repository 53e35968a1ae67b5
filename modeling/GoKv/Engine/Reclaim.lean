import GoKv.Engine.Engine

/-! What sweeps reclaim. One sweep examines a bounded number of deadlines, in whatever order the
map is iterated; how soon the expired entries are gone depends on how many deadlines that are
still to come are in the way. -/
namespace GoKv
open GoLib

namespace Store

def overdue (s : Store) (now : ℤ) : ℕ := s.expires.keys.countP (s.expired · now)

def upcoming (s : Store) (now : ℤ) : ℕ := s.expires.keys.countP (!s.expired · now)

def deleteAll (s : Store) (ks : List Bytes) : Store := ks.foldl (fun s k => (s.delete k).2) s

/-- `n` sweeps at times from `now` on, whatever the order of iteration. -/
inductive Swept (now : ℤ) : ℕ → Store → Store → Prop where
  | none (s : Store) : Swept now 0 s s
  | sweep {n : ℕ} {s t : Store} {later : ℤ} {order : List Bytes} (hlater : now ≤ later)
      (ho : order.Perm s.expires.keys)
      (rest : Swept now n (s.reclaimExpired later Engine.expirationSample order).2 t) :
      Swept now (n + 1) s t

variable {s t : Store} {now later : ℤ} {k : Bytes}

/-! ## What a sweep leaves -/

theorem expires_deleteAll (ks : List Bytes) (s : Store) (k : Bytes) :
    (s.deleteAll ks).expires.lookup k = if k ∈ ks then none else s.expires.lookup k := by
  induction ks generalizing s with
  | nil => rfl
  | cons key ks ih =>
    have hcons : s.deleteAll (key :: ks) = (s.delete key).2.deleteAll ks := rfl
    rw [hcons, ih]
    by_cases hk : k = key
    · subst hk
      simp [delete]
    · simp [delete, hk, AList.lookup_erase_ne hk]

theorem expired_congr (h : t.expires.lookup k = s.expires.lookup k) (now : ℤ) :
    t.expired k now = s.expired k now := by
  simp only [expired, h]

private theorem expired_mono (hle : now ≤ later) (h : s.expired k now = true) :
    s.expired k later = true := by
  unfold expired at h ⊢
  cases hd : s.expires.lookup k with
  | none => simp [hd] at h
  | some deadline =>
    simp only [hd, Bool.not_eq_true', decide_eq_false_iff_not] at h ⊢
    omega

/-- The first so many keys are examined, and those past their deadline are deleted. -/
theorem reclaimLoop_eq (now : ℤ) (limit : ℕ) (ks : List Bytes) (s : Store) (removed examined : ℕ)
    (hnodup : ks.Nodup) (hks : ∀ k ∈ ks, k ∈ s.expires) (hle : examined ≤ limit) :
    (reclaimLoop now limit ks s removed examined).2 =
      s.deleteAll ((ks.take (limit - examined)).filter (s.expired · now)) := by
  induction ks generalizing s removed examined with
  | nil => simp [reclaimLoop, deleteAll]
  | cons key ks ih =>
    obtain ⟨hkey, hnodup⟩ := List.nodup_cons.mp hnodup
    obtain ⟨hmem, hks⟩ := List.forall_mem_cons.mp hks
    unfold reclaimLoop
    split_ifs with hlim
    · simp [hlim, deleteAll]
    · obtain ⟨deadline, hd⟩ := Option.isSome_iff_exists.mp (AList.lookup_isSome.mpr hmem)
      have htake : limit - examined = limit - (examined + 1) + 1 := by omega
      have hdue : s.expired key now = !decide (now < deadline) := by simp only [expired, hd]
      simp only [hd]
      rw [htake, List.take_succ_cons]
      split_ifs with hlt
      · have hfilter : s.expired key now = false := by simp [hdue, hlt]
        rw [ih s removed (examined + 1) hnodup hks (by omega),
          List.filter_cons_of_neg (by simp [hfilter])]
      · have hfilter : s.expired key now = true := by simp [hdue, hlt]
        -- The deletion touches none of the keys to come.
        have hsame : ∀ k ∈ ks, (s.delete key).2.expires.lookup k = s.expires.lookup k := by
          intro k hk
          have hne : k ≠ key := fun heq => hkey (heq ▸ hk)
          exact AList.lookup_erase_ne hne
        have hrest : ∀ k ∈ ks, k ∈ (s.delete key).2.expires := by
          intro k hk
          rw [← AList.lookup_isSome, hsame k hk]
          exact AList.lookup_isSome.mpr (hks k hk)
        rw [ih _ _ _ hnodup hrest (by omega), List.filter_cons_of_pos (by simp [hfilter])]
        have hpicked : (ks.take (limit - (examined + 1))).filter ((s.delete key).2.expired · now) =
            (ks.take (limit - (examined + 1))).filter (s.expired · now) := by
          refine List.filter_congr fun k hk => ?_
          exact expired_congr (hsame k (List.mem_of_mem_take hk)) now
        rw [hpicked]
        rfl

theorem countP_split (l : List Bytes) (n : ℕ) (p : Bytes → Bool) :
    l.countP p = (l.take n).countP p + (l.drop n).countP p := by
  rw [← List.countP_append, List.take_append_drop]

def picked (s : Store) (now : ℤ) (order : List Bytes) : List Bytes :=
  (order.take Engine.expirationSample).filter (s.expired · now)

section Sweep

variable {order : List Bytes} (ho : order.Perm s.expires.keys)
include ho

theorem nodup_order : order.Nodup := ho.nodup_iff.mpr s.expires.keys_nodup

theorem reclaimExpired_eq (later : ℤ) :
    (s.reclaimExpired later Engine.expirationSample order).2 =
      s.deleteAll (s.picked later order) := by
  refine reclaimLoop_eq later _ order s 0 0 (nodup_order ho) (fun k hk => ?_) (Nat.zero_le _)
  exact AList.mem_keys.mpr (ho.mem_iff.mp hk)

private theorem perm_deleteAll (ks : List Bytes) :
    (s.deleteAll ks).expires.keys.Perm (order.filter (· ∉ ks)) := by
  refine (List.perm_ext_iff_of_nodup (s.deleteAll ks).expires.keys_nodup
    ((nodup_order ho).filter _)).mpr fun k => ?_
  rw [← AList.mem_keys, ← AList.lookup_isSome, expires_deleteAll, List.mem_filter, ho.mem_iff,
    ← AList.mem_keys, ← AList.lookup_isSome]
  by_cases hk : k ∈ ks <;> simp [hk]

/-- Counting what is left is counting, in what was there, the keys that are not deleted. -/
theorem countP_deleteAll (ks : List Bytes) (f : Bool → Bool) (now : ℤ) :
    (s.deleteAll ks).expires.keys.countP (fun k => f ((s.deleteAll ks).expired k now)) =
      (order.filter (· ∉ ks)).countP (fun k => f (s.expired k now)) := by
  rw [(perm_deleteAll ho ks).countP_eq]
  refine List.countP_congr fun k hk => ?_
  obtain ⟨-, hk⟩ := List.mem_filter.mp hk
  rw [expired_congr (s := s)]
  rw [expires_deleteAll, if_neg (by simpa using hk)]

/-- What had expired by `now` is among the keys that were not examined. -/
theorem overdue_sweep (hlater : now ≤ later) :
    (s.reclaimExpired later Engine.expirationSample order).2.overdue now =
      (order.drop Engine.expirationSample).countP (s.expired · now) := by
  rw [reclaimExpired_eq ho, overdue]
  refine (countP_deleteAll ho _ id now).trans ?_
  rw [List.countP_filter, countP_split order Engine.expirationSample]
  have hnodup := nodup_order ho
  rw [← List.take_append_drop Engine.expirationSample order] at hnodup
  have hapart := (List.nodup_append.mp hnodup).2.2
  have hexamined : (order.take Engine.expirationSample).countP
      (fun k => id (s.expired k now) && decide (k ∉ s.picked later order)) = 0 := by
    refine List.countP_eq_zero.mpr fun k hk => ?_
    rw [Bool.and_eq_true, decide_eq_true_eq, not_and, not_not]
    exact fun hdue => List.mem_filter.mpr ⟨hk, expired_mono hlater hdue⟩
  rw [hexamined, Nat.zero_add]
  refine List.countP_congr fun k hk => ?_
  have hnot : k ∉ s.picked later order := fun hp =>
    hapart k (List.mem_of_mem_filter hp) k hk rfl
  simp [hnot]

private theorem upcoming_sweep (now later : ℤ) :
    (s.reclaimExpired later Engine.expirationSample order).2.upcoming now ≤ s.upcoming now := by
  rw [reclaimExpired_eq ho, upcoming, countP_deleteAll ho _ (! ·), upcoming, ← ho.countP_eq]
  exact List.filter_sublist.countP_le

/-- A sweep reclaims what it examines, less what is still to come. -/
theorem overdue_sweep_le (hlater : now ≤ later) :
    (s.reclaimExpired later Engine.expirationSample order).2.overdue now ≤
      s.overdue now - (Engine.expirationSample - s.upcoming now) := by
  rw [overdue_sweep ho hlater, overdue, upcoming, ← ho.countP_eq, ← ho.countP_eq]
  have hexamined := (order.take Engine.expirationSample).length_eq_countP_add_countP
    (s.expired · now)
  rw [List.length_take] at hexamined
  have hdue := countP_split order Engine.expirationSample (s.expired · now)
  have hcoming := countP_split order Engine.expirationSample (!s.expired · now)
  have hnot : (order.take Engine.expirationSample).countP
        (fun k => decide ¬s.expired k now = true) =
      (order.take Engine.expirationSample).countP (!s.expired · now) :=
    List.countP_congr fun k _ => by simp
  rcases le_total order.length Engine.expirationSample with hall | hmore
  · rw [List.drop_eq_nil_of_le hall]
    exact Nat.zero_le _
  · rw [min_eq_left hmore] at hexamined
    omega

end Sweep

/-! ## Runs of sweeps -/

theorem overdue_swept {n : ℕ} (h : Swept now n s t) :
    t.overdue now ≤ s.overdue now - n * (Engine.expirationSample - s.upcoming now) := by
  induction h with
  | none s => simp
  | @sweep n s t later order hlater ho rest ih =>
    have hone := overdue_sweep_le ho hlater
    have hcoming := Nat.sub_le_sub_left (upcoming_sweep ho now later) Engine.expirationSample
    have hmany := Nat.mul_le_mul_left n hcoming
    rw [Nat.add_mul, Nat.one_mul]
    omega

/-- A sweep leaves an entry as it was or takes all of it away. -/
theorem entry_swept {n : ℕ} (h : Swept now n s t) (k : Bytes) :
    t.entry k = s.entry k ∨ t.entry k = none := by
  induction h with
  | none s => exact .inl rfl
  | sweep hlater ho rest ih =>
    rw [reclaimExpired_eq ho, deleteAll, entry_deleteAll] at ih
    split_ifs at ih
    · exact .inr (ih.elim id id)
    · exact ih

/-- Nothing overdue is left, so what had expired is gone from both maps. -/
theorem notMem_of_overdue {n : ℕ} (h : Swept now n s t) (hzero : t.overdue now = 0)
    (hk : s.expired k now = true) : k ∉ t.data := by
  rcases entry_swept h k with hsame | hnone
  · have hdue : t.expired k now = true := by rw [expired_eq, hsame, ← expired_eq, hk]
    have hmem : k ∈ t.expires.keys := by
      rw [← AList.mem_keys, ← AList.lookup_isSome]
      unfold expired at hdue
      cases hd : t.expires.lookup k with
      | none => simp [hd] at hdue
      | some deadline => rfl
    exact absurd hdue (List.countP_eq_zero.mp hzero k hmem)
  · exact entry_eq_none_iff.mp hnone

/-- An order in which a sweep comes upon nothing that has expired. -/
theorem exists_idle_sweep (hfull : Engine.expirationSample ≤ s.upcoming now) :
    ∃ order, order.Perm s.expires.keys ∧
      (s.reclaimExpired now Engine.expirationSample order).2 = s := by
  have hperm : (s.expires.keys.filter (!s.expired · now) ++
      s.expires.keys.filter (s.expired · now)).Perm s.expires.keys :=
    List.perm_append_comm.trans (List.filter_append_perm (s.expired · now) _)
  have hnone : s.picked now (s.expires.keys.filter (!s.expired · now) ++
      s.expires.keys.filter (s.expired · now)) = [] := by
    rw [upcoming, List.countP_eq_length_filter] at hfull
    rw [picked, List.take_append_of_le_length hfull, List.filter_eq_nil_iff]
    intro k hk
    simpa using (List.mem_filter.mp (List.mem_of_mem_take hk)).2
  refine ⟨_, hperm, ?_⟩
  rw [reclaimExpired_eq hperm, hnone]
  rfl

theorem swept_idle (hfull : Engine.expirationSample ≤ s.upcoming now) (n : ℕ) :
    Swept now n s s := by
  obtain ⟨order, ho, hidle⟩ := exists_idle_sweep hfull
  induction n with
  | zero => exact .none s
  | succ n ih => exact .sweep le_rfl ho (hidle.symm ▸ ih)

end Store

end GoKv
