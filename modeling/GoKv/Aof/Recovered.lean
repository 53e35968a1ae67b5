import GoKv.Aof.Recovery

/-! The recovered view does not depend on when recovery ran. Two replays of one file at different
instants agree on everything a later read can see, and the last record that mentions a key decides
what is held for it. -/
namespace GoKv.Aof
open GoLib

def Record.keys : Record → List Bytes
  | .set key _ _ => [key]
  | .del keys => keys

def Record.leaves (now : ℤ) : Record → Option (Bytes × Option ℤ)
  | .set _ value ms => liveAt now (some (value, ms.map ofUnixMilli))
  | .del _ => none

theorem entry_apply_eq (r : Record) (now : ℤ) (dst : Store) (k : Bytes) :
    (apply r now dst).entry k = if k ∈ r.keys then r.leaves now else dst.entry k := by
  rcases r with ⟨key, value, _ | ms⟩ | keys
  · rw [apply, Store.entry_set]
    simp [Record.keys, Record.leaves]
  · by_cases hlt : now < ofUnixMilli ms
    · rw [apply, if_pos hlt, Store.entry_set]
      simp [Record.keys, Record.leaves, liveAt_some, hlt]
    · rw [apply, if_neg hlt, Store.entry_delete]
      simp [Record.keys, Record.leaves, liveAt_some, hlt]
  · rw [apply, Store.entry_deleteAll]
    rfl

theorem entry_applyAll_of_notMem {rs : List Record} {k : Bytes} (h : ∀ r ∈ rs, k ∉ r.keys)
    (now : ℤ) (dst : Store) : (applyAll now dst rs).entry k = dst.entry k := by
  induction rs generalizing dst with
  | nil => rfl
  | cons r rs ih =>
    obtain ⟨hr, hrs⟩ := List.forall_mem_cons.mp h
    have hstep : (apply r now dst).entry k = dst.entry k := by
      rw [entry_apply_eq, if_neg hr]
    exact (ih hrs (apply r now dst)).trans hstep

/-- The last record that mentions a key decides what is held for it. -/
theorem entry_applyAll_last {before after : List Record} {r : Record} {k : Bytes} (hr : k ∈ r.keys)
    (h : ∀ q ∈ after, k ∉ q.keys) (now : ℤ) (dst : Store) :
    (applyAll now dst (before ++ r :: after)).entry k = r.leaves now := by
  have hsplit : applyAll now dst (before ++ r :: after) =
      applyAll now (apply r now (applyAll now dst before)) after := by
    simp only [applyAll, List.foldl_append, List.foldl_cons]
  rw [hsplit, entry_applyAll_of_notMem h, entry_apply_eq, if_pos hr]

/-! ## Two replays -/

/-- Two stores that a read at `t` cannot tell apart. -/
def SameView (t : ℤ) (a b : Store) : Prop := ∀ k, liveAt t (a.entry k) = liveAt t (b.entry k)

theorem SameView.get {t : ℤ} {a b : Store} (h : SameView t a b) (k : Bytes) :
    a.get k t = b.get k t := by
  rw [Store.get_eq, Store.get_eq, h k]

theorem SameView.ttl {t : ℤ} {a b : Store} (h : SameView t a b) (k : Bytes) :
    a.ttl k t = b.ttl k t := by
  rw [Store.ttl_eq, Store.ttl_eq, h k]

/-- What a record leaves at an earlier instant is, for a later read, what it leaves then: a record
that expired in between is gone in both. -/
theorem liveAt_leaves {now t : ℤ} (h : now ≤ t) (r : Record) :
    liveAt t (r.leaves now) = liveAt t (r.leaves t) := by
  cases r with
  | set key value ms => rw [Record.leaves, Record.leaves, liveAt_liveAt h, liveAt_liveAt le_rfl]
  | del keys => rfl

theorem SameView.apply {now₁ now₂ t : ℤ} (h₁ : now₁ ≤ t) (h₂ : now₂ ≤ t) {a b : Store}
    (h : SameView t a b) (r : Record) : SameView t (apply r now₁ a) (apply r now₂ b) := by
  intro k
  rw [entry_apply_eq, entry_apply_eq]
  by_cases hk : k ∈ r.keys
  · rw [if_pos hk, if_pos hk, liveAt_leaves h₁, liveAt_leaves h₂]
  · rw [if_neg hk, if_neg hk, h k]

theorem SameView.applyAll {now₁ now₂ t : ℤ} (h₁ : now₁ ≤ t) (h₂ : now₂ ≤ t) {a b : Store}
    (h : SameView t a b) (rs : List Record) :
    SameView t (applyAll now₁ a rs) (applyAll now₂ b rs) := by
  induction rs generalizing a b with
  | nil => exact h
  | cons r rs ih => exact ih (h.apply h₁ h₂ r)

/-- The record loop at two instants reads the same records, ends the same way and leaves stores
that are alike for a read after both. -/
theorem replayLoop_sameView {σ : Type*} (R : IoReader σ) {now₁ now₂ t : ℤ} (h₁ : now₁ ≤ t)
    (h₂ : now₂ ≤ t) (fuel : ℕ) (r : Resp.Reader (Counting σ)) (res : Result) {a b : Store}
    (h : SameView t a b) :
    Option.Rel (fun x y => x.result = y.result ∧ x.err = y.err ∧ SameView t x.dst y.dst)
      (replayLoop R now₁ fuel r res a) (replayLoop R now₂ fuel r res b) := by
  induction fuel generalizing r res a b with
  | zero => exact .none
  | succ fuel ih =>
    unfold replayLoop
    rcases decode (Counting.reader R) r with ⟨e | rec, r'⟩
    · refine .some ?_
      unfold replayEnd
      split_ifs
      · exact ⟨rfl, rfl, h⟩
      · exact ⟨rfl, rfl, h⟩
      · exact ⟨rfl, rfl, h⟩
    · exact ih _ _ (h.apply h₁ h₂ rec)

/-- Whatever the source holds, when Replay ran shows only to a read before that. -/
theorem replay_sameView {σ : Type*} (R : IoReader σ) {now₁ now₂ t : ℤ} (h₁ : now₁ ≤ t)
    (h₂ : now₂ ≤ t) (fuel : ℕ) (src : σ) (dst : Store) :
    Option.Rel (fun x y => x.result = y.result ∧ x.err = y.err ∧ SameView t x.dst y.dst)
      (replay R fuel src now₁ dst) (replay R fuel src now₂ dst) := by
  have hdst : SameView t dst dst := fun _ => rfl
  unfold replay
  rcases readHeader (Counting.reader R) ⟨src, 0⟩ with ⟨e | _ | _, c⟩
  · exact .some ⟨rfl, rfl, hdst⟩
  · exact replayLoop_sameView R h₁ h₂ fuel _ _ hdst
  · exact .some ⟨rfl, rfl, hdst⟩

/-- Folding any records at an instant or at a later one gives a read at the later one the same
presence, value and deadline of every key; and what is held for a key is decided by the last record
that mentions it, or is what was there before if none does. -/
theorem recovered_view (rs : List Record) (dst : Store) (t₁ t₂ : ℤ) (h : t₁ ≤ t₂) (k : Bytes) :
    (applyAll t₁ dst rs).get k t₂ = (applyAll t₂ dst rs).get k t₂ ∧
    (applyAll t₁ dst rs).ttl k t₂ = (applyAll t₂ dst rs).ttl k t₂ ∧
    liveAt t₂ ((applyAll t₁ dst rs).entry k) = liveAt t₂ ((applyAll t₂ dst rs).entry k) ∧
    (∀ now before r after, rs = before ++ r :: after → k ∈ r.keys →
      (∀ q ∈ after, k ∉ q.keys) →
      ∀ dst', (applyAll now dst rs).entry k = (apply r now dst').entry k) ∧
    ∀ now, (∀ r ∈ rs, k ∉ r.keys) → (applyAll now dst rs).entry k = dst.entry k := by
  have hview : SameView t₂ (applyAll t₁ dst rs) (applyAll t₂ dst rs) :=
    SameView.applyAll h le_rfl (fun _ => rfl) rs
  refine ⟨hview.get k, hview.ttl k, hview k, ?_, fun now hrs => ?_⟩
  · rintro now before r after rfl hr hafter dst'
    rw [entry_applyAll_last hr hafter, entry_apply_eq, if_pos hr]
  · exact entry_applyAll_of_notMem hrs now dst

/-- An older value under a record that expires between the two instants: the earlier replay still
holds the newer value, the later one holds nothing, and the older value comes back in neither. -/
theorem recovered_view_expired :
    (applyAll 0 .new [.set [107] [49] none, .set [107] [50] (some 5)]).entry [107] =
        some ([50], some 5000000) ∧
      (applyAll 5000000 .new [.set [107] [49] none, .set [107] [50] (some 5)]).entry [107] = none ∧
      (applyAll 0 .new [.set [107] [49] none, .set [107] [50] (some 5)]).get [107] 5000000 =
        (applyAll 5000000 .new [.set [107] [49] none, .set [107] [50] (some 5)]).get [107]
          5000000 :=
  ⟨by decide, by decide, (recovered_view _ .new 0 5000000 (by decide) [107]).1⟩

end GoKv.Aof
