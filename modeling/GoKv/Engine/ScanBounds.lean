import GoKv.Engine.ScanTraversal

/-! The bounds on scan sessions: how many there are, what they retain, and how a list is cut into
pages. -/
namespace GoKv
open GoLib

/-! ## Sizes -/

theorem scanSaturatingAdd_eq {a : ℕ} (ha : a ≤ maxUint64) (b : ℕ) :
    scanSaturatingAdd a b = min maxUint64 (a + b) := by
  unfold scanSaturatingAdd addUint64 maxUint64 at *
  split_ifs <;> omega

private theorem scanSaturatingMultiply_eq (a b : ℕ) :
    scanSaturatingMultiply a b = min maxUint64 (a * b) := by
  unfold scanSaturatingMultiply
  by_cases ha : a = 0
  · simp [ha]
  have hdiv : maxUint64 / a < b ↔ maxUint64 < a * b := by
    rw [Nat.div_lt_iff_lt_mul (Nat.pos_of_ne_zero ha), mul_comm]
  by_cases hlt : maxUint64 < a * b
  · rw [if_pos ⟨ha, hdiv.mpr hlt⟩]
    omega
  · rw [if_neg fun hc => hlt (hdiv.mp hc.2)]
    unfold maxUint64 at *
    omega

def KeySlice.total (keys : KeySlice) : ℕ := (keys.list.map List.length).sum

private theorem foldl_scanSaturatingAdd (keys : List Bytes) (acc : ℕ) (hacc : acc ≤ maxUint64) :
    keys.foldl (fun n key => scanSaturatingAdd n key.length) acc =
      min maxUint64 (acc + (keys.map List.length).sum) := by
  induction keys generalizing acc with
  | nil => simp [hacc]
  | cons key keys ih =>
    rw [List.foldl_cons, scanSaturatingAdd_eq hacc, ih _ (min_le_left _ _), List.map_cons,
      List.sum_cons]
    omega

private theorem scanSessionBytes_eq (keys : KeySlice) (pattern : Bytes) :
    scanSessionBytes keys pattern =
      min maxUint64 (16 * keys.cap + keys.total + pattern.length + 64) := by
  unfold scanSessionBytes scanSessionRetainedBytes scanSessionOverhead scanStringBytes
  dsimp only
  rw [foldl_scanSaturatingAdd _ _ (Nat.zero_le _), scanSaturatingMultiply_eq,
    scanSaturatingAdd_eq (min_le_left _ _), scanSaturatingAdd_eq (min_le_left _ _),
    scanSaturatingAdd_eq (min_le_left _ _)]
  unfold KeySlice.total
  omega

/-! ## The table -/

namespace ScanManager

def retained (sessions : AList fun _ : ℕ => ScanSession) : ℕ :=
  (sessions.entries.map fun e => e.2.bytes).sum

theorem erase_split {sessions : AList fun _ : ℕ => ScanSession} {token : ℕ} {s : ScanSession}
    (h : sessions.lookup token = some s) :
    sessions.entries.length = (sessions.erase token).entries.length + 1 ∧
    retained sessions = retained (sessions.erase token) + s.bytes := by
  have hmem : token ∈ sessions.entries.keys := AList.lookup_isSome.mp (by rw [h]; rfl)
  obtain ⟨b, l₁, l₂, -, hl, hk⟩ := List.exists_of_kerase hmem
  have hb : b = s := by
    have hin : (⟨token, b⟩ : Sigma fun _ : ℕ => ScanSession) ∈ sessions.entries := by
      rw [hl]; simp
    have := AList.mem_lookup_iff.mpr hin
    rw [h] at this
    exact (Option.some.inj this).symm
  subst hb
  have he : (sessions.erase token).entries = l₁ ++ l₂ := hk
  unfold retained
  rw [he, hl]
  simp
  omega

private theorem retained_insert {sessions : AList fun _ : ℕ => ScanSession} {token : ℕ}
    (h : token ∉ sessions) (s : ScanSession) :
    (sessions.insert token s).entries.length = sessions.entries.length + 1 ∧
    retained (sessions.insert token s) = retained sessions + s.bytes := by
  unfold retained
  rw [AList.entries_insert_of_notMem h]
  simp [add_comm]

end ScanManager

structure ScanSession.Kept (s : ScanSession) (token : ℕ) : Prop where
  nonzero : token ≠ 0
  token_eq : s.token = token
  started : 0 < s.position
  unfinished : s.position < s.keys.list.length
  bytes_eq : s.bytes = min (2 ^ 64 - 1) (16 * s.keys.cap + s.keys.total + s.pattern.length + 64)

/-- The manager is within its bounds and its counter is exact. -/
structure ScanManager.Bounded (m : ScanManager) : Prop where
  held : (m.sessions.entries.length : ℤ) ≤ max 0 m.limits.maxSessions
  exact_sum : m.bytes = retained m.sessions
  within : m.bytes ≤ m.limits.maxBytes
  kept : ∀ token s, m.sessions.lookup token = some s → s.Kept token

namespace ScanManager

variable {m m' : ScanManager}

theorem bounded_new (limits : ScanLimits) : (new limits).Bounded where
  held := le_max_left _ _
  exact_sum := rfl
  within := Nat.zero_le _
  kept _ _ h := by
    rw [show (new limits).sessions = ∅ from rfl, AList.lookup_empty] at h
    cases h

private theorem bounded_clear (m : ScanManager) : m.clear.Bounded := bounded_new m.limits

theorem Bounded.bytes_le (h : m.Bounded) {token : ℕ} {s : ScanSession}
    (hs : m.sessions.lookup token = some s) : s.bytes ≤ m.bytes := by
  rw [h.exact_sum, (erase_split hs).2]
  omega

theorem Bounded.bytes_removeLocked (h : m.Bounded) {token : ℕ} {s : ScanSession}
    (hs : m.sessions.lookup token = some s) :
    (m.removeLocked token s).bytes + s.bytes = m.bytes := by
  have hle := h.bytes_le hs
  have hmax := m.limits.maxBytes_le
  have hwithin := h.within
  change subUint64 m.bytes s.bytes + s.bytes = m.bytes
  unfold subUint64 maxUint64 at *
  omega

theorem Bounded.removeLocked (h : m.Bounded) {token : ℕ} {s : ScanSession}
    (hs : m.sessions.lookup token = some s) : (m.removeLocked token s).Bounded := by
  obtain ⟨hlen, hsum⟩ := erase_split hs
  have hback := h.bytes_removeLocked hs
  have hwithin := h.within
  have hexact := h.exact_sum
  refine ⟨?_, ?_, ?_, fun c s' hs' => ?_⟩
  · have := h.held
    change ((m.sessions.erase token).entries.length : ℤ) ≤ max 0 m.limits.maxSessions
    omega
  · change (m.removeLocked token s).bytes = retained (m.sessions.erase token)
    omega
  · change (m.removeLocked token s).bytes ≤ m.limits.maxBytes
    omega
  · change (m.sessions.erase token).lookup c = some s' at hs'
    by_cases hc : c = token
    · rw [hc, AList.lookup_erase] at hs'
      cases hs'
    · rw [AList.lookup_erase_ne hc] at hs'
      exact h.kept c s' hs'

theorem Bounded.expireOne (h : m.Bounded) (now : ℤ) (token : ℕ) :
    (expireOne now m token).Bounded := by
  unfold ScanManager.expireOne
  cases hs : m.sessions.lookup token with
  | none => exact h
  | some s =>
    dsimp only
    split_ifs
    · exact h
    · exact h.removeLocked hs

theorem Bounded.expireLocked (h : m.Bounded) (now : ℤ) (seen : List ℕ) :
    (m.expireLocked now seen).Bounded := by
  unfold ScanManager.expireLocked
  induction seen generalizing m with
  | nil => exact h
  | cons token seen ih => exact ih (h.expireOne now token)

end ScanManager

def ScanCall.Counts : ScanCall → Prop
  | .start _ _ count _ _ _ | .next _ _ _ count _ _ _ => 1 ≤ count
  | .clear => True

instance : DecidablePred ScanCall.Counts
  | .start .. | .next .. => inferInstanceAs (Decidable (1 ≤ _))
  | .clear => inferInstanceAs (Decidable True)

theorem scanPageEnd_of_ne {start length count : ℕ} (hs : scanPageEnd start length count ≠ length) :
    scanPageEnd start length count = start + count ∧ start + count < length := by
  unfold scanPageEnd at hs ⊢
  split_ifs at hs ⊢ with hle
  · exact absurd rfl hs
  · exact ⟨rfl, by omega⟩

namespace ScanManager

variable {m m' : ScanManager}

theorem Bounded.insert (h : m.Bounded) {token : ℕ} {s : ScanSession} (hnew : token ∉ m.sessions)
    (hkept : s.Kept token) (hsize : (m.sessions.entries.length : ℤ) < max 0 m.limits.maxSessions)
    (hroom : m.bytes + s.bytes ≤ m.limits.maxBytes) :
    Bounded { m with sessions := m.sessions.insert token s, bytes := m.bytes + s.bytes } := by
  obtain ⟨hlen, hsum⟩ := retained_insert hnew s
  refine ⟨?_, ?_, hroom, fun c s' hs' => ?_⟩
  · dsimp only
    omega
  · dsimp only
    rw [hsum, h.exact_sum]
  · dsimp only at hs'
    by_cases hc : c = token
    · rw [hc, AList.lookup_insert] at hs'
      cases hs'
      exact hc ▸ hkept
    · rw [AList.lookup_insert_ne hc] at hs'
      exact h.kept c s' hs'

theorem inside_of_scanPageEnd {start length count : ℕ} (hcount : 1 ≤ count)
    (hs : scanPageEnd start length count ≠ length) :
    0 < scanPageEnd start length count ∧ scanPageEnd start length count < length := by
  obtain ⟨hend, hlt⟩ := scanPageEnd_of_ne hs
  omega

theorem Bounded.move (h : m.Bounded) {call : ScanCall} {res : Option (Except ScanErr ScanResult)}
    (hm : Moves m call m' res) (hcount : call.Counts) : m'.Bounded := by
  cases hm with
  | whole | refused | failed => exact h.expireLocked _ _
  | @opened keys pattern count now order draws token ho hstop hsize hbytes hroom hz hnew =>
    have hE := h.expireLocked now order
    have hmax := m.limits.maxBytes_le
    have hadd : addUint64 (m.expireLocked now order).bytes (scanSessionBytes keys pattern) =
        (m.expireLocked now order).bytes + scanSessionBytes keys pattern := by
      unfold addUint64 maxUint64 at *
      omega
    obtain ⟨hpos, hlt⟩ := inside_of_scanPageEnd hcount hstop
    rw [hadd]
    rw [← limits_expireLocked m now order] at hsize hbytes hroom
    exact hE.insert hnew ⟨hz, rfl, hpos, hlt, scanSessionBytes_eq keys pattern⟩
      (lt_max_of_lt_right hsize) (by dsimp only; omega)
  | finished ho hs => exact (h.expireLocked _ _).removeLocked hs
  | @turned cursor pattern patternSet count now order draws s token ho hs hstop hz hnew =>
    -- the session is taken out and put back under its new cursor, at the same size
    have hE := h.expireLocked now order
    have hR := hE.removeLocked hs
    have hback := hE.bytes_removeLocked hs
    obtain ⟨hpos, hlt⟩ := inside_of_scanPageEnd hcount hstop
    obtain ⟨hlen, -⟩ := erase_split hs
    have hnew' : token ∉ (m.expireLocked now order).sessions.erase cursor :=
      fun hc => hnew (AList.mem_erase.mp hc).2
    have hput := hR.insert hnew' (s := { s with
        position := scanPageEnd s.position s.keys.list.length count
        lastUsed := now
        token := token })
      ⟨hz, rfl, hpos, hlt, (hE.kept cursor s hs).bytes_eq⟩ ?_ ?_
    · dsimp only at hput
      rwa [hback] at hput
    · have := hE.held
      change (((m.expireLocked now order).sessions.erase cursor).entries.length : ℤ) <
        max 0 (m.expireLocked now order).limits.maxSessions
      omega
    · dsimp only
      rw [hback]
      exact hE.within
  | cleared => exact bounded_clear m

theorem Bounded.run (h : m.Bounded) {log : List ScanEntry} (hrun : ScanRuns m log m')
    (hcounts : ∀ e ∈ log, e.call.Counts) : m'.Bounded := by
  induction hrun with
  | nil => exact h
  | @cons m m₁ m' e log step rest ih =>
    exact ih (h.move (moves_of_step step) (hcounts e List.mem_cons_self))
      fun e' he' => hcounts e' (List.mem_cons_of_mem _ he')

private theorem limits_move {call : ScanCall} {res : Option (Except ScanErr ScanResult)}
    (hm : Moves m call m' res) : m'.limits = m.limits := by
  cases hm with
  | whole | refused | opened | failed | turned => exact limits_expireLocked ..
  | finished => exact limits_expireLocked ..
  | cleared => rfl

theorem limits_run {log : List ScanEntry} (hrun : ScanRuns m log m') : m'.limits = m.limits := by
  induction hrun with
  | nil => rfl
  | cons step _ ih => rw [ih, limits_move (moves_of_step step)]

/-! ## Pages -/

/-- A continuation that succeeds returns at least one key. -/
theorem Bounded.page_ne_nil (h : m.Bounded) {call : ScanCall} {r : ScanResult} {c : ℕ}
    (hm : Moves m call m' (some (.ok r))) (hcall : call.continues = some c)
    (hcount : call.Counts) : r.keys ≠ [] := by
  cases hm with
  | whole | opened => cases hcall
  | @finished cursor _ _ _ now order _ s ho hs =>
    have hkept := (h.expireLocked now order).kept cursor s hs
    have := hkept.unfinished
    exact List.ne_nil_of_length_pos (by rw [List.length_drop]; omega)
  | @turned cursor _ _ count now order _ s token ho hs hstop =>
    obtain ⟨hend, hlt⟩ := scanPageEnd_of_ne hstop
    have hpos : 1 ≤ count := hcount
    refine List.ne_nil_of_length_pos ?_
    rw [List.length_drop, List.length_take, hend]
    omega

/-- A session is read in at most as many pages as it has keys left. -/
theorem Bounded.pages_le (h : m.Bounded) {log : List ScanEntry} {c last : ℕ}
    {pages : List (List Bytes)} (hr : Reads log c pages last) (hrun : ScanRuns m log m')
    (hcounts : ∀ e ∈ log, e.call.Counts) :
    pages = [] ∨ ∃ s, m.sessions.lookup c = some s ∧
      pages.length ≤ s.keys.list.length - s.position := by
  induction hr generalizing m with
  | stop => exact .inl rfl
  | skip hne _ ih =>
    cases hrun with
    | cons step rest =>
      have hmoves := moves_of_step step
      rcases ih (h.move hmoves (hcounts _ List.mem_cons_self)) rest
        fun e' he' => hcounts e' (List.mem_cons_of_mem _ he') with hnil | ⟨s, hs, hle⟩
      · exact .inl hnil
      · rcases hmoves.kept_or_gone hne with hk | hg
        · exact .inr ⟨s, hk ▸ hs, hle⟩
        · rw [hg] at hs
          cases hs
  | @page log c last pages e r hz hcall hres hrest ih =>
    cases hrun with
    | cons step rest =>
      have hmoves := moves_of_step step
      have hcount := hcounts _ List.mem_cons_self
      have hnext := ih (h.move hmoves hcount) rest
        fun e' he' => hcounts e' (List.mem_cons_of_mem _ he')
      rw [hres] at hmoves
      obtain ⟨s, hs, -, hpage⟩ := hmoves.page hcall
      have hleft := (h.kept c s hs).unfinished
      refine .inr ⟨s, hs, ?_⟩
      rw [List.length_cons]
      rcases hnext with rfl | ⟨s'', hs'', hle⟩
      · rw [List.length_nil]
        omega
      · rcases hpage with ⟨hlast, -⟩ | ⟨s', -, hs', hsame, hsplit⟩
        · rw [hlast] at hrest
          rw [hrest.zero, List.length_nil]
          omega
        · cases hs'.symm.trans hs''
          -- a page that goes on has a key, and the rest of the list is what follows it
          have hpos := List.length_pos_iff.mpr (h.page_ne_nil hmoves hcall hcount)
          have hlen := congrArg List.length hsplit
          rw [List.length_append, List.length_drop, List.length_drop] at hlen
          rw [hsame] at hle
          omega

theorem Bounded.start_pages_le (h : m.Bounded) {keys : KeySlice} {pattern : Bytes} {count : ℕ}
    {now : ℤ} {order : List ℕ} {draws : List (Option ℕ)} {m₁ m' : ScanManager} {r : ScanResult}
    {log : List ScanEntry} {pages : List (List Bytes)} {last : ℕ}
    (hstart : Moves m (.start keys pattern count now order draws) m₁ (some (.ok r)))
    (hcount : 1 ≤ count) (hr : Reads log r.cursor pages last) (hrun : ScanRuns m₁ log m')
    (hcounts : ∀ e ∈ log, e.call.Counts) :
    (r.keys :: pages).length ≤ max 1 keys.list.length := by
  have h₁ := h.move hstart hcount
  rw [List.length_cons]
  rcases h₁.pages_le hr hrun hcounts with rfl | ⟨s, hs, hle⟩
  · exact le_max_left _ _
  · cases hstart with
    | whole =>
      rw [hr.zero]
      exact le_max_left _ _
    | opened =>
      have hstarted := (h₁.kept _ s hs).started
      dsimp only at hs
      rw [AList.lookup_insert] at hs
      cases hs
      dsimp only at hle hstarted
      omega

end ScanManager

open ScanManager

/-- Whatever is called and however the clock moves, the manager is within its bounds and its
counter exact, also between two steps of an expiry; adding and removing a session neither wraps the
counter around nor takes it below zero. A continuation returns a key, so that a list is read in at
most as many pages as it has keys, one for the empty list. A refused start only removes sessions
whose deadline has passed. -/
theorem scan_bounds {limits : ScanLimits} {log : List ScanEntry} {m : ScanManager}
    (hrun : ScanRuns (.new limits) log m) (hcounts : ∀ e ∈ log, e.call.Counts) :
    m.limits = limits ∧ m.Bounded ∧
    (∀ now seen, (m.expireLocked now seen).Bounded ∧
      ∀ token s, (m.expireLocked now seen).sessions.lookup token = some s →
        s.bytes ≤ (m.expireLocked now seen).bytes) ∧
    (∀ keys pattern count now order draws m' e r,
      m.step (.start keys pattern count now order draws) = some (m', e) →
      e.result = some (.ok r) → r.cursor ≠ 0 →
      m'.bytes = (m.expireLocked now order).bytes + scanSessionBytes keys pattern) ∧
    (∀ cursor pattern patternSet count now order draws m' e r, 1 ≤ count →
      m.step (.next cursor pattern patternSet count now order draws) = some (m', e) →
      e.result = some (.ok r) → r.keys ≠ []) ∧
    (∀ pre keys pattern count now order draws r post pages last,
      log = pre ++ ⟨.start keys pattern count now order draws, some (.ok r)⟩ :: post →
      Reads post r.cursor pages last → (r.keys :: pages).length ≤ max 1 keys.list.length) ∧
    ∀ keys pattern count now order draws m' e err,
      m.step (.start keys pattern count now order draws) = some (m', e) →
      e.result = some (.error err) →
      m'.limits = m.limits ∧
      ∀ token s, m'.sessions.lookup token = some s ↔
        m.sessions.lookup token = some s ∧ s.fresh m.limits now = true := by
  have hm : m.Bounded := (bounded_new limits).run hrun hcounts
  refine ⟨limits_run hrun, hm, ?_, ?_, ?_, ?_, ?_⟩
  · intro now seen
    have hmid := hm.expireLocked now seen
    exact ⟨hmid, fun token s hs => hmid.bytes_le hs⟩
  · intro keys pattern count now order draws m' e r hstep hres hz
    have hmoves := moves_of_step hstep
    rw [hres] at hmoves
    cases hmoves with
    | whole => exact absurd rfl hz
    | opened ho hstop hsize hbytes hroom =>
      have hmax := m.limits.maxBytes_le
      unfold addUint64 maxUint64 at *
      dsimp only
      omega
  · intro cursor pattern patternSet count now order draws m' e r hcount hstep hres
    have hmoves := moves_of_step hstep
    rw [hres] at hmoves
    exact hm.page_ne_nil hmoves rfl hcount
  · rintro pre keys pattern count now order draws r post pages last rfl hr
    obtain ⟨m₁, hpre, hpost⟩ := ScanRuns.append_iff.mp hrun
    have h₁ := (bounded_new limits).run hpre fun e he => hcounts e (List.mem_append_left _ he)
    have hpost' := fun e he => hcounts e (List.mem_append_right pre he)
    cases hpost with
    | cons step rest =>
      exact h₁.start_pages_le (moves_of_step step) (hpost' _ List.mem_cons_self) hr rest
        fun e he => hpost' e (List.mem_cons_of_mem _ he)
  · intro keys pattern count now order draws m' e err hstep hres
    have hmoves := moves_of_step hstep
    rw [hres] at hmoves
    cases hmoves with
    | refused ho => exact ⟨limits_expireLocked .., fun token s => lookup_expireLocked ho⟩

/-- Three keys read one at a time, in three pages. -/
theorem scan_bounds_trip : ∃ m, ScanRuns (.new defaultScanSessionLimits) scanTrip m ∧
    (∀ e ∈ scanTrip, e.call.Counts) ∧ m.Bounded ∧
    ([[[97]], [[98]], [[99]]] : List (List Bytes)).length ≤ 3 := by
  have hrun : ∃ m, ScanRuns (.new defaultScanSessionLimits) scanTrip m :=
    ⟨_, .cons rfl (.cons rfl (.cons rfl (.cons rfl (.cons rfl (.nil _)))))⟩
  have hcounts : ∀ e ∈ scanTrip, e.call.Counts := by decide
  obtain ⟨m, hrun⟩ := hrun
  obtain ⟨-, hm, -, -, -, hpages, -⟩ := scan_bounds hrun hcounts
  refine ⟨m, hrun, hcounts, hm, ?_⟩
  refine hpages [] _ _ _ _ _ _ _ _ [[[98]], [[99]]] 0 rfl ?_
  exact .skip (by decide) (.page (c := 7) (r := ⟨9, [[98]]⟩) (by decide) rfl rfl
    (.page (c := 9) (r := ⟨0, [[99]]⟩) (by decide) rfl rfl (.stop _ _)))

/-- The empty list takes a page, and a negative limit is exceeded by no session at all. -/
theorem scan_bounds_edges :
    (∃ m, ScanRuns (.new defaultScanSessionLimits)
      [⟨.start ⟨[], 0, le_rfl⟩ [42] 1 0 [] [], some (.ok ⟨0, []⟩)⟩] m ∧
      Reads [] 0 [] 0 ∧
      ¬ ([[]] : List (List Bytes)).length ≤ ([] : List Bytes).length) ∧
    ∃ m, ScanRuns (.new { defaultScanSessionLimits with maxSessions := -1 }) [] m ∧
      ¬ (m.sessions.entries.length : ℤ) ≤ m.limits.maxSessions :=
  ⟨⟨_, .cons rfl (.nil _), .stop _ _, by decide⟩, _, .nil _, by decide⟩

end GoKv
