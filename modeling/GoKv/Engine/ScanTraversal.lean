import GoKv.Engine.ScanSessions

/-! Following the cursors of a SCAN, from its first page to the cursor zero. -/
namespace GoKv
open GoLib

def ScanCall.continues : ScanCall → Option ℕ
  | .next cursor .. => some cursor
  | _ => none

/-- The cursor a call returned, if there is more to come. -/
def ScanEntry.issued (e : ScanEntry) : Option ℕ :=
  match e.result with
  | some (.ok r) => if r.cursor = 0 then none else some r.cursor
  | _ => none

def issued (log : List ScanEntry) : List ℕ := log.filterMap ScanEntry.issued

/-- The pages a client gets that holds `c` and follows each returned cursor until it gets zero.
The calls in between are those of other clients, and its own failed ones. -/
inductive ScanPages : List ScanEntry → ℕ → List (List Bytes) → Prop where
  | done (log : List ScanEntry) : ScanPages log 0 []
  | skip {log : List ScanEntry} {c : ℕ} {pages : List (List Bytes)} (e : ScanEntry)
      (rest : ScanPages log c pages) : ScanPages (e :: log) c pages
  | page {log : List ScanEntry} {c : ℕ} {pages : List (List Bytes)} {e : ScanEntry}
      {r : ScanResult} (hz : c ≠ 0) (hcall : e.call.continues = some c)
      (hres : e.result = some (.ok r)) (rest : ScanPages log r.cursor pages) :
      ScanPages (e :: log) c (r.keys :: pages)

/-- The pages read of the session `c` was issued for, up to the cursor `last`: the same, while
nobody is handed `c` again. -/
inductive Reads : List ScanEntry → ℕ → List (List Bytes) → ℕ → Prop where
  | stop (log : List ScanEntry) (c : ℕ) : Reads log c [] c
  | skip {log : List ScanEntry} {c last : ℕ} {pages : List (List Bytes)} {e : ScanEntry}
      (hne : e.issued ≠ some c) (rest : Reads log c pages last) : Reads (e :: log) c pages last
  | page {log : List ScanEntry} {c last : ℕ} {pages : List (List Bytes)} {e : ScanEntry}
      {r : ScanResult} (hz : c ≠ 0) (hcall : e.call.continues = some c)
      (hres : e.result = some (.ok r)) (rest : Reads log r.cursor pages last) :
      Reads (e :: log) c (r.keys :: pages) last

theorem ScanEntry.issued_of_ok {e : ScanEntry} {r : ScanResult} (h : e.result = some (.ok r))
    (hz : r.cursor ≠ 0) : e.issued = some r.cursor := by
  rw [issued, h]
  exact if_neg hz

theorem ScanEntry.issued_ne_zero (e : ScanEntry) : e.issued ≠ some 0 := by
  unfold issued
  split
  · split_ifs with hz
    · exact fun h => nomatch h
    · exact fun h => hz (Option.some.inj h)
  · exact fun h => nomatch h

theorem mem_issued {log : List ScanEntry} {c : ℕ} :
    c ∈ issued log ↔ ∃ e ∈ log, e.issued = some c := List.mem_filterMap

theorem issued_cons_sublist (e : ScanEntry) (log : List ScanEntry) :
    (issued log).Sublist (issued (e :: log)) :=
  (List.sublist_cons_self e log).filterMap _

theorem issued_append (pre post : List ScanEntry) :
    issued (pre ++ post) = issued pre ++ issued post := List.filterMap_append

theorem notMem_issued_of_nodup {e : ScanEntry} {log : List ScanEntry} {r : ScanResult}
    (hres : e.result = some (.ok r)) (h : (issued (e :: log)).Nodup) :
    r.cursor ∉ issued log := by
  by_cases hr : r.cursor = 0
  · rw [hr]
    intro hmem
    obtain ⟨e', -, he'⟩ := mem_issued.mp hmem
    exact e'.issued_ne_zero he'
  · rw [issued, List.filterMap_cons, e.issued_of_ok hres hr] at h
    exact (List.nodup_cons.mp h).1

/-- A source that never issues a cursor twice hands nobody a cursor that is still followed. -/
theorem ScanPages.reads {log : List ScanEntry} {c : ℕ} {pages : List (List Bytes)}
    (h : ScanPages log c pages) (hnodup : (issued log).Nodup) (hc : c ∉ issued log) :
    Reads log c pages 0 := by
  induction h with
  | done log => exact .stop log 0
  | @skip log c pages e rest ih =>
    have hsub := issued_cons_sublist e log
    refine .skip (fun he => hc (mem_issued.mpr ⟨e, List.mem_cons_self, he⟩)) ?_
    exact ih (hnodup.sublist hsub) fun hmem => hc (hsub.subset hmem)
  | page hz hcall hres rest ih =>
    exact .page hz hcall hres
      (ih (hnodup.sublist (issued_cons_sublist _ _)) (notMem_issued_of_nodup hres hnodup))

theorem Reads.zero {log : List ScanEntry} {pages : List (List Bytes)} {last : ℕ}
    (h : Reads log 0 pages last) : pages = [] := by
  generalize hc : 0 = c at h
  induction h with
  | stop log c => rfl
  | skip hne rest ih => exact ih hc
  | page hz => exact absurd hc.symm hz

/-! ## Cursors and sessions -/

namespace ScanManager

variable {m m' : ScanManager}

/-- A session lost to expiry or kept: no other way for a call not about it. -/
theorem lookup_expire_or_none {now : ℤ} {order : List ℕ} (ho : order.Perm m.sessions.keys)
    (c : ℕ) :
    (m.expireLocked now order).sessions.lookup c = m.sessions.lookup c ∨
    (m.expireLocked now order).sessions.lookup c = none := by
  cases hs : (m.expireLocked now order).sessions.lookup c with
  | none => exact .inr rfl
  | some s => exact .inl ((lookup_expireLocked ho).mp hs).1.symm

/-- A call that does not issue `c` keeps what `c` stands for or drops it. -/
theorem Moves.kept_or_gone {call : ScanCall} {e : ScanEntry} (h : Moves m call m' e.result)
    {c : ℕ} (hne : e.issued ≠ some c) :
    m'.sessions.lookup c = m.sessions.lookup c ∨ m'.sessions.lookup c = none := by
  generalize hres : e.result = res at h
  cases h with
  | whole ho | refused ho | failed ho => exact lookup_expire_or_none ho c
  | @opened _ _ _ _ _ _ token ho _ _ _ _ hz =>
    have hct : c ≠ token := fun hc => hne (by rw [e.issued_of_ok hres hz, ← hc])
    rw [AList.lookup_insert_ne hct]
    exact lookup_expire_or_none ho c
  | @finished cursor _ _ _ _ _ _ s ho hs =>
    by_cases hc : c = cursor
    · subst hc
      exact .inr (AList.lookup_erase _ _)
    · rw [removeLocked, AList.lookup_erase_ne hc]
      exact lookup_expire_or_none ho c
  | @turned cursor _ _ _ _ _ _ s token ho hs _ hz =>
    have hct : c ≠ token := fun hc => hne (by rw [e.issued_of_ok hres hz, ← hc])
    rw [AList.lookup_insert_ne hct]
    by_cases hc : c = cursor
    · subst hc
      exact .inr (AList.lookup_erase _ _)
    · rw [AList.lookup_erase_ne hc]
      exact lookup_expire_or_none ho c
  | cleared => exact .inr (AList.lookup_empty _)

/-- A page served under `c` comes from the session `c` stands for, and uses `c` up. -/
theorem Moves.page {call : ScanCall} {r : ScanResult} {c : ℕ}
    (h : Moves m call m' (some (.ok r))) (hcall : call.continues = some c) :
    ∃ s, m.sessions.lookup c = some s ∧ m'.sessions.lookup c = none ∧
      ((r.cursor = 0 ∧ r.keys = s.keys.list.drop s.position) ∨
       ∃ s', r.cursor ≠ 0 ∧ m'.sessions.lookup r.cursor = some s' ∧ s'.keys = s.keys ∧
         r.keys ++ s.keys.list.drop s'.position = s.keys.list.drop s.position) := by
  cases h with
  | whole | opened => cases hcall
  | @finished cursor _ _ _ _ _ _ s ho hs =>
    cases hcall
    exact ⟨s, ((lookup_expireLocked ho).mp hs).1, AList.lookup_erase _ _, .inl ⟨rfl, rfl⟩⟩
  | @turned cursor _ _ count _ _ _ s token ho hs hstop hz hnew =>
    cases hcall
    have hne : c ≠ token := by
      rintro rfl
      exact hnew (AList.lookup_isSome.mp (by rw [hs]; rfl))
    refine ⟨s, ((lookup_expireLocked ho).mp hs).1, ?_, .inr ⟨_, hz, AList.lookup_insert _, rfl, ?_⟩⟩
    · rw [AList.lookup_insert_ne hne]
      exact AList.lookup_erase _ _
    · have hle : s.position ≤ scanPageEnd s.position s.keys.list.length count := by
        unfold scanPageEnd at hstop ⊢
        split_ifs at hstop ⊢
        · exact absurd rfl hstop
        · omega
      change _ ++ s.keys.list.drop (scanPageEnd s.position s.keys.list.length count) = _
      generalize scanPageEnd s.position s.keys.list.length count = stop at hle
      obtain ⟨k, rfl⟩ := Nat.exists_eq_add_of_le hle
      rw [List.drop_take, Nat.add_sub_cancel_left, ← List.drop_drop, List.take_append_drop]

theorem Moves.invalid {call : ScanCall} {res : Option (Except ScanErr ScanResult)} {c : ℕ}
    (h : Moves m call m' res) (hcall : call.continues = some c)
    (hc : m.sessions.lookup c = none) : res = some (.error .invalidCursor) := by
  have hgone : ∀ {now : ℤ} {order : List ℕ}, order.Perm m.sessions.keys →
      (m.expireLocked now order).sessions.lookup c = none := by
    intro now order ho
    rcases lookup_expire_or_none ho c with hk | hg
    · rw [hk, hc]
    · exact hg
  cases h with
  | whole | refused | opened | cleared => cases hcall
  | failed ho hcursor =>
    cases hcall
    rw [hcursor (hgone ho)]
  | finished ho hs | turned ho hs =>
    cases hcall
    rw [hgone ho] at hs
    cases hs

theorem gone_stays {log : List ScanEntry} (h : ScanRuns m log m') {c : ℕ}
    (hc : m.sessions.lookup c = none) (hnew : c ∉ issued log) :
    m'.sessions.lookup c = none := by
  induction h with
  | nil => exact hc
  | @cons m m₁ m' e log step rest ih =>
    refine ih ?_ fun hmem => hnew ((issued_cons_sublist e log).subset hmem)
    have hne : e.issued ≠ some c := fun he => hnew (mem_issued.mpr ⟨e, List.mem_cons_self, he⟩)
    rcases (moves_of_step step).kept_or_gone hne with hk | hg
    · rw [hk, hc]
    · exact hg

/-- What is read under a cursor is what its session had left; without a session nothing is. -/
theorem reads_session {log : List ScanEntry} {c : ℕ} {pages : List (List Bytes)}
    (hr : Reads log c pages 0) (h : ScanRuns m log m') (hz : c ≠ 0) :
    ∃ s, m.sessions.lookup c = some s ∧ pages.flatten = s.keys.list.drop s.position := by
  generalize hlast : 0 = last at hr
  induction hr generalizing m with
  | stop => exact absurd hlast.symm hz
  | skip hne _ ih =>
    cases h with
    | cons step rest =>
      obtain ⟨s, hs, hpages⟩ := ih rest hz hlast
      rcases (moves_of_step step).kept_or_gone hne with hk | hg
      · exact ⟨s, hk ▸ hs, hpages⟩
      · rw [hg] at hs
        cases hs
  | page _ hcall hres hrest ih =>
    cases h with
    | cons step rest =>
      have hmoves := moves_of_step step
      rw [hres] at hmoves
      obtain ⟨s, hs, -, ⟨hend, hkeys⟩ | ⟨s', hnz, hs', hsame, hsplit⟩⟩ := hmoves.page hcall
      · rw [hend] at hrest
        exact ⟨s, hs, by rw [hrest.zero, hkeys]; simp⟩
      · obtain ⟨s'', hs'', hpages⟩ := ih rest hnz hlast
        cases hs'.symm.trans hs''
        refine ⟨s, hs, ?_⟩
        rw [List.flatten_cons, hpages, hsame, hsplit]

/-- The first page of a list and the pages read after it are the list. -/
theorem pages_of_start {keys : KeySlice} {pattern : Bytes} {count : ℕ} {now : ℤ}
    {order : List ℕ} {draws : List (Option ℕ)} {m₁ m' : ScanManager} {r : ScanResult}
    {log : List ScanEntry} {pages : List (List Bytes)}
    (hstart : Moves m (.start keys pattern count now order draws) m₁ (some (.ok r)))
    (hrun : ScanRuns m₁ log m') (hr : Reads log r.cursor pages 0) :
    r.keys ++ pages.flatten = keys.list := by
  cases hstart with
  | whole => rw [hr.zero]; exact List.append_nil _
  | opened _ _ _ _ _ hz =>
    obtain ⟨s, hs, hpages⟩ := reads_session hr hrun hz
    rw [AList.lookup_insert] at hs
    cases hs
    rw [hpages]
    exact List.take_append_drop _ _

end ScanManager

open ScanManager

/-- A SCAN returns its snapshot exactly once, however calls of other clients, expiry, clears and
failures are interleaved with it, as long as no cursor is issued twice. A cursor is used up by the
page it serves, and a continuation that fails changes no session that has not expired. -/
theorem scan_traversal {limits : ScanLimits} {log : List ScanEntry} {m : ScanManager}
    (hrun : ScanRuns (.new limits) log m) (hfresh : (issued log).Nodup) :
    (∀ pre keys pattern count now order draws r post pages,
      log = pre ++ ⟨.start keys pattern count now order draws, some (.ok r)⟩ :: post →
      ScanPages post r.cursor pages → r.keys ++ pages.flatten = keys.list) ∧
    (∀ pre e mid e' post c r, log = pre ++ e :: (mid ++ e' :: post) →
      e.call.continues = some c → e.result = some (.ok r) → e'.call.continues = some c →
      e'.result = some (.error .invalidCursor)) ∧
    ∀ cursor pattern patternSet count now order draws m' e err,
      m.step (.next cursor pattern patternSet count now order draws) = some (m', e) →
      e.result = some (.error err) →
      ∀ token s, s.fresh m.limits now = true →
        (m'.sessions.lookup token = some s ↔ m.sessions.lookup token = some s) := by
  refine ⟨?_, ?_, ?_⟩
  · rintro pre keys pattern count now order draws r post pages rfl hfollows
    obtain ⟨m₁, hpre, hpost⟩ := ScanRuns.append_iff.mp hrun
    rw [issued_append] at hfresh
    have hnodup := (List.nodup_append.mp hfresh).2.1
    cases hpost with
    | cons step rest =>
      refine pages_of_start (moves_of_step step) rest (hfollows.reads ?_ ?_)
      · exact hnodup.sublist (issued_cons_sublist _ _)
      · exact notMem_issued_of_nodup rfl hnodup
  · rintro pre e mid e' post c r rfl hcall hres hcall'
    obtain ⟨m₁, hpre, hpost⟩ := ScanRuns.append_iff.mp hrun
    cases hpost with
    | @cons _ m₂ _ _ _ step rest =>
      have hmoves := moves_of_step step
      rw [hres] at hmoves
      obtain ⟨s, hs, hgone, -⟩ := hmoves.page hcall
      -- the cursor was issued before, so nobody is handed it afterwards
      have hold : c ∈ issued pre := by
        by_contra hnot
        rw [gone_stays hpre (AList.lookup_empty c) hnot] at hs
        cases hs
      have hnever : c ∉ issued mid := fun hmid => by
        rw [issued_append] at hfresh
        refine (List.nodup_append.mp hfresh).2.2 c hold c ?_ rfl
        refine (issued_cons_sublist e _).subset ?_
        rw [issued_append]
        exact List.mem_append_left _ hmid
      obtain ⟨m₃, hmid, hlast⟩ := ScanRuns.append_iff.mp rest
      cases hlast with
      | cons step' _ =>
        exact (moves_of_step step').invalid hcall' (gone_stays hmid hgone hnever)
  · intro cursor pattern patternSet count now order draws m' e err hstep hres token s hs
    have hmoves := moves_of_step hstep
    rw [hres] at hmoves
    cases hmoves with
    | failed ho =>
      rw [lookup_expireLocked ho]
      exact and_iff_left hs

/-- Three keys read page by page, and a cursor used again. -/
def scanTrip : List ScanEntry :=
  let keys : KeySlice := ⟨[[97], [98], [99]], 4, by decide⟩
  [⟨.start keys [42] 1 0 [] [some 0, some 7], some (.ok ⟨7, [[97]]⟩)⟩,
    ⟨.next 7 [] false 1 5 [7] [none], some (.error .other)⟩,
    ⟨.next 7 [] false 1 5 [7] [some 7, some 9], some (.ok ⟨9, [[98]]⟩)⟩,
    ⟨.next 9 [42] true 10 6 [9] [], some (.ok ⟨0, [[99]]⟩)⟩,
    ⟨.next 7 [] false 1 7 [] [], some (.error .invalidCursor)⟩]

theorem scan_traversal_trip : ∃ m, ScanRuns (.new defaultScanSessionLimits) scanTrip m ∧
    (issued scanTrip).Nodup ∧
    ([[97]] : List Bytes) ++ [[[98]], [[99]]].flatten = [[97], [98], [99]] := by
  have hrun : ∃ m, ScanRuns (.new defaultScanSessionLimits) scanTrip m :=
    ⟨_, .cons rfl (.cons rfl (.cons rfl (.cons rfl (.cons rfl (.nil _)))))⟩
  obtain ⟨m, hrun⟩ := hrun
  refine ⟨m, hrun, by decide, ?_⟩
  refine (scan_traversal hrun (by decide)).1 [] _ _ _ _ _ _ _ _ [[[98]], [[99]]] rfl ?_
  exact .skip _ (.page (c := 7) (r := ⟨9, [[98]]⟩) (by decide) rfl rfl
    (.page (c := 9) (r := ⟨0, [[99]]⟩) (by decide) rfl rfl (.done _)))

end GoKv
