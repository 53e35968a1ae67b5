import GoKv.Aof.Durable

/-! The loss window under everysec. A tick syncs only when a full interval has passed since the
value of the last tick that did; once it has been handled, synced or skipped, every record whose
write completed more than an interval before its value is synced. -/
namespace GoKv.Aof
open GoLib

/-- Events with the moments they happen at: the moments never go back from `now` on, and a tick is
not handled before its value. -/
def Clocked (now : ℤ) : List (ℤ × Event) → Prop
  | [] => True
  | (m, e) :: es => now ≤ m ∧ (∀ v, e = .recvTick v → v ≤ m) ∧ Clocked m es

theorem Clocked.left {now : ℤ} {es fs : List (ℤ × Event)} (h : Clocked now (es ++ fs)) :
    Clocked now es := by
  induction es generalizing now with
  | nil => trivial
  | cons p es ih => exact ⟨h.1, h.2.1, ih h.2.2⟩

def Phase.cause : Phase → Option Cause
  | .flushing c | .writing c _ _ _ | .advancing c _ _ _ | .unsynced c | .syncing c _
  | .advancingSynced c | .failing c _ | .reporting c | .flushed c => some c
  | .waiting | .dropped | .finishing | .closingFile | .stopped => none

namespace Sys

theorem cause_afterWrite (l : Log) (c : Cause) : (afterWrite l c).cause = some c := by
  unfold afterWrite
  split_ifs
  · rfl
  · rfl

/-! ## What every step keeps -/

/-- The file and the journal only grow, a sync is never taken back, and a failure stays. -/
structure Onward (s t : Sys) : Prop where
  policy : t.log.policy = s.log.policy
  journal : s.journal <+: t.journal
  accepted : s.accepted <+: t.accepted
  synced : s.log.synced ≤ t.log.synced
  failed : t.log.failed = none → s.log.failed = none

theorem Onward.refl (s : Sys) : Onward s s :=
  ⟨rfl, List.prefix_rfl, List.prefix_rfl, le_rfl, id⟩

theorem Onward.trans {s t u : Sys} (h : Onward s t) (h' : Onward t u) : Onward s u :=
  ⟨h'.policy.trans h.policy, h.journal.trans h'.journal, h.accepted.trans h'.accepted,
    h.synced.trans h'.synced, fun hf => h.failed (h'.failed hf)⟩

theorem onward_moves {s t : Sys} {e : Event} (hm : Moves s e t) (h : s.Durable) : Onward s t := by
  have hrefl := Onward.refl s
  cases hm with
  | appended r => exact { hrefl with journal := List.prefix_append s.journal [r] }
  | writeMore c batch records total n | writeStop c batch records total n =>
    exact { hrefl with accepted := List.prefix_append s.accepted _ }
  | advanceSynced c hp => exact { hrefl with synced := h.synced_le }
  | fail c e hp =>
    refine { hrefl with failed := fun hf => ?_ }
    change s.log.failed.or (some e) = none at hf
    cases hs : s.log.failed with
    | none => rfl
    | some e' => rw [hs] at hf; cases hf
  | _ => exact { hrefl with }

theorem onward_run {s t : Sys} {es : List Event} (hrun : runSteps step s es = some t)
    (h : s.Durable) : Onward s t :=
  runSteps_relates Onward.refl (fun _ _ _ => Onward.trans)
    (fun _ _ _ hs => durable_moves (step_moves hs)) (fun _ _ _ hs => onward_moves (step_moves hs))
    hrun h

/-! ## The writer's clock -/

/-- No tick value the writer holds is later than `now`. -/
structure Punctual (now : ℤ) (s : Sys) : Prop where
  lastSync_le : s.lastSync ≤ now
  tick_le : ∀ v, s.phase.cause = some (.tick v) → v ≤ now

theorem Punctual.mono {now now' : ℤ} {s : Sys} (h : s.Punctual now) (hle : now ≤ now') :
    s.Punctual now' :=
  ⟨h.lastSync_le.trans hle, fun v hv => (h.tick_le v hv).trans hle⟩

theorem Punctual.keep {now : ℤ} {s t : Sys} (h : s.Punctual now) (hl : t.lastSync = s.lastSync)
    (hc : t.phase.cause = none ∨ t.phase.cause = some .notify ∨ t.phase.cause = some .close ∨
      t.phase.cause = s.phase.cause) : t.Punctual now := by
  refine ⟨hl.trans_le h.lastSync_le, fun v hv => ?_⟩
  rcases hc with hc | hc | hc | hc
  · rw [hc] at hv; cases hv
  · rw [hc] at hv; cases hv
  · rw [hc] at hv; cases hv
  · exact h.tick_le v (hc ▸ hv)

theorem punctual_moves {s t : Sys} {e : Event} {now : ℤ} (hm : Moves s e t)
    (hpol : s.log.policy = .everySec) (htick : ∀ v, e = .recvTick v → v ≤ now)
    (h : s.Punctual now) : t.Punctual now := by
  have hnot : ¬ s.log.policy = .always := by rw [hpol]; decide
  cases hm with
  | recvTick v hp => exact ⟨h.lastSync_le, fun u hu => by cases hu; exact htick v rfl⟩
  | loopTick m v hp =>
    refine ⟨?_, fun u hu => by cases hu⟩
    change (if s.log.policy = .always then m else v) ≤ now
    rw [if_neg hnot]
    exact h.tick_le v (by rw [hp]; rfl)
  | loopKeep m hp => exact h.keep (if_neg hnot) (.inl rfl)
  | recvNotify | recvClose => exact h.keep rfl (by simp [Phase.cause])
  | dropTick | loopClose | finish | closeFile => exact h.keep rfl (.inl rfl)
  | swapEmpty c hp | wroteAll c records n hp =>
    exact h.keep rfl (.inr (.inr (.inr (by rw [hp]; exact cause_afterWrite s.log c))))
  | swapFailed c hp | swapBatch c hp | writeMore c batch records total n hp
  | writeStop c batch records total n err res hp | wroteErr c records n err hp | beginSync c hp
  | syncErr c began err hp | syncOk c began hp | advanceSynced c hp | fail c err hp
  | report c hp => exact h.keep rfl (.inr (.inr (.inr (by rw [hp]; rfl))))
  | appended | refused | called | returned | parked | beginClose | signalClose =>
    exact h.keep rfl (.inr (.inr (.inr rfl)))

/-- After a run every tick value the writer holds is at most the last moment of the run. -/
theorem punctual_run {s t : Sys} {now cut : ℤ} {es : List (ℤ × Event)} (hclock : Clocked now es)
    (hrun : runSteps step s (es.map Prod.snd) = some t) (hd : s.Durable)
    (hpol : s.log.policy = .everySec) (hs : s.Punctual now) (hnow : now ≤ cut)
    (hcut : ∀ p ∈ es, p.1 ≤ cut) : t.Punctual cut := by
  induction es generalizing s now with
  | nil => cases hrun; exact hs.mono hnow
  | cons p es ih =>
    obtain ⟨m, e⟩ := p
    obtain ⟨hle, htick, hclock⟩ := hclock
    obtain ⟨hm, hcut⟩ := List.forall_mem_cons.mp hcut
    obtain ⟨u, hu, hrun⟩ := runSteps_cons_eq_some.mp hrun
    have hmove := step_moves hu
    have hpu : u.log.policy = .everySec := (onward_moves hmove hd).policy.trans hpol
    exact ih hclock hrun (durable_moves hmove hd) hpu
      (punctual_moves hmove hpol htick (hs.mono hle)) hm hcut

/-! ## The window -/

/-- The file holds the record with this sequence number and all before it. -/
structure InFile (seq : ℕ) (s : Sys) : Prop where
  appended : seq ≤ s.journal.length
  written : encodes (s.journal.take seq) <+: s.accepted

theorem InFile.onward {seq : ℕ} {s t : Sys} (h : InFile seq s) (hst : Onward s t) :
    InFile seq t := by
  obtain ⟨later, hj⟩ := hst.journal
  have htake : t.journal.take seq = s.journal.take seq := by
    rw [← hj, List.take_append_of_le_length h.appended]
  exact ⟨h.appended.trans hst.journal.length_le, htake ▸ h.written.trans hst.accepted⟩

/-- When all that was taken out is in the file, the marker has passed every record that is. -/
theorem InFile.le_written {seq : ℕ} {s : Sys} (h : InFile seq s) (hs : s.Settled) :
    seq ≤ s.log.written := by
  obtain ⟨hw, ha⟩ := hs
  by_contra hgt
  have hlt : s.taken < s.journal.length := by
    have hseq := h.appended
    omega
  have hnext : encodes (s.journal.take (s.taken + 1)) <+: encodes (s.journal.take s.taken) := by
    have hpre := prefix_encodes_take_take s.journal (show s.taken + 1 ≤ seq by omega)
    exact ha ▸ hpre.trans h.written
  have hlen := hnext.length_le
  rw [List.take_add_one, List.getElem?_eq_getElem hlt, Option.toList_some, encodes_append,
    encodes_cons, List.length_append, List.length_append] at hlen
  have hpos := List.length_pos_iff.mpr (s.journal[s.taken].bytes_ne_nil)
  omega

/-- The record is synced, or no tick from `cut` on has been taken for one that synced. -/
def Covered (cut : ℤ) (seq : ℕ) (s : Sys) : Prop :=
  s.log.failed = none → seq ≤ s.log.synced ∨
    s.lastSync < cut ∧ ∀ v, s.phase = .flushed (.tick v) → v < cut

theorem Covered.keep {cut : ℤ} {seq : ℕ} {s t : Sys} (h : s.Covered cut seq) (hst : Onward s t)
    (hl : t.lastSync = s.lastSync)
    (hp : ∀ v, t.phase = .flushed (.tick v) → s.phase = .flushed (.tick v)) :
    t.Covered cut seq := by
  intro hf
  rcases h (hst.failed hf) with hsync | ⟨hlast, htick⟩
  · exact .inl (hsync.trans hst.synced)
  · exact .inr ⟨hl.trans_lt hlast, fun v hv => htick v (hp v hv)⟩

private theorem afterWrite_ne_flushed_tick (l : Log) (c : Cause) (v : ℤ) :
    afterWrite l c ≠ .flushed (.tick v) := by
  unfold afterWrite
  cases c with
  | notify => split_ifs <;> simp
  | tick now => simp [Cause.forceSync]
  | close => simp [Cause.forceSync]

theorem covered_moves {s t : Sys} {e : Event} {cut : ℤ} {seq : ℕ} (hm : Moves s e t)
    (hd : s.Durable) (hpol : s.log.policy = .everySec) (hfile : InFile seq s)
    (h : s.Covered cut seq) : t.Covered cut seq := by
  have hst := onward_moves hm hd
  have hfl := hd.flight
  have hnot : ¬ s.log.policy = .always := by rw [hpol]; decide
  cases hm with
  | advanceSynced c hp =>
    -- the sync reaches the record: everything in the file is counted as written here
    rw [hp] at hfl
    exact fun _ => .inl (hfile.le_written hfl.2.1)
  | loopTick m v hp =>
    intro hf
    rcases h hf with hsync | ⟨-, htick⟩
    · exact .inl hsync
    · refine .inr ⟨?_, fun u hu => by cases hu⟩
      change (if s.log.policy = .always then m else v) < cut
      rw [if_neg hnot]
      exact htick v hp
  | loopKeep m hp => exact h.keep hst (if_neg hnot) (fun v hv => by cases hv)
  | swapFailed c hp hf => exact fun hn => absurd hn hf
  | report c hp => rw [hp] at hfl; exact fun hn => absurd hn hfl
  | swapEmpty c | wroteAll c =>
    exact h.keep hst rfl fun v hv => absurd hv (afterWrite_ne_flushed_tick _ c v)
  | appended | refused | called | returned | parked | beginClose | signalClose =>
    exact h.keep hst rfl (fun v hv => hv)
  | _ => exact h.keep hst rfl (fun v hv => by cases hv)

/-- The parts of the window that every run keeps. -/
structure Window (cut : ℤ) (seq : ℕ) (s : Sys) : Prop where
  durable : s.Durable
  policy : s.log.policy = .everySec
  inFile : InFile seq s
  covered : s.Covered cut seq

theorem window_step {s t : Sys} {e : Event} {cut : ℤ} {seq : ℕ} (hs : s.step e = some t)
    (h : s.Window cut seq) : t.Window cut seq := by
  have hm := step_moves hs
  have hst := onward_moves hm h.durable
  exact ⟨durable_moves hm h.durable, hst.policy.trans h.policy, h.inFile.onward hst,
    covered_moves hm h.durable h.policy h.inFile h.covered⟩

/-- While a tick is handled the writer holds it, and it leaves its flush only at its end. -/
theorem cause_moves {s t : Sys} {e : Event} {c : Cause} (hm : Moves s e t)
    (hc : s.phase.cause = some c) : (∃ m, e = .loop m) ∧ s.phase = .flushed c ∨
      t.phase.cause = some c := by
  cases hm with
  | loopClose m hp | loopTick m v hp =>
    rw [hp] at hc
    exact .inl ⟨⟨m, rfl⟩, hp.trans (congrArg Phase.flushed (Option.some.inj hc))⟩
  | loopKeep m hp =>
    rcases hp with hp | hp
    · rw [hp] at hc
      exact .inl ⟨⟨m, rfl⟩, hp.trans (congrArg Phase.flushed (Option.some.inj hc))⟩
    · rw [hp] at hc
      cases hc
  | recvNotify hp | recvTick v hp | dropTick v hp | recvClose hp | finish hp | closeFile hp =>
    rw [hp] at hc
    cases hc
  | swapEmpty c' hp | wroteAll c' records n hp =>
    rw [hp] at hc
    exact .inr ((cause_afterWrite s.log c').trans hc)
  | swapFailed c' hp | swapBatch c' hp | writeMore c' batch records total n hp
  | writeStop c' batch records total n err res hp | wroteErr c' records n err hp | beginSync c' hp
  | syncErr c' began err hp | syncOk c' began hp | advanceSynced c' hp | fail c' err hp
  | report c' hp =>
    rw [hp] at hc
    exact .inr hc
  | appended | refused | called | returned | parked | beginClose | signalClose => exact .inr hc

/-- A tick that flushes has synced the record when the writer's loop comes round. -/
theorem synced_of_handled {s u : Sys} {t : ℤ} {seq : ℕ} {es : List Event}
    (hrun : runSteps step s es = some u) (h : s.Window t seq)
    (hc : s.phase.cause = some (.tick t)) (hloop : ∃ m, .loop m ∈ es)
    (hf : u.log.failed = none) : seq ≤ u.log.synced := by
  induction es generalizing s with
  | nil =>
    obtain ⟨m, hm⟩ := hloop
    cases hm
  | cons e es ih =>
    obtain ⟨v, hv, hrest⟩ := runSteps_cons_eq_some.mp hrun
    have hw := window_step hv h
    rcases cause_moves (step_moves hv) hc with ⟨-, hp⟩ | hc'
    · have hsu := onward_run hrun h.durable
      rcases h.covered (hsu.failed hf) with hsync | ⟨-, htick⟩
      · exact hsync.trans hsu.synced
      · exact absurd (htick t hp) (lt_irrefl t)
    · refine ih hrest hw hc' ?_
      obtain ⟨m, hm⟩ := hloop
      rcases List.mem_cons.mp hm with rfl | hm
      · -- the loop event leaves no cause behind
        have hmove := step_moves hv
        cases hmove with
        | loopClose | loopTick | loopKeep => cases hc'
      · exact ⟨m, hm⟩

/-- After a run whose moments are all before `cut` the window is open for what is in the file. -/
theorem window_of_before {start cut : ℤ} {es : List (ℤ × Event)} {s : Sys} {seq : ℕ}
    (hclock : Clocked start es)
    (hrun : runSteps step (init .everySec start) (es.map Prod.snd) = some s)
    (hstart : start ≤ cut - 1) (hold : ∀ p ∈ es, p.1 ≤ cut - 1) (hfile : InFile seq s) :
    s.Window cut seq := by
  have hinit : (init .everySec start).Punctual start := ⟨le_rfl, fun v hv => by cases hv⟩
  have hp := punctual_run hclock hrun (durable_init _ _) rfl hinit hstart hold
  refine ⟨durable_run hrun, (onward_run hrun (durable_init _ _)).policy, hfile, fun _ => .inr ?_⟩
  constructor
  · exact Int.lt_of_le_sub_one hp.lastSync_le
  · intro v hv
    exact Int.lt_of_le_sub_one (hp.tick_le v (by rw [hv]; rfl))

/-- From an open window, the tick whose interval it is syncs the record or finds it synced. -/
theorem synced_of_tick {s u : Sys} {m t : ℤ} {seq : ℕ} {between after : List (ℤ × Event)}
    (hs : s.Window (t - syncInterval) seq)
    (hrun : runSteps step s ((between ++ (m, .recvTick t) :: after).map Prod.snd) = some u)
    (hloop : ∃ now, .loop now ∈ after.map Prod.snd) (hf : u.log.failed = none) :
    seq ≤ u.log.synced := by
  rw [List.map_append, List.map_cons] at hrun
  obtain ⟨w, hw, hrest⟩ := runSteps_append_eq_some.mp hrun
  have hww : w.Window (t - syncInterval) seq :=
    runSteps_invariant (fun _ _ _ => window_step) hw hs
  have hwu := onward_run hrest hww.durable
  obtain ⟨x, hx, hlast⟩ := runSteps_cons_eq_some.mp hrest
  have hxw := window_step hx hww
  have hmove := step_moves hx
  cases hmove with
  | recvTick _ hp ht =>
    refine synced_of_handled hlast ⟨hxw.durable, hxw.policy, hxw.inFile, fun _ => .inr ⟨?_, ?_⟩⟩
      rfl hloop hf
    · change w.lastSync < t
      have hpos : 0 < syncInterval := by decide
      omega
    · intro v hv
      cases hv
  | dropTick _ hp ht =>
    -- a tick skipped for coming too soon: the last sync was inside the interval
    rcases hww.covered (hwu.failed hf) with hsync | ⟨hlt, -⟩
    · exact hsync.trans hwu.synced
    · omega

/-- For every run under everysec from the opening of the log, in which moments never go back and no
tick is handled before its value. Once a tick with value `t` has been handled, whether it synced or
was skipped, and the log has not failed, every record that was in the file before
`t - syncInterval` is synced. -/
theorem loss_window (start : ℤ) (before between after : List (ℤ × Event)) (m t : ℤ) (s u : Sys)
    (seq : ℕ) (hclock : Clocked start (before ++ (between ++ (m, .recvTick t) :: after)))
    (hbefore : runSteps step (init .everySec start) (before.map Prod.snd) = some s)
    (hold : ∀ p ∈ before, p.1 < t - syncInterval) (hseq : seq ≤ s.journal.length)
    (hfile : encodes (s.journal.take seq) <+: s.accepted)
    (hafter : runSteps step s ((between ++ (m, .recvTick t) :: after).map Prod.snd) = some u)
    (hloop : ∃ now, .loop now ∈ after.map Prod.snd) (hf : u.log.failed = none) :
    seq ≤ u.log.synced := by
  cases before with
  | nil =>
    cases hbefore
    exact hseq.trans (Nat.zero_le _)
  | cons p before =>
    have hstart : start ≤ t - syncInterval - 1 := by
      have hle := hclock.1
      have hlt := hold p List.mem_cons_self
      omega
    have hs := window_of_before hclock.left hbefore hstart
      (fun q hq => Int.le_sub_one_of_lt (hold q hq)) ⟨hseq, hfile⟩
    exact synced_of_tick hs hafter hloop hf

def writtenEarly : List (ℤ × Event) :=
  [(0, .append (.set [107] [118] none)), (1, .recvNotify), (1, .swap), (1, .write 27 none)]

def firstTick : List (ℤ × Event) :=
  [(1, .advanceWritten), (1, .loop 1), (1000000007, .recvTick 1000000000), (1000000007, .swap),
    (1000000008, .beginSync), (1000000009, .endSync none), (1000000009, .advanceSynced),
    (1000000009, .loop 1000000009)]

/-- The next tick comes early and is skipped. -/
theorem loss_window_skipped :
    ∃ s u, runSteps step (init .everySec 0) (writtenEarly.map Prod.snd) = some s ∧
      runSteps step s ((firstTick ++ (1900000001, Event.recvTick 1900000000) ::
        [(1900000001, Event.loop 1900000001)]).map Prod.snd) = some u ∧
      u.lastSync = 1000000000 ∧ 1 ≤ u.log.synced := by
  refine ⟨_, _, rfl, rfl, rfl, ?_⟩
  exact loss_window 0 writtenEarly firstTick [(1900000001, .loop 1900000001)] 1900000001
    1900000000 _ _ 1 (by simp [Clocked, writtenEarly, firstTick]) rfl (by decide) (by decide)
    (by decide) rfl ⟨1900000001, by simp⟩ rfl

end Sys

end GoKv.Aof
