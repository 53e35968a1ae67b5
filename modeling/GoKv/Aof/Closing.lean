import GoKv.Aof.Wakeup

/-! What Close leaves: a log that is done and has not failed holds every record in the file, all
of it synced. -/
namespace GoKv.Aof
open GoLib

/-- The flush that Close asked for is complete. -/
def Phase.final : Phase → Bool
  | .flushed c => c = .close
  | .finishing | .closingFile | .stopped => true
  | _ => false

private theorem final_afterWrite (l : Log) (c : Cause) : (Sys.afterWrite l c).final = false := by
  unfold Sys.afterWrite
  split_ifs with hsync
  · rfl
  · cases c with
    | notify => rfl
    | tick now => simp [Cause.forceSync] at hsync
    | close => simp [Cause.forceSync] at hsync

theorem Phase.last_of_final {p : Phase} (h : p.final = true) : p.last = true := by
  cases p <;> first | exact h | cases h

namespace Sys

/-- After the final flush nothing is left to sync, and done is closed last. -/
structure Final (s : Sys) : Prop where
  synced : s.log.failed = none → s.phase.final = true →
    s.log.synced = s.log.written ∧ s.durable = s.accepted.length
  stopped : s.log.done = true → s.phase = .stopped

theorem final_before {s t : Sys} (hu : ¬ s.log.done = true) (hd : t.log.done = s.log.done)
    (hf : t.phase.final = false) : t.Final where
  synced _ hfin := by rw [hf] at hfin; cases hfin
  stopped hdone := absurd (hd ▸ hdone) hu

theorem final_moves {s t : Sys} {e : Event} (hm : Moves s e t) (hd : s.Durable) (hs : s.Signalled)
    (h : s.Final) : t.Final := by
  have hfl := hd.flight
  have undone : ∀ {p}, s.phase = p → p ≠ .stopped → ¬ s.log.done = true :=
    fun hp hne hdone => hne (hp ▸ h.stopped hdone)
  cases hm with
  | appended r hf hc hcd hr =>
    refine ⟨fun _ hfin => ?_, h.stopped⟩
    rw [hs.closing (Or.inr (Phase.last_of_final hfin))] at hc
    cases hc
  | refused | called | returned | parked | beginClose | signalClose => exact ⟨h.synced, h.stopped⟩
  | recvNotify hp | recvTick now hp | dropTick now hp | recvClose hp | swapBatch c hp
  | writeMore c batch records total n hp | writeStop c batch records total n err res hp
  | wroteErr c records n e hp | beginSync c hp | syncErr c began e hp | syncOk c began hp
  | fail c e hp | loopTick now t hp =>
    exact final_before (undone hp nofun) rfl rfl
  | loopKeep now hp => rcases hp with hp | hp <;> exact final_before (undone hp nofun) rfl rfl
  | swapEmpty c hp | wroteAll c records n hp =>
    exact final_before (undone hp nofun) rfl (final_afterWrite _ c)
  | swapFailed c hp hf =>
    exact ⟨fun hn => absurd hn hf, fun hdone => absurd hdone (undone hp nofun)⟩
  | report c hp =>
    rw [hp] at hfl
    exact ⟨fun hn => absurd hn hfl, fun hdone => absurd hdone (undone hp nofun)⟩
  | advanceSynced c hp =>
    rw [hp] at hfl
    exact ⟨fun _ _ => ⟨rfl, hfl.2.2⟩, fun hdone => absurd hdone (undone hp nofun)⟩
  | loopClose now hp | finish hp =>
    exact ⟨fun hn _ => h.synced hn (by rw [hp]; rfl), fun hdone => absurd hdone (undone hp nofun)⟩
  | closeFile hp => exact ⟨fun hn _ => h.synced hn (by rw [hp]; rfl), fun _ => rfl⟩

structure Sound (s : Sys) : Prop where
  durable : s.Durable
  signalled : s.Signalled
  final : s.Final

theorem sound_init (policy : Policy) (now : ℤ) : (init policy now).Sound :=
  ⟨durable_init policy now, signalled_init policy now, ⟨nofun, nofun⟩⟩

theorem sound_step {s t : Sys} {e : Event} (h : s.step e = some t) (hs : s.Sound) : t.Sound :=
  have hm := step_moves h
  ⟨durable_moves hm hs.durable, signalled_moves hm hs.durable hs.signalled,
    final_moves hm hs.durable hs.signalled hs.final⟩

/-- A log that closed without having failed has lost nothing. -/
theorem Sound.closed {s : Sys} (h : s.Sound) (hd : s.log.done = true) (hf : s.log.failed = none) :
    s.log.appended = s.log.written ∧ s.log.written = s.log.synced ∧
      s.accepted = encodes s.journal ∧ s.durable = s.accepted.length := by
  have hp := h.final.stopped hd
  have hsync := h.final.synced hf (by rw [hp]; rfl)
  have hrec := h.signalled.drained hf (by rw [hp]; rfl) (by rw [hp]; nofun)
  have hflight := h.durable.flight
  rw [hp] at hflight
  obtain ⟨hw, ha⟩ := hflight hf
  have htaken : s.taken = s.journal.length := by rw [taken, hrec]; rfl
  rw [htaken] at hw ha
  rw [List.take_length] at ha
  exact ⟨h.durable.appended.trans hw.symm, hsync.1.symm, ha, hsync.2⟩

def Lasts (s t : Sys) : Prop :=
  (t.log.failed = none → s.log.failed = none) ∧
    (s.log.done = true → t.log.done = true ∧ t.log.failed = s.log.failed)

theorem Lasts.refl (s : Sys) : s.Lasts s := ⟨id, fun hd => ⟨hd, rfl⟩⟩

theorem Lasts.trans {s t u : Sys} (hst : s.Lasts t) (htu : t.Lasts u) : s.Lasts u := by
  refine ⟨fun hn => hst.1 (htu.1 hn), fun hd => ?_⟩
  obtain ⟨ht, hf⟩ := hst.2 hd
  obtain ⟨hu, hf'⟩ := htu.2 ht
  exact ⟨hu, hf'.trans hf⟩

theorem lasts_moves {s t : Sys} {e : Event} (hm : Moves s e t) (h : s.Sound) : s.Lasts t := by
  have hdone := h.final.stopped
  cases hm with
  | fail c e hp =>
    refine ⟨fun hn => ?_, fun hd => by rw [hdone hd] at hp; cases hp⟩
    change s.log.failed.or (some e) = none at hn
    cases hf : s.log.failed with
    | none => rfl
    | some err => rw [hf] at hn; cases hn
  | _ => exact ⟨id, fun hd => ⟨by first | exact hd | rfl, rfl⟩⟩

theorem sound_run {s t : Sys} {es : List Event} (hrun : runSteps step s es = some t)
    (h : s.Sound) : t.Sound :=
  runSteps_invariant (fun _ _ _ => sound_step) hrun h

theorem lasts_run {s t : Sys} {es : List Event} (hrun : runSteps step s es = some t)
    (h : s.Sound) : s.Lasts t :=
  runSteps_relates Lasts.refl (fun _ _ _ => Lasts.trans) (fun _ _ _ => sound_step)
    (fun _ _ _ hstep => lasts_moves (step_moves hstep)) hrun h

end Sys

end GoKv.Aof
