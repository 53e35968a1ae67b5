import GoKv.Aof.Rounds
import GoKv.Engine.Effects

/-! The engine over restarts: each start recovers from what is left of the file the last one
appended to. -/
namespace GoKv
open GoLib GoKv.Aof

def Call.instant : Call → ℤ
  | .op now _ => now
  | .sweep now _ => now
  | .log _ => 0

structure Incarnation where
  engine : Engine
  file : Bytes

namespace Incarnation

/-- A call, or a restart from the bytes of `src` at `now`. -/
inductive Event where
  | call (c : Call)
  | recover (policy : Policy) (a : FileAnswers) (src : Chunks) (now : ℤ)

def opened (o : Opened) : Incarnation := ⟨o.engine, o.file⟩

/-- The clock may be set back between two calls. A restart finds some beginning of what the file
was opened with and has accepted since. -/
def step (s : Incarnation) : Event → Option Incarnation
  | .call c =>
    ((Session.start s.engine c.instant).step c).map fun t => { s with engine := t.engine }
  | .recover policy a src now =>
    match s.engine.log with
    | none => none
    | some l =>
      if src.rest <+: s.file ++ l.accepted then
        match openFile policy a src now .new with
        | none => none
        | some o => if o.log.isSome then some (opened o) else none
      else none

inductive Moves (s : Incarnation) : Event → Incarnation → Prop where
  | op (now : ℤ) (op : Op) :
      Moves s (.call (.op now op)) { s with engine := (s.engine.exec now op).2 }
  | sweep (now : ℤ) (order : List Bytes) :
      Moves s (.call (.sweep now order)) { s with engine := (s.engine.reclaimOnce now order).2 }
  | log {l l' : Sys} (e : Aof.Event) (hl : s.engine.log = some l) (hne : ∀ r, e ≠ .append r)
      (hstep : l.step e = some l') :
      Moves s (.call (.log e)) { s with engine := { s.engine with log := some l' } }
  | recover {l l' : Sys} {o : Opened} (policy : Policy) (a : FileAnswers) (src : Chunks) (now : ℤ)
      (hl : s.engine.log = some l) (hcut : src.rest <+: s.file ++ l.accepted)
      (hopen : openFile policy a src now .new = some o) (hlog : o.log = some l') :
      Moves s (.recover policy a src now) (opened o)

theorem step_moves {s t : Incarnation} {e : Event} (h : s.step e = some t) : s.Moves e t := by
  cases e with
  | call c =>
    obtain ⟨u, hu, rfl⟩ := Option.map_eq_some_iff.mp h
    cases c with
    | op now op =>
      simp only [Session.step] at hu
      split_ifs at hu
      cases hu
      exact .op now op
    | sweep now order =>
      simp only [Session.step] at hu
      split_ifs at hu
      cases hu
      exact .sweep now order
    | log e =>
      obtain ⟨l, l', hl, hne, hl', rfl⟩ := Session.log_step hu
      exact .log e hl hne hl'
  | recover policy a src now =>
    simp only [step] at h
    cases hl : s.engine.log with
    | none => simp [hl] at h
    | some l =>
      simp only [hl] at h
      split_ifs at h with hcut
      cases hopen : openFile policy a src now .new with
      | none => simp [hopen] at h
      | some o =>
        simp only [hopen] at h
        split_ifs at h with hlog
        cases h
        obtain ⟨l', hl'⟩ := Option.isSome_iff_exists.mp hlog
        exact .recover policy a src now hl hcut hopen hl'

theorem step_recover {s : Incarnation} {l l' : Sys} (hl : s.engine.log = some l) {policy : Policy}
    {a : FileAnswers} {src : Chunks} {now : ℤ} {o : Opened}
    (hcut : src.rest <+: s.file ++ l.accepted)
    (hopen : openFile policy a src now .new = some o) (hlog : o.log = some l') :
    s.step (.recover policy a src now) = some (opened o) := by
  simp only [step, hl, if_pos hcut, hopen, hlog, Option.isSome_some, if_true]

def journal (s : Incarnation) : List Record :=
  match s.engine.log with
  | none => []
  | some l => l.journal

/-- The records of the log: those recovered and those appended since. -/
def records (s : Incarnation) : List Record := (pieces s.file).map Prod.fst ++ s.journal

theorem journal_eq {s : Incarnation} {l : Sys} (hl : s.engine.log = some l) :
    s.journal = l.journal := by
  rw [journal, hl]

/-- The file is a header and whole records, and the log appends records that can be written. -/
structure Logged (s : Incarnation) : Prop where
  file : ∃ hdr, ValidHeader hdr ∧ s.file = hdr ++ joined (pieces s.file)
  log : ∃ l, s.engine.log = some l ∧ l.Durable ∧ ∀ r ∈ l.journal, r.Writable

theorem opened_spec {policy : Policy} {a : FileAnswers} {src : Chunks} {now : ℤ} {o : Opened}
    {l : Sys} (hopen : openFile policy a src now .new = some o) (hlog : o.log = some l) :
    (opened o).Logged ∧ (opened o).records = (pieces src.rest).map Prod.fst ∧
      o.dst = applyAll now .new ((pieces src.rest).map Prod.fst) := by
  obtain ⟨rfl, ⟨hdr, hh, hfile⟩, hdst⟩ := openFile_pieces hopen hlog
  have hpieces : pieces o.file = pieces src.rest := by
    rw [hfile, ← List.append_nil (joined _),
      pieces_eq hh.length_eq (recorded_pieces _) parseRecord_nil]
  have hl : (opened o).engine.log = some (.init policy a.started) := hlog
  refine ⟨⟨⟨hdr, hh, ?_⟩, _, hl, Sys.durable_init _ _, nofun⟩, ?_, hdst⟩
  · rw [opened, hpieces, hfile]
  · rw [records, journal_eq hl, opened, hpieces]
    exact List.append_nil _

/-- An operation appends its records, each of which can be written. -/
theorem logged_exec {e : Engine} {l : Sys} (hl : e.log = some l) (hd : l.Durable)
    (hw : ∀ r ∈ l.journal, r.Writable) (now : ℤ) (op : Op) :
    ∃ l', (e.exec now op).2.log = some l' ∧ l'.Durable ∧ ∀ r ∈ l'.journal, r.Writable := by
  rcases e.exec_performed now op with ⟨he, -, -⟩ | ⟨-, hlogs, -, -⟩
  · rw [he]
    exact ⟨l, hl, hd, hw⟩
  · rw [hl] at hlogs
    generalize (e.exec now op).2.log = log at hlogs
    generalize Change.records _ _ = rs at hlogs
    cases hlogs with
    | nothing => exact ⟨l, rfl, hd, hw⟩
    | @one _ t r seq happ =>
      rcases l.append_cases r with ⟨err, -, hr⟩ | ⟨-, -, -, hr, happ'⟩
      · rw [hr] at happ
        cases happ
      · rw [happ'] at happ
        cases happ
        exact ⟨_, rfl, Sys.durable_appendTo hd r,
          List.forall_mem_append.mpr ⟨hw, List.forall_mem_singleton.mpr hr⟩⟩

theorem logged_moves {s t : Incarnation} {e : Event} (hm : s.Moves e t) (h : s.Logged) :
    t.Logged := by
  obtain ⟨l₀, hl₀, hd, hw⟩ := h.log
  cases hm with
  | op now op => exact ⟨h.file, logged_exec hl₀ hd hw now op⟩
  | sweep now order => exact ⟨h.file, l₀, hl₀, hd, hw⟩
  | @log l l' e hl hne hstep =>
    obtain rfl : l₀ = l := Option.some.inj (hl₀.symm.trans hl)
    exact ⟨h.file, l', rfl, Sys.durable_moves (Sys.step_moves hstep) hd, Sys.writable_step hstep hw⟩
  | recover policy a src now hl hcut hopen hlog => exact (opened_spec hopen hlog).1

/-- A restart finds the first records of the log, whatever was lost. -/
theorem prefix_records_of_cut {s : Incarnation} (h : s.Logged) {l : Sys}
    (hl : s.engine.log = some l) {file : Bytes} (hcut : file <+: s.file ++ l.accepted) :
    (pieces file).map Prod.fst <+: s.records := by
  obtain ⟨hdr, hh, hfile⟩ := h.file
  obtain ⟨l₀, hl₀, hd, hw⟩ := h.log
  obtain rfl : l₀ = l := Option.some.inj (hl₀.symm.trans hl)
  rw [records, journal_eq hl]
  refine pieces_cut hh (recorded_pieces s.file) hw (hcut.trans ?_)
  rw [← hfile]
  exact (List.prefix_append_right_inj _).mpr
    (hd.accepted.trans (prefix_encodes_take l₀.journal l₀.taken))

end Incarnation

end GoKv
