import GoKv.Aof.Closing
import GoKv.Aof.Reopen
import GoKv.Engine.Effects
import GoKv.Server.Steps

/-! A graceful shutdown that returns nil has lost nothing: the file holds every mutation ever
applied to memory, all of it synced. -/
namespace GoKv
open GoLib GoKv.Aof

/-- Once admission is closed no operation has an effect. -/
theorem Engine.exec_draining {e : Engine} (h : e.acceptingMutations = false) (now : ℤ) (op : Op) :
    (e.exec now op).2 = e := by
  cases op <;>
    simp [Engine.exec, Engine.set, Engine.expire, Engine.persist, Engine.delete, Engine.incrBy, h]

/-! ## The log along a run of the server -/

/-- The log, if there is one, has taken steps of its own. -/
inductive LogRuns : Option Sys → Option Sys → Prop where
  | off : LogRuns none none
  | on {l l' : Sys} {es : List Aof.Event} (h : runSteps Sys.step l es = some l') :
      LogRuns (some l) (some l')

theorem LogRuns.refl (log : Option Sys) : LogRuns log log := by
  cases log with
  | none => exact .off
  | some l => exact .on (runSteps_nil l)

theorem LogRuns.trans {x y z : Option Sys} (hxy : LogRuns x y) (hyz : LogRuns y z) :
    LogRuns x z := by
  cases hxy with
  | off => exact hyz
  | @on l l' es h =>
    cases hyz with
    | on h' => exact .on (runSteps_append_eq_some.mpr ⟨l', h, h'⟩)

theorem LogRuns.of_step {l l' : Sys} {e : Aof.Event} (h : l.step e = some l') :
    LogRuns (some l) (some l') :=
  .on (runSteps_cons_eq_some.mpr ⟨l', h, runSteps_nil l'⟩)

theorem Logs.runs {log log' : Option Sys} {rs : List Record} (h : Logs log rs log') :
    LogRuns log log' := by
  cases h with
  | off => exact .off
  | nothing l => exact .refl _
  | @one l t r seq h =>
    have hstep : l.step (.append r) = some t := by rw [Sys.step, h]
    exact .of_step hstep

theorem Engine.exec_runs (e : Engine) (now : ℤ) (op : Op) :
    LogRuns e.log (e.exec now op).2.log := by
  rcases e.exec_performed now op with ⟨he, -, -⟩ | ⟨-, hlogs, -, -⟩
  · rw [he]; exact .refl _
  · exact hlogs.runs

def Pc.counted : Pc → Bool
  | .absent | .accepted | .admitted | .finished => false
  | _ => true

/-- Wait has returned, and the shutdown has not gone on without it. -/
def Stage.drained : Stage → Bool
  | .waiting d | .finalizing d | .closing d | .awaitingClose d | .finalized d => d
  | .returned res => res.isNone
  | _ => false

namespace Server

/-- Every step of the server takes the log along a run of its own. -/
theorem log_moves {s t : Server} {e : ServerEvent} (hm : Moves s e t) :
    LogRuns s.engine.log t.engine.log := by
  cases hm with
  | exec c now op pc e hp hn ho he =>
    have hruns := s.engine.exec_runs now op
    rcases he with ⟨-, rfl⟩ | ⟨-, l, l', seq, p, hl, hl', rfl⟩
    · exact hruns
    · rw [hl] at hruns
      exact hruns.trans (.of_step hl')
  | finalize d l l' hs hl hl' | signalClose d l l' hs hl hl' | log e l l' fatal hl hl' =>
    rw [hl]
    exact .of_step hl'
  | _ => exact .refl _

/-- The log is sound, and its records are those of the mutations applied to memory. -/
structure Logged (s : Server) : Prop where
  sound : ∀ l, s.engine.log = some l → l.Sound
  journal : ∀ l, s.engine.log = some l → l.journal = s.applied

private theorem sound_runs {log log' : Option Sys} (h : LogRuns log log')
    (hs : ∀ l, log = some l → l.Sound) {l' : Sys} (hl' : log' = some l') : l'.Sound := by
  cases h with
  | off => cases hl'
  | on hrun => cases hl'; exact Sys.sound_run hrun (hs _ rfl)

theorem journal_exec {e : Engine} {now : ℤ} {op : Op} {l' : Sys} {applied : List Record}
    (hj : ∀ l, e.log = some l → l.journal = applied) (hl' : (e.exec now op).2.log = some l') :
    l'.journal = applied ++ e.effects now op (e.exec now op).1 := by
  cases hl : e.log with
  | none =>
    have hruns := e.exec_runs now op
    rw [hl, hl'] at hruns
    cases hruns
  | some l =>
    obtain ⟨l₁, hl₁, hj₁⟩ := Engine.journal_exec hl now op
    obtain rfl : l' = l₁ := Option.some.inj (hl'.symm.trans hl₁)
    rw [hj₁, hj l hl]

theorem logged_moves {s t : Server} {e : ServerEvent} (hm : Moves s e t) (h : s.Logged) :
    t.Logged := by
  refine ⟨fun l hl => sound_runs (log_moves hm) h.sound hl, ?_⟩
  cases hm with
  | exec c now op pc e hp hn ho he =>
    intro l hl
    rcases he with ⟨-, rfl⟩ | ⟨-, l₁, l₂, seq, p, hl₁, hl₂, rfl⟩
    · exact journal_exec h.journal hl
    · cases hl
      rw [Sys.journal_of_step hl₂ nofun]
      exact journal_exec h.journal hl₁
  | finalize d l l' hs hl hl' | signalClose d l l' hs hl hl' =>
    rintro _ ⟨⟩
    rw [Sys.journal_of_step hl' nofun]
    exact h.journal l hl
  | log e l l' fatal hl hl' hne =>
    rintro _ ⟨⟩
    rw [Sys.journal_of_step hl' hne]
    exact h.journal l hl
  | _ => exact h.journal

/-! ## After BeginDrain -/

theorem refusing_moves {s t : Server} {e : ServerEvent} (hm : Moves s e t)
    (h : s.engine.acceptingMutations = false) : t.engine.acceptingMutations = false := by
  cases hm with
  | exec c now op pc e hp hn ho he =>
    rw [Engine.exec_draining h] at he
    rcases he with ⟨-, rfl⟩ | ⟨-, l₁, l₂, seq, p, hl₁, hl₂, rfl⟩ <;> exact h
  | beginDrain => rfl
  | _ => exact h

/-- From one state to a later one clients see the same contents, expiry aside, and no record is
appended. -/
structure Quiet (s t : Server) : Prop where
  clock : s.clock ≤ t.clock
  view : ∀ u, t.clock ≤ u → ∀ k, t.engine.view u k = s.engine.view u k
  journal : t.engine.log.map Sys.journal = s.engine.log.map Sys.journal

theorem Quiet.refl (s : Server) : s.Quiet s := ⟨le_rfl, fun _ _ _ => rfl, rfl⟩

theorem Quiet.trans {s t u : Server} (hst : s.Quiet t) (htu : t.Quiet u) : s.Quiet u where
  clock := hst.clock.trans htu.clock
  view v hv k := (htu.view v hv k).trans (hst.view v (htu.clock.trans hv) k)
  journal := htu.journal.trans hst.journal

theorem quiet_log {s t : Server} {e : Aof.Event} {l l' : Sys} (hc : t.clock = s.clock)
    (hst : t.engine.store = s.engine.store) (hl : s.engine.log = some l)
    (ht : t.engine.log = some l') (hl' : l.step e = some l') (hne : ∀ r, e ≠ .append r) :
    s.Quiet t where
  clock := hc.ge
  view u _ k := by rw [Engine.view, Engine.view, hst]
  journal := by rw [ht, hl, Option.map_some, Option.map_some, Sys.journal_of_step hl' hne]

theorem quiet_moves {s t : Server} {e : ServerEvent} (hm : Moves s e t)
    (h : s.engine.acceptingMutations = false) : s.Quiet t := by
  cases hm with
  | exec c now op pc e hp hn ho he =>
    rw [Engine.exec_draining h] at he
    rcases he with ⟨-, rfl⟩ | ⟨-, l, l', seq, p, hl, hl', rfl⟩
    · exact ⟨hn, fun _ _ _ => rfl, rfl⟩
    · refine ⟨hn, fun _ _ _ => rfl, ?_⟩
      change some l'.journal = _
      rw [Sys.journal_of_step hl' nofun, hl]
      rfl
  | arm c now hp hn | timeout c now hp hn | visit c now todo hs hc hn =>
    exact ⟨hn, fun _ _ _ => rfl, rfl⟩
  | sweep now order hn =>
    exact ⟨hn, fun u hu k => Store.liveAt_reclaimExpired hu _ _ order k, rfl⟩
  | finalize d l l' hs hl hl' | signalClose d l l' hs hl hl' =>
    exact quiet_log rfl rfl hl rfl hl' nofun
  | log e l l' fatal hl hl' hne => exact quiet_log rfl rfl hl rfl hl' hne
  | _ => exact ⟨le_rfl, fun _ _ _ => rfl, rfl⟩

/-! ## The wait group -/

def Counts (s : Server) : Prop := ∀ c, (s.handlers c).pc.counted = true → c ∈ s.wg

theorem counts_update {s t : Server} (h : s.Counts) {c : ℕ} {k : Handler}
    (hh : t.handlers = Function.update s.handlers c k) (hw : ∀ j ≠ c, j ∈ s.wg → j ∈ t.wg)
    (hk : k.pc.counted = true → c ∈ t.wg) : t.Counts := by
  intro j hj
  rw [hh, Function.update_apply] at hj
  split_ifs at hj with hjc
  · rw [hjc]; exact hk hj
  · exact hw j hjc (h j hj)

theorem counts_keep {s t : Server} (h : s.Counts) {c : ℕ} {k : Handler}
    (hh : t.handlers = Function.update s.handlers c k) (hw : t.wg = s.wg)
    (hk : k.pc.counted = true → (s.handlers c).pc.counted = true) : t.Counts :=
  counts_update h hh (fun _ _ hj => hw ▸ hj) fun hc => hw ▸ h c (hk hc)

private theorem counted_of_alone {e : HandlerEvent} {pc pc' : Pc} (h : Pc.Alone e pc pc') :
    pc.counted = true := by
  cases h <;> rfl

theorem counts_moves {s t : Server} {e : ServerEvent} (hm : Moves s e t) (h : s.Counts) :
    t.Counts := by
  cases hm with
  | accept c hp | admitConn c hp | reject c hp => exact counts_keep h rfl rfl nofun
  | start c hp =>
    exact counts_update h rfl (fun _ _ => List.mem_cons_of_mem c) fun _ => List.mem_cons_self
  | checkDraining c hp | checkOpen c hp | arm c now hp | timeout c now hp | exec c now op pc e hp
  | release c hp => exact counts_keep h rfl rfl fun _ => by rw [hp]; rfl
  | alone c e pc ha => exact counts_keep h rfl rfl fun _ => counted_of_alone ha
  | finish c hp => exact counts_update h rfl (fun _ hj => (List.mem_erase_of_ne hj).mpr) nofun
  | visit c now todo hs => exact counts_keep h rfl rfl id
  | _ => exact h

theorem drained_of_outcome {fatal : Option Fatal} {d : Bool} (h : outcome fatal d = none) :
    fatal = none ∧ d = true := by
  cases fatal with
  | some cause => cases h
  | none =>
    refine ⟨rfl, ?_⟩
    by_contra hd
    rw [outcome, if_neg hd] at h
    cases h

/-- Only an empty wait group makes the shutdown drained. -/
theorem drained_moves {s t : Server} {e : ServerEvent} (hm : Moves s e t)
    (hs : ¬ s.stage.drained = true) (ht : t.stage.drained = true) :
    e = .shutdown .waitDone ∧ s.wg = [] := by
  cases hm with
  | waitDone d hst hw => exact ⟨rfl, hw⟩
  | judge d hst =>
    rw [hst] at hs
    exact absurd (drained_of_outcome (Option.isNone_iff_eq_none.mp ht)).2 hs
  | begin | stopExpiration | beginDrain | closeDraining | lock | visit | unlock | undrained =>
    cases ht
  | drained hst => exact absurd (by rw [hst]; rfl) hs
  | finalizeOff d hst | finalize d l l' hst | signalClose d l l' hst | closeFailed d l err hst
  | closeDone d l hst | closeTimeout d hst => rw [hst] at hs; exact absurd ht hs
  | _ => exact absurd ht hs

/-! ## What nil means -/

/-- The shutdown is about to return nil, or has. -/
def Clean (s : Server) : Prop :=
  (∃ d, s.stage = .finalized d ∧ s.fatal = none) ∨ s.stage = .returned none

def Closed (s : Server) : Prop :=
  s.Clean → ∀ l, s.engine.log = some l → l.log.done = true ∧ l.log.failed = none

theorem closed_keep {s t : Server} (hlog : s.Logged) (h : s.Closed)
    (hruns : LogRuns s.engine.log t.engine.log) (hst : t.stage = s.stage)
    (hf : t.fatal = none → s.fatal = none) : t.Closed := by
  intro hclean l' hl'
  have hs : s.Clean := by
    rcases hclean with ⟨d, hd, hfatal⟩ | hret
    · exact Or.inl ⟨d, hst ▸ hd, hf hfatal⟩
    · exact Or.inr (hst ▸ hret)
  rw [hl'] at hruns
  cases hl : s.engine.log with
  | none => rw [hl] at hruns; cases hruns
  | some l =>
    rw [hl] at hruns
    cases hruns with
    | on hrun =>
      obtain ⟨hd, hfail⟩ := h hs l hl
      obtain ⟨hd', hfail'⟩ := (Sys.lasts_run hrun (hlog.sound l hl)).2 hd
      exact ⟨hd', hfail'.trans hfail⟩

theorem closed_of_stage {t : Server} (hd : ∀ d, t.stage ≠ .finalized d)
    (hr : t.stage ≠ .returned none) : t.Closed := by
  rintro (⟨d, hst, -⟩ | hst)
  · exact absurd hst (hd d)
  · exact absurd hst hr

theorem report_fatal (s : Server) (cause : Fatal) : (s.report cause).fatal ≠ none := by
  unfold report
  cases s.fatal <;> nofun

theorem closed_moves {s t : Server} {e : ServerEvent} (hm : Moves s e t) (hlog : s.Logged)
    (h : s.Closed) : t.Closed := by
  have hruns := log_moves hm
  cases hm with
  | begin | stopExpiration | beginDrain | closeDraining | lock | visit | unlock | waitDone | drained
  | undrained | finalize | signalClose => exact closed_of_stage nofun nofun
  | finalizeOff d hst hl =>
    intro _ l hl'
    rw [show s.engine.log = some l from hl'] at hl
    cases hl
  | closeFailed | closeTimeout =>
    rintro (⟨-, -, hf⟩ | hst)
    · exact absurd hf (report_fatal s _)
    · cases hst
  | closeDone d l hst hl hd hf =>
    intro _ l' hl'
    obtain rfl : l = l' := Option.some.inj (hl.symm.trans hl')
    exact ⟨hd, hf⟩
  | judge d hst =>
    rintro (⟨_, hfin, -⟩ | hret)
    · cases hfin
    · have hnone : outcome s.fatal d = none := by simpa using hret
      exact h (Or.inl ⟨d, hst, (drained_of_outcome hnone).1⟩)
  | fatal code => exact closed_keep hlog h hruns rfl fun hf => absurd hf (report_fatal s _)
  | log e l l' fatal hl hl' hne hf =>
    refine closed_keep hlog h hruns rfl fun hnone => ?_
    rcases hf with rfl | ⟨cause, rfl⟩
    · exact hnone
    · exact (Option.or_eq_none_iff.mp hnone).1
  | _ => exact closed_keep hlog h hruns rfl id

structure Consistent (s : Server) : Prop where
  logged : s.Logged
  counts : s.Counts
  closed : s.Closed

theorem consistent_step {s t : Server} {e : ServerEvent} (hstep : s.step e = some t)
    (h : s.Consistent) : t.Consistent :=
  have hm := step_moves hstep
  ⟨logged_moves hm h.logged, counts_moves hm h.counts, closed_moves hm h.logged h.closed⟩

private theorem consistent_opened {policy : Policy} {a : FileAnswers} {src : Chunks} {now : ℤ}
    {o : Opened} (ho : openFile policy a src now .new = some o) (cfg : Config) (clock : ℤ) :
    (start cfg o.engine clock).Consistent := by
  have hinit : ∀ l, o.log = some l → l = .init policy a.started :=
    fun l hl => (openFile_log ho hl).1
  refine ⟨⟨fun l hl => ?_, fun l hl => ?_⟩, nofun, closed_of_stage nofun nofun⟩
  · rw [hinit l hl]; exact Sys.sound_init policy a.started
  · rw [hinit l hl]; rfl

theorem logRuns_of_run {s t : Server} {es : List ServerEvent}
    (hrun : runSteps step s es = some t) : LogRuns s.engine.log t.engine.log :=
  runSteps_relates (I := fun _ => True) (r := fun s t => LogRuns s.engine.log t.engine.log)
    (fun _ => .refl _) (fun _ _ _ => .trans) (fun _ _ _ _ _ => trivial)
    (fun _ _ _ h _ => log_moves (step_moves h)) hrun trivial

theorem quiet_run {s t : Server} {es : List ServerEvent} (h : s.engine.acceptingMutations = false)
    (hrun : runSteps step s es = some t) : s.Quiet t :=
  runSteps_relates (I := fun s => s.engine.acceptingMutations = false) Quiet.refl
    (fun _ _ _ => Quiet.trans) (fun _ _ _ h => refusing_moves (step_moves h))
    (fun _ _ _ h => quiet_moves (step_moves h)) hrun h

private theorem refusing_of_beginDrain {s t : Server} {es : List ServerEvent}
    (hrun : runSteps step s (es ++ [.shutdown .beginDrain]) = some t) :
    t.engine.acceptingMutations = false := by
  obtain ⟨u, -, hlast⟩ := runSteps_append_eq_some.mp hrun
  obtain ⟨v, hv, hnil⟩ := runSteps_cons_eq_some.mp hlast
  cases hnil
  cases step_moves hv with
  | beginDrain => rfl

/-- A shutdown that is drained has waited for every goroutine the wait group counts. -/
theorem waited_of_drained {s t : Server} {es : List ServerEvent} (hs : s.Counts)
    (hrun : runSteps step s es = some t) (hnot : ¬ s.stage.drained = true)
    (hd : t.stage.drained = true) :
    ∃ before after u, es = before ++ .shutdown .waitDone :: after ∧
      runSteps step s before = some u ∧ u.wg = [] ∧ ∀ c, (u.handlers c).pc.counted = false := by
  obtain ⟨before, e, after, u, v, rfl, hu, hstep, hnot, hyes⟩ :=
    runSteps_gains (P := fun s => s.stage.drained = true) hrun hnot hd
  obtain ⟨rfl, hwg⟩ := drained_moves (step_moves hstep) hnot hyes
  have hcounts : u.Counts :=
    runSteps_invariant (fun _ _ _ h => counts_moves (step_moves h)) hu hs
  refine ⟨before, after, u, rfl, hu, hwg, fun c => ?_⟩
  by_contra hc
  have hmem := hcounts c (by simpa using hc)
  rw [hwg] at hmem
  cases hmem

theorem unfailed_of_run {s t : Server} {es : List ServerEvent} (hs : s.Logged)
    (hrun : runSteps step s es = some t) {l l' : Sys} (hl : s.engine.log = some l)
    (hl' : t.engine.log = some l') (hf : l'.log.failed = none) : l.log.failed = none := by
  have hruns := logRuns_of_run hrun
  rw [hl, hl'] at hruns
  cases hruns with
  | on h => exact (Sys.lasts_run h (hs.sound l hl)).1 hf

/-- In every run of a server over a log OpenFile returned: from BeginDrain on clients see the same
contents, expiry aside, and no record is appended; and when gracefulShutdown has returned nil, Wait
returned with every goroutine it counts finished, the log never failed, and the file is the header,
the recovered records and those of every mutation applied to memory, all covered by a Sync. -/
theorem shutdown_nil_durable {policy : Policy} {a : FileAnswers} {src : Chunks} {now : ℤ}
    {o : Opened} (ho : openFile policy a src now .new = some o) {cfg : Config} {clock : ℤ}
    {es : List ServerEvent} {s : Server}
    (hrun : runSteps step (start cfg o.engine clock) es = some s) :
    (∀ before after u, es = before ++ .shutdown .beginDrain :: after →
        runSteps step (start cfg o.engine clock) (before ++ [.shutdown .beginDrain]) = some u →
        (∀ t, s.clock ≤ t → ∀ k, s.engine.view t k = u.engine.view t k) ∧
          s.engine.log.map Sys.journal = u.engine.log.map Sys.journal) ∧
      (s.stage = .returned none → ∀ l, s.engine.log = some l →
        (∃ before after u, es = before ++ .shutdown .waitDone :: after ∧
          runSteps step (start cfg o.engine clock) before = some u ∧
          u.wg = [] ∧ ∀ c, (u.handlers c).pc.counted = false) ∧
        (∀ before after u l', es = before ++ after →
          runSteps step (start cfg o.engine clock) before = some u →
          u.engine.log = some l' → l'.log.failed = none) ∧
        l.log.appended = l.log.written ∧ l.log.written = l.log.synced ∧
        (∃ hdr recovered body, Recovers src.rest hdr recovered body ∧
          o.file ++ l.accepted = hdr ++ (body ++ encodes l.journal)) ∧
        l.journal = s.applied ∧ l.durable = l.accepted.length) := by
  have hstart := consistent_opened ho cfg clock
  have hreach : ∀ {before u}, runSteps step (start cfg o.engine clock) before = some u →
      u.Consistent := fun h => runSteps_invariant (fun _ _ _ => consistent_step) h hstart
  constructor
  · rintro before after u rfl hu
    rw [List.append_cons] at hrun
    have hquiet := quiet_run (refusing_of_beginDrain hu) (runSteps_rest hrun hu)
    exact ⟨hquiet.view, hquiet.journal⟩
  · intro hret l hl
    have hs := hreach hrun
    obtain ⟨hdone, hfail⟩ := hs.closed (Or.inr hret) l hl
    obtain ⟨happ, hwr, hacc, hdur⟩ := (hs.logged.sound l hl).closed hdone hfail
    have hwait := waited_of_drained hstart.counts hrun nofun (by rw [hret]; rfl)
    refine ⟨hwait, ?_, happ, hwr, ?_, hs.logged.journal l hl, hdur⟩
    · rintro before after u l' rfl hu hl'
      exact unfailed_of_run (hreach hu).logged (runSteps_rest hrun hu) hl' hl hfail
    · -- The log the run started with is the one OpenFile returned.
      have hlog : LogRuns o.log (some l) := by
        rw [← hl]
        exact logRuns_of_run hrun
      cases ho' : o.log with
      | none => rw [ho'] at hlog; cases hlog
      | some l₀ =>
        obtain ⟨-, hdr, rs, body, hrec, hfile, -⟩ := openFile_log ho ho'
        exact ⟨hdr, rs, body, hrec, by rw [hfile, hacc, List.append_assoc]⟩

/-- One SET, synced before its reply, and a shutdown that closes the log. -/
def shutdownSchedule : List ServerEvent :=
  [.handler 0 .accept, .handler 0 .admitConn, .handler 0 .start, .handler 0 .check,
    .handler 0 (.arm 1), .handler 0 .read, .handler 0 .recv, .handler 0 .command,
    .handler 0 (.exec 2 (.set [107] [118] .noExpiry)), .log .recvNotify, .log .swap,
    .log (.write 27 none), .log .advanceWritten, .log .beginSync, .log (.endSync none),
    .log .advanceSynced, .log (.loop 3), .log (.check 0), .handler 0 .awaited, .handler 0 .reply,
    .shutdown .begin, .shutdown (.stopExpiration true), .shutdown .beginDrain,
    .shutdown .closeDraining, .shutdown .lock, .shutdown (.visit 0 4), .shutdown .unlock,
    .handler 0 .check, .handler 0 .release, .handler 0 .finish, .shutdown .waitDone,
    .shutdown .drained, .shutdown .finalize, .shutdown .signalClose, .log .recvClose, .log .swap,
    .log .beginSync, .log (.endSync none), .log .advanceSynced, .log (.loop 5), .log .finish,
    .log .closeFile, .shutdown .closeDone, .shutdown .judge]

theorem shutdown_nil_durable_set :
    ∃ s l, runSteps step (start ⟨1024, 0⟩ (newLog .always).engine 0) shutdownSchedule = some s ∧
      s.stage = .returned none ∧ s.engine.log = some l ∧ l.journal = [.set [107] [118] none] ∧
      l.log.appended = l.log.written ∧ l.durable = l.accepted.length := by
  have hrun : runSteps step (start ⟨1024, 0⟩ (newLog .always).engine 0) shutdownSchedule =
      some _ := rfl
  obtain ⟨-, -, happ, -, -, hj, hdur⟩ :=
    (shutdown_nil_durable (openFile_new .always) hrun).2 rfl _ rfl
  exact ⟨_, _, hrun, rfl, rfl, hj, happ, hdur⟩

end Server

end GoKv
