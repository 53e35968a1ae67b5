import GoKv.Engine.Incarnations
import GoKv.Engine.Mutation

/-! What a crash leaves of an engine that goroutines call together: the store as it was at some
moment of the run, not before any mutation whose wait for durability had ended. -/
namespace GoKv
open GoLib GoKv.Aof

/-! ## What a crash leaves of the file -/

namespace Incarnation

/-- A file that begins with a header and records is read back to begin with them. -/
theorem prefix_pieces {hdr : Bytes} (hh : ValidHeader hdr) {ps : List (Record × Bytes)}
    (hps : Recorded ps) (y : Bytes) : ps <+: pieces (hdr ++ (joined ps ++ y)) := by
  obtain ⟨rs, body, tail, e, rfl, hlog, he⟩ := exists_isLog y
  obtain ⟨qs, hqs, -, rfl⟩ := hlog.exists_recorded
  rw [← List.append_assoc (joined ps), ← joined_append,
    pieces_eq hh.length_eq (List.forall_mem_append.mpr ⟨hps, hqs⟩) he]
  exact List.prefix_append _ _

/-- Everything a caller was told of is in the file: what was synced whatever happens, and what was
written unless the machine goes down with the process. -/
theorem acked_prefix {l : Sys} (hd : l.Durable) {image : Bytes} (himage : l.CrashImage image)
    {c seq : ℕ} {p : Policy} (hret : l.callers c = .returned seq p (.ok ()))
    (hp : p = .everySec → image = l.accepted) :
    seq ≤ l.log.written ∧ encodes (l.journal.take seq) <+: image := by
  have hreached := hd.acks c seq p hret
  cases p with
  | always =>
    simp only [Log.reached, decide_eq_true_eq] at hreached
    exact ⟨hreached.trans hd.synced_le, Sys.crashImage_covers hd himage hreached⟩
  | everySec =>
    simp only [Log.reached, decide_eq_true_eq] at hreached
    rw [hp rfl]
    exact ⟨hreached, (prefix_encodes_take_take l.journal hreached).trans hd.wholly⟩

/-- A crash leaves the records recovered and the first ones appended since, among them all that a
caller was told of, and the file opens again. -/
theorem reopen_crash {s : Incarnation} (h : s.Logged) {l : Sys} (hl : s.engine.log = some l)
    (hfits : ∀ r ∈ l.journal, r.Fits) {image : Bytes} (himage : l.CrashImage image) :
    ∃ n ≤ l.journal.length,
      (∀ c seq p, l.callers c = .returned seq p (.ok ()) → (p = .everySec → image = l.accepted) →
        seq ≤ n) ∧
      ∀ policy a (src : Chunks) now, src.rest = s.file ++ image → a.truncateErr = none →
        a.seekErr = none → ∃ o l', openFile policy a src now .new = some o ∧ o.log = some l' ∧
          o.dst = applyAll now .new ((pieces s.file).map Prod.fst ++ l.journal.take n) := by
  obtain ⟨hdr, hh, hfile⟩ := h.file
  obtain ⟨l₀, hl₀, hd, hw⟩ := h.log
  obtain rfl : l₀ = l := Option.some.inj (hl₀.symm.trans hl)
  generalize hps : pieces s.file = ps at hfile ⊢
  have hrec : Recorded ps := hps ▸ recorded_pieces s.file
  have hframes : ∀ rs : List Record, (∀ r ∈ rs, r ∈ l₀.journal) → Recorded (ps ++ frames rs) :=
    fun rs hrs => List.forall_mem_append.mpr ⟨hrec, recorded_frames fun r hr =>
      ⟨hw r (hrs r hr), hfits r (hrs r hr)⟩⟩
  have hall := hframes l₀.journal fun _ => id
  have hwhole : s.file ++ image <+: hdr ++ joined (ps ++ frames l₀.journal) := by
    rw [hfile, joined_append, joined_frames, ← List.append_assoc]
    exact (List.prefix_append_right_inj _).mpr
      (himage.1.trans (hd.accepted.trans (prefix_encodes_take _ _)))
  -- What a caller was told about comes back.
  have hcovers : ∀ seq, encodes (l₀.journal.take seq) <+: image →
      ps ++ frames (l₀.journal.take seq) <+: pieces (s.file ++ image) := by
    rintro seq ⟨y, rfl⟩
    have hread := prefix_pieces hh (hframes (l₀.journal.take seq) fun r => List.mem_of_mem_take) y
    rwa [joined_append, joined_frames, List.append_assoc, ← List.append_assoc, ← hfile] at hread
  obtain ⟨hpieces, hopens⟩ := cut_file hh hall hwhole
  have hkept : pieces (s.file ++ image) <+: ps ++ frames l₀.journal := by
    rw [hpieces]
    exact prefix_of_within _ _
  have hpos : ps.length ≤ (pieces (s.file ++ image)).length :=
    ((List.prefix_append _ _).trans (hcovers 0 List.nil_prefix)).length_le
  obtain ⟨n, hn⟩ : ∃ n, (pieces (s.file ++ image)).length = ps.length + n :=
    ⟨_, (Nat.add_sub_cancel' hpos).symm⟩
  have hle := hkept.length_le
  rw [hn, List.length_append, frames, List.length_map] at hle
  have hexact : pieces (s.file ++ image) = ps ++ frames (l₀.journal.take n) := by
    rw [List.prefix_iff_eq_take.mp hkept, hn, List.take_length_add_append, frames, frames,
      List.map_take]
  refine ⟨n, by omega, fun c seq p hret hp => ?_, fun policy a src now hsrc ht hs => ?_⟩
  · obtain ⟨hle, hcovered⟩ := acked_prefix hd himage hret hp
    have hseq := (hcovers seq hcovered).length_le
    have htaken := l₀.taken_le
    have hwritten := hd.written_le
    rw [hn, List.length_append, frames, List.length_map, List.length_take] at hseq
    omega
  · obtain ⟨t, e, hcut, he, hcases⟩ := hopens (by
      rw [hfile, List.length_append, List.length_append, hh.length_eq]
      omega)
    refine ⟨_, .init policy a.started, openFile_recorded hh (hexact ▸ hframes _ fun r =>
      List.mem_of_mem_take) he hcases (hsrc.trans hcut) policy a now .new, ?_, ?_⟩
    · rw [openAt_ok ht hs]
    · rw [openAt_ok ht hs, hexact, List.map_append, map_fst_frames]

end Incarnation

namespace Engine

def atomic : AtomicObject Engine ℤ Met EngineCall Ticket Aof.Event where
  time := Met.now
  fits k x e := k.fits x e.store
  run k x e := e.call x k
  env e ev := (logStep e.log ev).map fun log => { e with log := log }

private theorem refines_atomic : locked.atomic.Refines atomic fun _ s e => e = s.1.engine s.2 where
  time := rfl
  fits h hfits := h ▸ hfits
  run {_ s e k x} h _ _ := by
    subst h
    obtain ⟨hreply, hnext⟩ := run_locked k x s.1 s.2
    exact ⟨hreply, hnext.symm⟩
  env {_ s e ev s'} h henv := by
    subst h
    obtain ⟨log, hlog, rfl⟩ := Option.map_eq_some_iff.mp henv
    refine ⟨_, ?_, rfl⟩
    simp only [atomic, Memory.engine]
    exact congrArg (Option.map _) hlog

def journal (e : Engine) : List Record :=
  match e.log with
  | none => []
  | some l => l.journal

private theorem journal_logs {e e' : Engine} {rs : List Record} (h : Logs e.log rs e'.log) :
    ∃ ts, ts.length ≤ rs.length ∧ e'.journal = e.journal ++ ts := by
  cases hl : e.log with
  | none =>
    rw [hl] at h
    generalize hl' : e'.log = log' at h
    cases h
    exact ⟨[], Nat.zero_le _, by simp only [journal, hl, hl', List.append_nil]⟩
  | some l =>
    rw [hl] at h
    obtain ⟨l', hl', hj⟩ := h.journal
    exact ⟨rs, le_rfl, by simp only [journal, hl, hl', hj]⟩

private theorem length_records_le (f : Bytes → Option Entry) (c : Change) :
    (c.records f).length ≤ 1 := by
  cases c with
  | keep => exact Nat.zero_le _
  | put => exact le_rfl
  | remove keys =>
    simp only [Change.records]
    split_ifs
    · exact Nat.zero_le _
    · exact le_rfl

private theorem journal_call (e : Engine) (x : Met) (k : EngineCall) :
    ∃ ts, ts.length ≤ 1 ∧ (e.call x k).2.journal = e.journal ++ ts := by
  cases k with
  | op o =>
    simp only [call, (e.ticket_exec x.now (o.meeting x.order)).2]
    rcases e.exec_performed x.now (o.meeting x.order) with ⟨he, -, -⟩ | ⟨-, hlogs, -, -⟩
    · exact ⟨[], Nat.zero_le _, by rw [he, List.append_nil]⟩
    · obtain ⟨ts, hts, hj⟩ := journal_logs hlogs
      exact ⟨ts, hts.trans (length_records_le _ _), hj⟩
  | sweep => exact ⟨[], Nat.zero_le _, (List.append_nil _).symm⟩
  | beginDrain => exact ⟨[], Nat.zero_le _, (List.append_nil _).symm⟩

theorem logStep_some {log log' : Option Sys} {ev : Aof.Event} (h : logStep log ev = some log') :
    ∃ l l', log = some l ∧ log' = some l' ∧ (∀ r, ev ≠ .append r) ∧ l.step ev = some l' := by
  have hne : ∀ r, ev ≠ .append r := by
    rintro r rfl
    cases h
  have hbind : (log.bind fun l => (l.step ev).map some) = some log' := by
    cases ev <;> first | exact absurd rfl (hne _) | exact h
  obtain ⟨l, rfl, hl⟩ := Option.bind_eq_some_iff.mp hbind
  obtain ⟨l', hl', rfl⟩ := Option.map_eq_some_iff.mp hl
  exact ⟨l, l', rfl, rfl, hne, hl'⟩

variable {P : Met → Prop} [DecidablePred P] {b b' : AtomicState Engine ℤ EngineCall Ticket}
  {ev : AtomicEvent Met EngineCall Aof.Event}

theorem journal_step (h : b.step (atomic.within P) ev = some b') :
    ∃ ts, ts.length ≤ 1 ∧ b'.state.journal = b.state.journal ++ ts := by
  cases AtomicState.changes_of_step h with
  | none hs _ => exact ⟨[], Nat.zero_le _, by rw [hs, List.append_nil]⟩
  | call k x _ _ _ hs _ =>
    rw [hs]
    exact journal_call b.state x k
  | env a hs _ =>
    obtain ⟨log, hlog, heq⟩ := Option.map_eq_some_iff.mp hs
    obtain ⟨l, l', hl, rfl, hne, hstep⟩ := logStep_some hlog
    refine ⟨[], Nat.zero_le _, ?_⟩
    rw [← heq]
    simp only [journal, hl, Sys.journal_of_step hstep hne, List.append_nil]

/-! ## The invariant of a run -/

/-- The file the log appends to is sound, and with the journal it holds what the store does. -/
structure Backed (recovered : List Record) (file : Bytes) (clock : ℤ) (e : Engine) : Prop where
  mirrors : Session.Mirrors recovered (.start e clock)
  logged : Incarnation.Logged ⟨e, file⟩

private theorem backed_call {recovered : List Record} {file : Bytes} {clock : ℤ} {e : Engine}
    (h : Backed recovered file clock e) {x : Met} (hx : ∃ r : Reading, r.now = x.now)
    (hle : clock ≤ x.now) (k : EngineCall) : Backed recovered file x.now (e.call x k).2 := by
  obtain ⟨l, hl, hd, hw⟩ := h.logged.log
  cases k with
  | op o =>
    simp only [call, (e.ticket_exec x.now (o.meeting x.order)).2]
    obtain ⟨r, hr⟩ := hx
    rw [← hr] at hle ⊢
    exact ⟨Session.mirrors_op h.mirrors hle [],
      ⟨h.logged.file, Incarnation.logged_exec hl hd hw r.now _⟩⟩
  | sweep => exact ⟨Session.mirrors_sweep h.mirrors x.order hle, ⟨h.logged.file, l, hl, hd, hw⟩⟩
  | beginDrain =>
    obtain ⟨l', hl', hlive⟩ := h.mirrors.log
    exact ⟨⟨⟨l', hl', fun t ht => hlive t (hle.trans ht)⟩, h.mirrors.exactAt.mono hle⟩,
      ⟨h.logged.file, l, hl, hd, hw⟩⟩

private theorem backed_env {recovered : List Record} {file : Bytes} {clock : ℤ} {e : Engine}
    (h : Backed recovered file clock e) {log : Option Sys} {ev : Aof.Event}
    (hstep : logStep e.log ev = some log) : Backed recovered file clock { e with log := log } := by
  obtain ⟨l, l', hl, rfl, hne, hmove⟩ := logStep_some hstep
  obtain ⟨l₀, hl₀, hd, hw⟩ := h.logged.log
  obtain rfl : l₀ = l := Option.some.inj (hl₀.symm.trans hl)
  obtain ⟨l₁, hl₁, hlive⟩ := h.mirrors.log
  obtain rfl : l₁ = l₀ := Option.some.inj (hl₁.symm.trans hl)
  refine ⟨⟨⟨l', rfl, ?_⟩, h.mirrors.exactAt⟩, ⟨h.logged.file, l', rfl,
    Sys.durable_moves (Sys.step_moves hmove) hd, Sys.writable_step hmove hw⟩⟩
  rw [Sys.journal_of_step hmove hne]
  exact hlive

theorem backed_step {recovered : List Record} {file : Bytes}
    {b b' : AtomicState Engine ℤ EngineCall Ticket} {ev : AtomicEvent Met EngineCall Aof.Event}
    {P : Met → Prop} [DecidablePred P] (hP : ∀ x, P x → ∃ r : Reading, r.now = x.now)
    (hstep : b.step (atomic.within P) ev = some b') (h : Backed recovered file b.clock b.state) :
    Backed recovered file b'.clock b'.state := by
  cases AtomicState.changes_of_step hstep with
  | none hs hc =>
    rw [hs, hc]
    exact h
  | call k x hle _ hx hs hc =>
    rw [hs, hc]
    exact backed_call h (hP x hx) hle k
  | env a hs hc =>
    obtain ⟨log, hlog, heq⟩ := Option.map_eq_some_iff.mp hs
    rw [hc, ← heq]
    exact backed_env h hlog

theorem backed_run {recovered : List Record} {file : Bytes}
    {b b' : AtomicState Engine ℤ EngineCall Ticket}
    {ds : List (AtomicEvent Met EngineCall Aof.Event)} {P : Met → Prop} [DecidablePred P]
    (hP : ∀ x, P x → ∃ r : Reading, r.now = x.now)
    (hrun : runSteps (AtomicState.step (atomic.within P)) b ds = some b')
    (h : Backed recovered file b.clock b.state) : Backed recovered file b'.clock b'.state :=
  runSteps_invariant (I := fun b => Backed recovered file b.clock b.state)
    (fun _ _ _ => backed_step hP) hrun h

theorem journal_run {b b' : AtomicState Engine ℤ EngineCall Ticket}
    {ds : List (AtomicEvent Met EngineCall Aof.Event)} {P : Met → Prop} [DecidablePred P]
    (hrun : runSteps (AtomicState.step (atomic.within P)) b ds = some b') :
    b.state.journal <+: b'.state.journal := by
  refine runSteps_relates (I := fun _ => True)
    (r := fun b b' => b.state.journal <+: b'.state.journal) (fun _ => List.prefix_rfl)
    (fun _ _ _ => List.IsPrefix.trans) (fun _ _ _ _ _ => trivial) (fun b e b' hstep _ => ?_) hrun
    trivial
  obtain ⟨ts, -, hj⟩ := journal_step hstep
  exact hj ▸ List.prefix_append _ _

/-- A call that awaits one of the records that were there already was performed before. -/
theorem performed_run {recovered : List Record} {file : Bytes}
    {b b' : AtomicState Engine ℤ EngineCall Ticket}
    {ds : List (AtomicEvent Met EngineCall Aof.Event)} {P : Met → Prop} [DecidablePred P]
    (hP : ∀ x, P x → ∃ r : Reading, r.now = x.now)
    (hrun : runSteps (AtomicState.step (atomic.within P)) b ds = some b')
    (hback : Backed recovered file b.clock b.state) {c : ℕ} {k : EngineCall} {r : Reply} {seq : ℕ}
    (h : b'.Performed c k (r, seq)) (hpos : 0 < seq) (hseq : seq ≤ b.state.journal.length) :
    b.Performed c k (r, seq) := by
  refine runSteps_relates (I := fun b => Backed recovered file b.clock b.state)
    (r := fun b b' => b.state.journal.length ≤ b'.state.journal.length ∧
      (b'.Performed c k (r, seq) → seq ≤ b.state.journal.length → b.Performed c k (r, seq)))
    (fun _ => ⟨le_rfl, fun h _ => h⟩) ?_ (fun _ _ _ => backed_step hP) ?_ hrun hback |>.2 h hseq
  · rintro s t u ⟨hst, hback⟩ ⟨htu, hnext⟩
    exact ⟨hst.trans htu, fun h hle => hback (hnext h (hle.trans hst)) hle⟩
  · intro b e b' hstep hback
    obtain ⟨ts, -, hj⟩ := journal_step hstep
    refine ⟨hj ▸ (List.prefix_append _ _).length_le, fun h hle => ?_⟩
    rcases AtomicState.performed_step hstep h with h | ⟨x, -, hr, -⟩
    · exact h
    · -- It appends its record now, which gets the next number.
      obtain ⟨l, hl, hd, -⟩ := hback.logged.log
      have hcall : (b.state.call x k).1 = (r, seq) := hr
      have hnumber := sequence_call (x := x) (k := k) hl (by rw [hcall]; exact hpos)
      have hjournal : b.state.journal = l.journal := by
        rw [journal, show b.state.log = some l from hl]
      rw [hcall, hd.nextSeq, ← hjournal] at hnumber
      omega

/-- What recovery makes of the records is what the store holds, rounded and less what expired. -/
theorem Backed.recovered {recovered : List Record} {file : Bytes} {clock : ℤ} {e : Engine}
    (h : Backed recovered file clock e) {later : ℤ} (hlater : clock ≤ later) (k : Bytes) :
    (applyAll later .new (recovered ++ e.journal)).entry k =
      match e.store.entry k with
      | none => none
      | some (v, none) => some (v, none)
      | some (v, some d) =>
        if later < floorMilli d then some (v, some (floorMilli d)) else none := by
  obtain ⟨l, hl, hlive⟩ := h.mirrors.log
  have hj : e.journal = l.journal := by
    rw [journal, show e.log = some l from hl]
  rw [hj, entry_applyAll_new, hlive later hlater k]
  simp only [Session.start]
  rcases e.store.entry k with _ | ⟨v, _ | d⟩
  · rfl
  · rfl
  · simp [Entry.floor, liveAt_some]

private theorem backed_opened {policy : Policy} {a : FileAnswers} {src : Chunks} {now : ℤ}
    {o : Opened} {l : Sys} (hopen : openFile policy a src now .new = some o)
    (hlog : o.log = some l) :
    Backed ((pieces o.file).map Prod.fst) o.file now o.engine ∧ l.journal = [] := by
  obtain ⟨hlogged, hrecs, hdst⟩ := Incarnation.opened_spec hopen hlog
  obtain ⟨rfl, -⟩ := openFile_pieces hopen hlog
  have hrecovered : (pieces o.file).map Prod.fst = (pieces src.rest).map Prod.fst := by
    rw [← hrecs, Incarnation.records, Incarnation.journal_eq hlog]
    exact (List.append_nil _).symm
  rw [hrecovered]
  exact ⟨⟨Session.mirrors_opened hlog hdst, hlogged⟩, rfl⟩

/-- Goroutines call the engine together, the log writes and syncs, and at any moment the machine
goes down. Whatever the crash leaves of the file, it opens again, and the store is the one that
the first so many of the calls lead to, one after the other, less what has expired; deadlines are
rounded down to the millisecond. Every mutation whose record was waited for and said to be durable
is among those calls: under the always policy whatever the crash, and under everysec if it took
nothing that the file had accepted, as when only the process dies. -/
theorem crash_recovers_a_moment {policy : Policy} {a : FileAnswers} {src : Chunks} {now : ℤ}
    {o : Opened} {l₀ : Sys} (hopen : openFile policy a src now .new = some o)
    (hlog : o.log = some l₀) {es : List (GuardedEvent Met EngineCall Aof.Event)}
    {t : Guarded Memory (Option Sys) ℤ Met EngineCall Ticket}
    (hclock : ∀ c x, .enter c x ∈ es → ∃ r : Reading, r.now = x.now)
    (hrun : runSteps (Guarded.step locked) (.start ⟨o.dst, true, 0⟩ o.log now) es = some t)
    (hfits : ∀ l, t.world = some l → ∀ r ∈ l.journal, r.Fits) :
    ∃ ds b l, runSteps (AtomicState.step atomic) (.start o.engine now) ds = some b ∧
      b.trace = t.trace ∧ t.world = some l ∧
      ∀ image, l.CrashImage image →
        ∃ before u, before <+: ds ∧ u.clock ≤ t.clock ∧
          runSteps (AtomicState.step atomic) (.start o.engine now) before = some u ∧
          (∀ c d k r seq p, .answer c k (r, seq) ∈ t.trace → 0 < seq →
            l.callers d = .returned seq p (.ok ()) → (p = .everySec → image = l.accepted) →
            u.Performed c k (r, seq)) ∧
          ∀ policy a (src : Chunks) later, src.rest = o.file ++ image → a.truncateErr = none →
            a.seekErr = none → u.clock ≤ later →
            ∃ o' l', openFile policy a src later .new = some o' ∧ o'.log = some l' ∧
              ∀ k, o'.dst.entry k =
                match u.state.store.entry k with
                | none => none
                | some (v, none) => some (v, none)
                | some (v, some d) =>
                  if later < floorMilli d then some (v, some (floorMilli d)) else none := by
  classical
  obtain ⟨hopened, hempty⟩ := backed_opened hopen hlog
  obtain ⟨ds, b, hds, htrace, hclocks, hstate⟩ :=
    Guarded.linearizes_within refines_atomic (s := ⟨o.dst, true, 0⟩) (u := o.engine) rfl hclock hrun
  have hback := backed_run (fun _ => id) hds hopened
  obtain ⟨l, hl, -⟩ := hback.logged.log
  have hlast : b.state.journal = l.journal := by
    rw [journal, show b.state.log = some l from hl]
  have hworld : t.world = some l := by
    rw [← show b.state.log = some l from hl, hstate]
    rfl
  refine ⟨ds, b, l, AtomicState.run_of_within hds, htrace, hworld, fun image himage => ?_⟩
  obtain ⟨n, hn, hacks, hopens⟩ :=
    Incarnation.reopen_crash hback.logged hl (hfits l hworld) himage
  -- The moment at which the journal held just the records that are left.
  obtain ⟨before, after, u, rfl, hu, hrest, hlen⟩ := runSteps_passes
    (f := fun b : AtomicState Engine ℤ EngineCall Ticket => b.state.journal.length)
    (fun b e b' hstep => by
      obtain ⟨ts, hts, hj⟩ := journal_step hstep
      rw [hj, List.length_append]
      omega) hds (n := n) (by
        simp only [AtomicState.start, journal, Aof.Opened.engine, hlog, hempty]
        exact Nat.zero_le n) (hlast ▸ hn)
  have hjournal : u.state.journal = l.journal.take n := by
    rw [← hlast, ← hlen]
    exact List.prefix_iff_eq_take.mp (journal_run hrest)
  have hbacked := backed_run (fun _ => id) hu hopened
  refine ⟨before, u, List.prefix_append _ _, (AtomicState.clock_run hrest).trans hclocks,
    AtomicState.run_of_within hu, fun c d k r seq p hanswer hpos hret hp => ?_,
    fun policy a src later hsrc ht hs hlater => ?_⟩
  · refine performed_run (fun _ => id) hrest hbacked (.inl (htrace ▸ hanswer)) hpos ?_
    exact (hacks d seq p hret hp).trans hlen.ge
  obtain ⟨o', l', ho', hl', hdst⟩ := hopens policy a src later hsrc ht hs
  refine ⟨o', l', ho', hl', fun k => ?_⟩
  rw [hdst, ← hjournal]
  exact hbacked.recovered hlater k

/-- One goroutine sets a key and waits; the record is written in two calls and synced. Another
sets the key meanwhile, and its record stays in the buffer. -/
def acknowledgedRun : List (GuardedEvent Met EngineCall Aof.Event) :=
  [.call 0 (.op (.set [107] [118] .noExpiry)), .acquire 0,
    .call 1 (.op (.set [107] [119] .noExpiry)), .enter 0 ⟨5, []⟩, .look 0, .commit 0, .change 0,
    .change 0, .release 0, .env (.await 0 1 .always), .env (.check 0), .env .recvNotify,
    .env .swap, .acquire 1, .enter 1 ⟨7, []⟩, .look 1, .commit 1, .env (.write 5 none), .change 1,
    .env (.write 22 none), .env .advanceWritten, .env .beginSync, .env (.endSync none),
    .env .advanceSynced, .env (.check 0)]

theorem crash_recovers_a_moment_acknowledged :
    ∃ t l, runSteps (Guarded.step locked)
        (.start ⟨(newLog .always).dst, true, 0⟩ (newLog .always).log 0) acknowledgedRun = some t ∧
      t.world = some l ∧ l.callers 0 = .returned 1 .always (.ok ()) ∧
      ∀ image, l.CrashImage image → ∃ (u : AtomicState Engine ℤ EngineCall Ticket) (o' : Opened),
        u.Performed 0 (.op (.set [107] [118] .noExpiry)) (.done, 1) ∧
        openFile .always ⟨9, none, none, none, 0⟩ (.whole ((newLog .always).file ++ image)) 9 .new =
          some o' ∧
        ∀ k, u.state.store.entry k = none → o'.dst.entry k = none := by
  have hends : ∃ t l, runSteps (Guarded.step locked)
        (.start ⟨(newLog .always).dst, true, 0⟩ (newLog .always).log 0) acknowledgedRun = some t ∧
      t.world = some l ∧ l.callers 0 = .returned 1 .always (.ok ()) ∧
      l.journal = [.set [107] [118] none, .set [107] [119] none] ∧ t.clock = 7 ∧
      t.trace = [.call 0 (.op (.set [107] [118] .noExpiry)),
        .call 1 (.op (.set [107] [119] .noExpiry)),
        .answer 0 (.op (.set [107] [118] .noExpiry)) (.done, 1)] :=
    ⟨_, _, rfl, rfl, rfl, rfl, rfl, rfl⟩
  obtain ⟨t, l, hrun, hworld, hret, hjournal, hclock, htrace⟩ := hends
  have hreadings : ∀ c x, .enter c x ∈ acknowledgedRun → ∃ r : Reading, r.now = x.now := by
    intro c x h
    simp only [acknowledgedRun, List.mem_cons, GuardedEvent.enter.injEq, reduceCtorEq, false_or,
      or_false, List.not_mem_nil] at h
    rcases h with ⟨-, rfl⟩ | ⟨-, rfl⟩
    · exact ⟨⟨5, by norm_num, by norm_num⟩, rfl⟩
    · exact ⟨⟨7, by norm_num, by norm_num⟩, rfl⟩
  have hfits : ∀ l', t.world = some l' → ∀ r ∈ l'.journal, r.Fits := by
    intro l' hl' r hr
    obtain rfl : l = l' := Option.some.inj (hworld.symm.trans hl')
    rw [hjournal, List.mem_cons, List.mem_singleton] at hr
    rcases hr with rfl | rfl <;> exact ⟨by decide, by decide, by decide, by decide, by decide⟩
  obtain ⟨_, _, l', -, -, hl', hcrash⟩ :=
    crash_recovers_a_moment (openFile_new .always) rfl hreadings hrun hfits
  obtain rfl : l = l' := Option.some.inj (hworld.symm.trans hl')
  refine ⟨t, l, hrun, hworld, hret, fun image himage => ?_⟩
  obtain ⟨_, u, -, hle, -, hacks, hopens⟩ := hcrash image himage
  obtain ⟨o', _, ho', -, hentries⟩ := hopens .always ⟨9, none, none, none, 0⟩ _ 9
    (Chunks.rest_whole _) rfl rfl (by omega)
  refine ⟨u, o', hacks 0 0 _ _ 1 _ ?_ one_pos hret nofun, ho', fun k hk => by rw [hentries, hk]⟩
  rw [htrace]
  exact List.mem_of_getLast? rfl

end Engine

end GoKv
