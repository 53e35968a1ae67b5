import GoKv.Aof.Reopen
import GoKv.Engine.Spec

/-! The log refines memory: replaying the records of a run gives back the live store, its
deadlines rounded down to the millisecond a record can hold. -/
namespace GoKv
open GoLib GoKv.Aof

/-! ## What a list of records writes -/

def Aof.Record.change : Record → Change
  | .set key value ms => .put key value (ms.map ofUnixMilli)
  | .del keys => .remove keys

/-- The entries after the records, the expired ones included. -/
def written (f : Bytes → Option Entry) (rs : List Record) : Bytes → Option Entry :=
  rs.foldl (fun f r => r.change.entries f) f

@[simp] theorem written_nil (f : Bytes → Option Entry) : written f [] = f := rfl

@[simp] theorem written_cons (f : Bytes → Option Entry) (r : Record) (rs : List Record) :
    written f (r :: rs) = written (r.change.entries f) rs := rfl

theorem written_append (f : Bytes → Option Entry) (rs ts : List Record) :
    written f (rs ++ ts) = written (written f rs) ts :=
  List.foldl_append

private theorem entry_apply {f : Bytes → Option Entry} {now : ℤ} {dst : Store}
    (h : ∀ k, dst.entry k = liveAt now (f k)) (r : Record) (k : Bytes) :
    (apply r now dst).entry k = liveAt now (r.change.entries f k) := by
  rcases r with ⟨key, value, _ | ms⟩ | keys
  · rw [apply, Store.entry_set, h]
    by_cases hk : k = key <;> simp [Record.change, Change.entries, hk]
  · simp only [apply, Record.change, Change.entries, Option.map_some]
    by_cases hlt : now < ofUnixMilli ms
    · rw [if_pos hlt, Store.entry_set, h]
      by_cases hk : k = key <;> simp [hk, liveAt_some, hlt]
    · rw [if_neg hlt, Store.entry_delete, h]
      by_cases hk : k = key <;> simp [hk, liveAt_some, hlt]
  · simp only [apply, Record.change, Change.entries, Store.entry_deleteAll, h]
    split_ifs <;> rfl

/-- A replay at `now` holds what the records wrote and is alive then. -/
theorem entry_applyAll {now : ℤ} (rs : List Record) {f : Bytes → Option Entry} {dst : Store}
    (h : ∀ k, dst.entry k = liveAt now (f k)) (k : Bytes) :
    (applyAll now dst rs).entry k = liveAt now (written f rs k) := by
  induction rs generalizing f dst with
  | nil => exact h k
  | cons r rs ih => exact ih (entry_apply h r)

def blank : Bytes → Option Entry := fun _ => none

theorem entry_applyAll_new (now : ℤ) (rs : List Record) (k : Bytes) :
    (applyAll now .new rs).entry k = liveAt now (written blank rs k) :=
  entry_applyAll rs (fun _ => rfl) k

private theorem written_deadline {rs : List Record} {f : Bytes → Option Entry}
    (hf : ∀ k v d, f k = some (v, some d) → ∃ ms, d = ofUnixMilli ms) {k v : Bytes} {d : ℤ}
    (h : written f rs k = some (v, some d)) : ∃ ms, d = ofUnixMilli ms := by
  induction rs generalizing f with
  | nil => exact hf k v d h
  | cons r rs ih =>
    refine ih (fun j w d hj => ?_) h
    rcases r with ⟨key, value, ms⟩ | keys <;> simp only [Record.change, Change.entries] at hj <;>
      split_ifs at hj
    · simp only [Option.some.injEq, Prod.mk.injEq, Option.map_eq_some_iff] at hj
      obtain ⟨-, ms, -, rfl⟩ := hj
      exact ⟨ms, rfl⟩
    · exact hf j w d hj
    · exact hf j w d hj

/-! ## Rounding -/

/-- An entry as a record can hold it. -/
def Entry.floor (e : Entry) : Entry := (e.1, e.2.map floorMilli)

private theorem aliveAt_floor {now : ℤ} {e : Entry} (h : aliveAt now e.floor = true) :
    aliveAt now e = true := by
  obtain ⟨v, _ | d⟩ := e
  · rfl
  · simp only [Entry.floor, Option.map_some, aliveAt_some, decide_eq_true_eq] at h ⊢
    exact h.trans_le (floorMilli_le d)

/-- Rounding down never brings a dead entry back. -/
theorem liveAt_floor {t u : ℤ} (h : t ≤ u) (x : Option Entry) :
    liveAt u ((liveAt t x).map Entry.floor) = liveAt u (x.map Entry.floor) := by
  cases x with
  | none => rfl
  | some e =>
    by_cases ht : aliveAt t e = true
    · rw [liveAt_some, if_pos ht]
    · have hu : ¬ aliveAt u e.floor = true := fun hu => ht (aliveAt_of_le h (aliveAt_floor hu))
      rw [liveAt_some, if_neg ht, Option.map_some, liveAt_some, if_neg hu]
      rfl

/-- A deadline that survives the record's milliseconds, rounded down. -/
def Exact (d : ℤ) : Prop := ofUnixMilli (unixMilli d) = floorMilli d

/-- The deadlines of the entries alive at an instant all survive. -/
def ExactAt (f : Bytes → Option Entry) (now : ℤ) : Prop :=
  ∀ k v d, liveAt now (f k) = some (v, some d) → Exact d

theorem ExactAt.mono {f : Bytes → Option Entry} {t u : ℤ} (h : ExactAt f t) (hle : t ≤ u) :
    ExactAt f u := by
  intro k v d hk
  obtain ⟨hf, ha⟩ := liveAt_eq_some.mp hk
  exact h k v d (liveAt_eq_some.mpr ⟨hf, aliveAt_of_le hle ha⟩)

/-! ## One change -/

/-- The records of a change write what the change does, rounded down. `f` holds the entries
and `g` what was written for them. -/
theorem written_records {f g : Bytes → Option Entry} {now t : ℤ} (hnow : now ≤ t)
    (h : ∀ k, liveAt t (g k) = liveAt t ((f k).map Entry.floor)) (c : Change)
    (hc : ∀ key v d, c = .put key v (some d) → Exact d) (k : Bytes) :
    liveAt t (written g (c.records fun k => liveAt now (f k)) k) =
      liveAt t ((c.entries f k).map Entry.floor) := by
  cases c with
  | keep => exact h k
  | put key v d =>
    have hd : (if d.isSome then some (unixMilli (d.getD zeroTime)) else none).map ofUnixMilli =
        d.map floorMilli := by
      cases d with
      | none => rfl
      | some d => exact congrArg some (hc key v d rfl)
    simp only [Change.records, written_cons, written_nil, deriveSet, Record.change, hd,
      Change.entries]
    split_ifs
    · rfl
    · exact h k
  | remove keys =>
    have hrec : written g ((Change.remove keys).records fun k => liveAt now (f k)) k =
        if k ∈ Change.present (fun k => liveAt now (f k)) keys then none else g k := by
      simp only [Change.records]
      split_ifs with hnil hmem hmem
      · rw [hnil] at hmem; cases hmem
      · rfl
      · simp [deriveDel, Record.change, Change.entries, hmem]
      · simp [deriveDel, Record.change, Change.entries, hmem]
    rw [hrec]
    by_cases hk : k ∈ keys
    · by_cases hlive : (liveAt now (f k)).isSome = true
      · rw [if_pos (Change.mem_present.mpr ⟨hk, hlive⟩)]
        simp [Change.entries, hk]
      · -- An expired key is deleted without a record: what was written for it is dead as well.
        have hdead : liveAt now (f k) = none := by simpa using hlive
        rw [if_neg (fun hm => hlive (Change.mem_present.mp hm).2), h k, ← liveAt_floor hnow, hdead]
        simp [Change.entries, hk]
    · rw [if_neg (fun hm => hk (Change.mem_present.mp hm).1), h k]
      simp [Change.entries, hk]

/-- A deadline an operation writes is a duration from now, or the one the key had. -/
theorem Op.deadline_of_put {f : Bytes → Option Entry} {now : ℤ} {op : Op} {key v : Bytes} {d : ℤ}
    (h : op.change f now = .put key v (some d)) :
    (∃ dur, d = timeAdd now dur) ∨ ∃ v', f key = some (v', some d) := by
  cases op with
  | set key' value t =>
    simp only [Op.change, Change.put.injEq] at h
    obtain ⟨-, -, h⟩ := h
    split_ifs at h
    exact Or.inl ⟨t.d, (Option.some.inj h).symm⟩
  | expire key' dur =>
    simp only [Op.change] at h
    cases hf : f key' with
    | none => simp [hf] at h
    | some e =>
      simp only [hf, Change.put.injEq, Option.some.injEq] at h
      exact Or.inl ⟨dur, h.2.2.symm⟩
  | persist key' =>
    simp only [Op.change] at h
    rcases hf : f key' with _ | ⟨w, _ | d'⟩ <;> simp [hf] at h
  | incrBy key' delta =>
    simp only [Op.change] at h
    cases hres : incrResult f key' delta with
    | error e => simp [hres] at h
    | ok q =>
      obtain ⟨n, d'⟩ := q
      simp only [hres, Change.put.injEq] at h
      obtain ⟨rfl, -, rfl⟩ := h
      rcases incrResult_deadline hres with ⟨-, hnone⟩ | hfound
      · cases hnone
      · exact Or.inr hfound
  | _ => cases h

private theorem exactAt_change {f : Bytes → Option Entry} {now : ℤ} (h : ExactAt f now) (c : Change)
    (hc : ∀ key v d, c = .put key v (some d) → Exact d) : ExactAt (c.entries f) now := by
  intro k v d hk
  cases c with
  | keep => exact h k v d hk
  | put key w d' =>
    dsimp only [Change.entries] at hk
    split_ifs at hk
    · obtain ⟨he, -⟩ := liveAt_eq_some.mp hk
      obtain ⟨rfl, rfl⟩ := Prod.mk.inj (Option.some.inj he)
      exact hc key w d rfl
    · exact h k v d hk
  | remove keys =>
    dsimp only [Change.entries] at hk
    split_ifs at hk
    · cases hk
    · exact h k v d hk

/-! ## Runs -/

theorem Logs.journal {l : Sys} {rs : List Record} {log : Option Sys} (h : Logs (some l) rs log) :
    ∃ l', log = some l' ∧ l'.journal = l.journal ++ rs := by
  cases h with
  | nothing => exact ⟨l, rfl, (List.append_nil _).symm⟩
  | one h =>
    rename_i t r seq
    rcases l.append_cases r with ⟨e, -, hr⟩ | ⟨-, -, -, -, hr⟩
    · rw [hr] at h; cases h
    · rw [hr] at h; cases h; exact ⟨_, rfl, rfl⟩

theorem Engine.journal_exec {e : Engine} {l : Sys} (hl : e.log = some l) (now : ℤ) (op : Op) :
    ∃ l', (e.exec now op).2.log = some l' ∧
      l'.journal = l.journal ++ e.effects now op (e.exec now op).1 := by
  unfold Engine.effects
  rcases e.exec_performed now op with ⟨he, hok, -⟩ | ⟨-, hlogs, -, hkeep⟩
  · have hfailed : (e.exec now op).1.isFailed = true := by simpa using hok
    rw [if_pos hfailed, List.append_nil, he]
    exact ⟨l, hl, rfl⟩
  · rw [hl] at hlogs
    obtain ⟨l', hl', hj⟩ := hlogs.journal
    refine ⟨l', hl', hj.trans ?_⟩
    split_ifs with hfailed
    · rw [hkeep (by rw [hfailed]; rfl)]
      rfl
    · rfl

theorem Aof.Sys.journal_of_step {l l' : Sys} {e : Aof.Event} (h : l.step e = some l')
    (he : ∀ r, e ≠ .append r) : l'.journal = l.journal := by
  cases Sys.step_moves h with
  | appended r => exact absurd rfl (he r)
  | _ => rfl

def Aof.Opened.engine (o : Opened) : Engine := ⟨o.dst, true, o.log, 0⟩

/-- The clock an operation reads is one UnixMilli is exact around. -/
def Call.ClockInRange : Call → Prop
  | .op now _ => ∃ r : Reading, r.now = now
  | _ => True

namespace Session

/-- The records recovered and appended write what the store holds, now and later. -/
structure Mirrors (recovered : List Record) (s : Session) : Prop where
  log : ∃ l, s.engine.log = some l ∧ ∀ t, s.clock ≤ t → ∀ k,
    liveAt t (written blank (recovered ++ l.journal) k) =
      liveAt t ((s.engine.store.entry k).map Entry.floor)
  exactAt : ExactAt s.engine.store.entry s.clock

theorem mirrors_opened {o : Opened} {policy : Policy} {started now : ℤ} {recovered : List Record}
    (hlog : o.log = some (.init policy started)) (hdst : o.dst = applyAll now .new recovered) :
    Mirrors recovered (start o.engine now) := by
  have hent : ∀ k, o.engine.store.entry k = liveAt now (written blank recovered k) := by
    rw [Opened.engine, hdst]
    exact entry_applyAll_new now recovered
  have hms : ∀ {k v d}, written blank recovered k = some (v, some d) → ∃ ms, d = ofUnixMilli ms :=
    written_deadline (fun _ _ _ h => by cases h)
  constructor
  · refine ⟨.init policy started, hlog, fun t (ht : now ≤ t) k => ?_⟩
    rw [start, hent, liveAt_floor ht]
    change liveAt t (written blank (recovered ++ []) k) = _
    rw [List.append_nil]
    rcases hw : written blank recovered k with _ | ⟨v, _ | d⟩
    · rfl
    · rfl
    · obtain ⟨ms, rfl⟩ := hms hw
      simp [Entry.floor, floorMilli_ofUnixMilli]
  · intro k v d hk
    rw [start, hent, liveAt_liveAt le_rfl] at hk
    obtain ⟨ms, rfl⟩ := hms (liveAt_eq_some.mp hk).1
    rw [Exact, unixMilli_ofUnixMilli, floorMilli_ofUnixMilli]

theorem mirrors_op {recovered : List Record} {s : Session} (h : s.Mirrors recovered) {r : Reading}
    {op : Op} (hnow : s.clock ≤ r.now) (replies : List Reply) :
    Mirrors recovered ⟨(s.engine.exec r.now op).2, r.now, replies⟩ := by
  obtain ⟨l, hl, hw⟩ := h.log
  have hex := h.exactAt.mono hnow
  have hput : ∀ key v d, op.change (s.engine.view r.now) r.now = .put key v (some d) →
      Exact d := by
    intro key v d hc
    rcases Op.deadline_of_put hc with ⟨dur, rfl⟩ | ⟨v', hv'⟩
    · exact ofUnixMilli_unixMilli_timeAdd r dur
    · exact hex key v' d hv'
  rcases s.engine.exec_performed r.now op with ⟨he, -, -⟩ | ⟨hent, hlogs, -, -⟩
  · rw [he]
    exact ⟨⟨l, hl, fun t ht => hw t (hnow.trans ht)⟩, hex⟩
  · rw [hl] at hlogs
    obtain ⟨l', hl', hj⟩ := hlogs.journal
    have hentry : (s.engine.exec r.now op).2.store.entry =
        (op.change (s.engine.view r.now) r.now).entries s.engine.store.entry := funext hent
    refine ⟨⟨l', hl', fun t ht k => ?_⟩, ?_⟩
    · rw [hj, ← List.append_assoc, written_append, hentry]
      exact written_records ht (hw t (hnow.trans ht)) _ hput k
    · rw [hentry]
      exact exactAt_change hex _ hput

theorem mirrors_sweep {recovered : List Record} {s : Session} (h : s.Mirrors recovered) {now : ℤ}
    (order : List Bytes) (hnow : s.clock ≤ now) :
    Mirrors recovered
      { s with engine := (s.engine.reclaimOnce now order).2, clock := now } := by
  obtain ⟨l, hl, hw⟩ := h.log
  have hlive : ∀ t, now ≤ t → ∀ k,
      liveAt t ((s.engine.reclaimOnce now order).2.store.entry k) =
        liveAt t (s.engine.store.entry k) :=
    fun t ht k => Store.liveAt_reclaimExpired ht _ _ order k
  constructor
  · refine ⟨l, hl, fun t ht k => ?_⟩
    rw [hw t (hnow.trans ht), ← liveAt_floor ht, ← hlive now le_rfl k, liveAt_floor ht]
  · intro k v d hk
    rw [hlive now le_rfl] at hk
    exact h.exactAt.mono hnow k v d hk

theorem mirrors_step {recovered : List Record} {s t : Session} {c : Call}
    (hstep : s.step c = some t) (hc : c.ClockInRange) (h : s.Mirrors recovered) :
    t.Mirrors recovered := by
  cases c with
  | op now op =>
    obtain ⟨r, rfl⟩ := hc
    simp only [step] at hstep
    split_ifs at hstep with hnow
    cases hstep
    exact mirrors_op h hnow.1 _
  | sweep now order =>
    simp only [step] at hstep
    split_ifs at hstep with hnow
    cases hstep
    exact mirrors_sweep h order hnow.1
  | log e =>
    obtain ⟨l, l', hl, hne, hl', rfl⟩ := log_step hstep
    obtain ⟨l₀, hl₀, hw⟩ := h.log
    obtain rfl : l₀ = l := Option.some.inj (hl₀.symm.trans hl)
    refine ⟨⟨l', rfl, ?_⟩, h.exactAt⟩
    rw [Aof.Sys.journal_of_step hl' hne]
    exact hw

/-- A log is opened and some records are recovered with it. In every state of every run, and at
every instant from the last clock reading on, replaying the records recovered and appended gives
each key the entry of the live store with its deadline rounded down, if that is still alive. -/
theorem log_refines_memory {o : Opened} {policy : Policy} {started opened : ℤ}
    {recovered : List Record} (hlog : o.log = some (.init policy started))
    (hdst : o.dst = applyAll opened .new recovered) {cs : List Call} {s : Session}
    (hclock : ∀ c ∈ cs, c.ClockInRange)
    (hrun : runSteps step (start o.engine opened) cs = some s) :
    ∃ l, s.engine.log = some l ∧ ∀ t, s.clock ≤ t → ∀ k,
      (applyAll t .new (recovered ++ l.journal)).entry k =
        match s.engine.store.entry k with
        | none => none
        | some (v, none) => some (v, none)
        | some (v, some d) => if t < floorMilli d then some (v, some (floorMilli d)) else none := by
  have h := runSteps_invariant_of (fun _ _ _ => mirrors_step) hrun hclock
    (mirrors_opened hlog hdst)
  obtain ⟨l, hl, hw⟩ := h.log
  refine ⟨l, hl, fun t ht k => ?_⟩
  rw [entry_applyAll_new, hw t ht k]
  rcases s.engine.store.entry k with _ | ⟨v, _ | d⟩
  · rfl
  · rfl
  · simp [Entry.floor, liveAt_some]

/-- A recovered key is counted up and given 3.5 ms to live. -/
def journalCalls : List Call :=
  [.op 1000000 (.incrBy [107] 41), .op 2000000 (.expire [107] 3500000),
    .op 2000000 (.delete [[108], [108]]), .log .recvNotify, .sweep 3000000 [[107]]]

private theorem journalCalls_inRange : ∀ c ∈ journalCalls, c.ClockInRange := by
  simp only [journalCalls, List.forall_mem_cons, Call.ClockInRange]
  exact ⟨⟨⟨1000000, by norm_num, by norm_num⟩, rfl⟩, ⟨⟨2000000, by norm_num, by norm_num⟩, rfl⟩,
    ⟨⟨2000000, by norm_num, by norm_num⟩, rfl⟩, trivial, trivial, by simp⟩

def oneKeyFile : Chunks := .whole (encodeHeader ++ encodes [.set [107] [49] none])

/-- Its deadline is read back as 5 ms. -/
theorem log_refines_memory_rounded :
    ∃ o s l, openFile .everySec ⟨0, none, none, none, 0⟩ oneKeyFile 0 .new = some o ∧
      runSteps step (start o.engine 0) journalCalls = some s ∧ s.engine.log = some l ∧
      (applyAll 4000000 .new ([.set [107] [49] none] ++ l.journal)).entry [107] =
        some ([52, 50], some 5000000) := by
  have hopen : ∃ o, openFile .everySec ⟨0, none, none, none, 0⟩ oneKeyFile 0 .new = some o ∧
      o.log = some (.init .everySec 0) ∧ o.dst = applyAll 0 .new [.set [107] [49] none] :=
    ⟨_, rfl, rfl, rfl⟩
  obtain ⟨o, hopen, hlog, hdst⟩ := hopen
  have hengine : o.engine =
      ⟨applyAll 0 .new [.set [107] [49] none], true, some (.init .everySec 0), 0⟩ := by
    rw [Opened.engine, hdst, hlog]
  have hrun : ∃ s, runSteps step (start o.engine 0) journalCalls = some s ∧ s.clock = 3000000 ∧
      s.engine.store.entry [107] = some ([52, 50], some 5500000) := by
    rw [hengine]
    exact ⟨_, rfl, rfl, rfl⟩
  obtain ⟨s, hrun, hnow, hentry⟩ := hrun
  obtain ⟨l, hl, h⟩ := log_refines_memory hlog hdst journalCalls_inRange hrun
  refine ⟨o, s, l, hopen, hrun, hl, ?_⟩
  rw [h 4000000 (by rw [hnow]; decide) [107], hentry]
  rfl

end Session

end GoKv
