import GoKv.Engine.Incarnations

/-! Counters. INCRBY reads exactly the canonical texts, adds in the integers, and keeps the
deadline it finds, in memory and in every record, across restarts. -/
namespace GoKv
open GoLib GoKv.Aof

/-! ## Canonical texts -/

namespace Engine

theorem leads_iff {c : UInt8} : ¬ (c < 49 ∨ 57 < c) ↔ 49 ≤ c.toNat ∧ c.toNat ≤ 57 := by
  rw [not_or, UInt8.not_lt, UInt8.not_lt]
  exact Iff.rfl

private theorem parseStoredInt_signed (neg : Bool) {c : UInt8} {cs : Bytes} (hc : 49 ≤ c.toNat)
    (hall : ∀ d ∈ c :: cs, isDigit d = true) :
    parseStoredInt (signed neg (c :: cs)) = parseInt64 (signed neg (c :: cs)) := by
  have hlead : ¬ (c < 49 ∨ 57 < c) := by
    have hdig := hall c List.mem_cons_self
    simp only [isDigit, Bool.and_eq_true, decide_eq_true_eq] at hdig
    exact leads_iff.mpr ⟨hc, hdig.2⟩
  have hdigits : (c :: cs).all isDigit = true := List.all_eq_true.mpr hall
  have hm : c ≠ 45 := by rintro rfl; exact absurd hc (by decide)
  have hz : c ≠ 48 := by rintro rfl; exact absurd hc (by decide)
  cases neg with
  | true =>
    simp only [parseStoredInt, signed, if_true, List.head?_cons, List.tail_cons, if_neg hlead,
      hdigits]
    simp
  | false =>
    simp only [parseStoredInt, signed, Bool.false_eq_true, if_false, List.head?_cons,
      Option.some.injEq, hm, if_neg hlead, hdigits, if_true]
    simp [hz]

/-- What parseStoredInt accepts is zero, or passed the grammar and ParseInt. -/
theorem parseStoredInt_cases {s : Bytes} {n : Int64} (h : parseStoredInt s = some n) :
    s = [48] ∧ n = 0 ∨ ∃ neg c cs, s = signed neg (c :: cs) ∧ 49 ≤ c.toNat ∧
      (∀ d ∈ c :: cs, isDigit d = true) ∧ parseInt64 s = some n := by
  unfold parseStoredInt at h
  by_cases hnil : s = []
  · rw [if_pos hnil] at h
    cases h
  · by_cases hzero : s = [48]
    · rw [if_neg hnil, if_pos hzero] at h
      exact .inl ⟨hzero, (Option.some.inj h).symm⟩
    · rw [if_neg hnil, if_neg hzero] at h
      obtain ⟨neg, hneg⟩ : ∃ neg, s = signed neg (if s.head? = some 45 then s.tail else s) := by
        obtain ⟨b, bs, rfl⟩ := List.exists_cons_of_ne_nil hnil
        by_cases hb : b = 45
        · exact ⟨true, by simp [signed, hb]⟩
        · exact ⟨false, by simp [signed, hb]⟩
      generalize (if s.head? = some 45 then s.tail else s) = digits at h hneg
      cases digits with
      | nil => cases h
      | cons c cs =>
        simp only [List.head?_cons] at h
        split_ifs at h with hlead hall
        exact .inr ⟨neg, c, cs, hneg, (leads_iff.mp hlead).1, List.all_eq_true.mp hall, h⟩

/-- parseStoredInt accepts exactly the texts FormatInt writes. -/
theorem parseStoredInt_eq_some {s : Bytes} {n : Int64} :
    parseStoredInt s = some n ↔ s = formatInt n.toInt := by
  constructor
  · intro h
    rcases parseStoredInt_cases h with ⟨rfl, rfl⟩ | ⟨neg, c, cs, rfl, hc, hall, hparse⟩
    · rfl
    · exact (formatInt_of_parseInt64 hc hall hparse).symm
  · rintro rfl
    by_cases hn : n.toInt = 0
    · obtain rfl : n = 0 := Int64.toInt_inj.mp hn
      rfl
    · obtain ⟨c, cs, htext⟩ := List.exists_cons_of_ne_nil (natText_ne_nil n.toInt.natAbs)
      have hc := head_natText_ge (Int.natAbs_pos.mpr hn) htext
      have hall := isDigit_of_mem_natText n.toInt.natAbs
      have hparse := parseInt64_formatInt n
      rw [formatInt_eq_signed, htext] at hparse ⊢
      rw [htext] at hall
      rw [parseStoredInt_signed _ hc hall, hparse]

/-! ## One increment -/

/-- The log, if there is one, takes appends. -/
def AcceptsAppends (e : Engine) : Prop :=
  ∀ l, e.log = some l → l.log.failed = none ∧ l.log.closing = false ∧ l.log.closed = false

/-- Where a count starts: from zero and without a deadline if the key is absent or expired, else
from the value whose canonical text it holds, under the deadline it has. -/
inductive CountsFrom (e : Engine) (now : ℤ) (key : Bytes) : ℤ → Option ℤ → Prop where
  | absent (h : e.view now key = none) : CountsFrom e now key 0 none
  | live {n : Int64} {d : Option ℤ} (h : e.view now key = some (formatInt n.toInt, d)) :
      CountsFrom e now key n.toInt d

def NotCanonical (e : Engine) (now : ℤ) (key : Bytes) : Prop :=
  ∃ v d, e.view now key = some (v, d) ∧ ∀ n : Int64, v ≠ formatInt n.toInt

def FitsInt64 (c : ℤ) : Prop := -2 ^ 63 ≤ c ∧ c < 2 ^ 63

private theorem countsFrom_or (e : Engine) (now : ℤ) (key : Bytes) :
    (e.NotCanonical now key ∧ incrStart (e.view now) key = .error .notAnInteger) ∨
      ∃ n d, e.CountsFrom now key n.toInt d ∧ incrStart (e.view now) key = .ok (n, d) := by
  unfold incrStart
  rcases hv : e.view now key with _ | ⟨v, d⟩
  · exact .inr ⟨0, none, .absent hv, rfl⟩
  · cases hp : parseStoredInt v with
    | none =>
      refine .inl ⟨⟨v, d, hv, fun n hn => ?_⟩, by simp only [hp]⟩
      rw [parseStoredInt_eq_some.mpr hn] at hp
      cases hp
    | some n =>
      rw [parseStoredInt_eq_some.mp hp] at hv
      exact .inr ⟨n, d, .live hv, by simp only [hp]⟩

theorem CountsFrom.not_notCanonical {e : Engine} {now : ℤ} {key : Bytes} {c : ℤ} {d : Option ℤ}
    (h : e.CountsFrom now key c d) : ¬ e.NotCanonical now key := by
  rintro ⟨v, d', hv, hne⟩
  cases h with
  | absent h =>
    rw [h] at hv
    cases hv
  | live h =>
    obtain ⟨rfl, -⟩ := Prod.mk.inj (Option.some.inj (h.symm.trans hv))
    exact hne _ rfl

theorem CountsFrom.unique {e : Engine} {now : ℤ} {key : Bytes} {b c : ℤ} {d d' : Option ℤ}
    (h : e.CountsFrom now key b d) (h' : e.CountsFrom now key c d') : b = c ∧ d = d' := by
  cases h with
  | absent h =>
    cases h' with
    | absent => exact ⟨rfl, rfl⟩
    | live h' =>
      rw [h] at h'
      cases h'
  | live h =>
    cases h' with
    | absent h' =>
      rw [h] at h'
      cases h'
    | live h' =>
      obtain ⟨htext, rfl⟩ := Prod.mk.inj (Option.some.inj (h.symm.trans h'))
      have hsame := parseStoredInt_eq_some.mpr htext
      rw [parseStoredInt_eq_some.mpr rfl] at hsame
      exact ⟨congrArg Int64.toInt (Option.some.inj hsame), rfl⟩

theorem addInt64_eq_none {a b : Int64} : addInt64 a b = none ↔ ¬ FitsInt64 (a.toInt + b.toInt) := by
  unfold addInt64 FitsInt64
  split_ifs with h
  · simpa using by omega
  · simpa using by omega

theorem toInt_of_addInt64 {a b m : Int64} (h : addInt64 a b = some m) :
    m.toInt = a.toInt + b.toInt := by
  unfold addInt64 at h
  split_ifs at h with hfit
  rw [← Option.some.inj h, Int64.toInt_ofInt_of_le (by omega) (by omega)]

private theorem commitRecord_ok {e : Engine} (h : e.AcceptsAppends) {rec : Record}
    (hw : rec.Writable) (apply : Store → Store) :
    ∃ seq e', e.commitRecord rec apply = (.ok seq, e') ∧ e'.store = apply e.store := by
  rcases e.commitRecord_cases rec apply with ⟨hlog, err, hres⟩ | ⟨seq, log', applied, hres, -⟩
  · obtain ⟨l, hl⟩ := Option.ne_none_iff_exists'.mp hlog
    obtain ⟨hf, hc, hd⟩ := h l hl
    simp only [commitRecord, hl, commit, Sys.append, Log.append_ok hf hc hd hw] at hres
    cases hres
  · exact ⟨seq, _, hres, rfl⟩

theorem incrFrom_spec {e : Engine} (h : e.AcceptsAppends) (key : Bytes) (n delta : Int64)
    (d : Option ℤ) :
    match addInt64 n delta with
    | none => (e.incrFrom key n delta d).1 = .error .incrOverflow
    | some m => ∃ seq, (e.incrFrom key n delta d).1 = .ok (m, seq) ∧
        ∀ k, (e.incrFrom key n delta d).2.store.entry k =
          if k = key then some (formatInt m.toInt, d) else e.store.entry k := by
  cases hadd : addInt64 n delta with
  | none => rw [incrFrom_of_none key d hadd]
  | some m =>
    rw [incrFrom_of_some key d hadd]
    obtain ⟨seq, e', hres, hstore⟩ := commitRecord_ok h
      (deriveSet_writable key (formatInt m.toInt) (d.getD zeroTime) d.isSome)
      fun s => s.set key (formatInt m.toInt) (d.getD zeroTime) d.isSome
    simp only [commitSet, hres, Prod.map_apply, id_eq]
    refine ⟨seq, rfl, fun k => ?_⟩
    rw [hstore, Store.entry_set]
    cases d <;> rfl

/-- INCRBY answers what its specification computes, and stores it under the same deadline. -/
theorem incrBy_spec {e : Engine} (ha : e.acceptingMutations = true) (h : e.AcceptsAppends) (now : ℤ)
    (key : Bytes) (delta : Int64) :
    match incrResult (e.view now) key delta with
    | .error err => (e.incrBy key delta now).1 = .error err
    | .ok (n, d) => ∃ seq, (e.incrBy key delta now).1 = .ok (n, seq) ∧
        ∀ k, (e.incrBy key delta now).2.store.entry k =
          if k = key then some (formatInt n.toInt, d) else e.store.entry k := by
  have hget := e.get_readNow now key
  simp only [incrBy, ha, if_true, incrResult, incrStart]
  rcases hv : e.view now key with _ | ⟨v, d⟩
  · rw [hv, Option.map_none] at hget
    have hfrom := incrFrom_spec h key 0 delta none
    simp only [hget]
    cases hadd : addInt64 0 delta <;> rw [hadd] at hfrom <;> exact hfrom
  · rw [hv, Option.map_some] at hget
    simp only [hget]
    cases parseStoredInt v with
    | none => rfl
    | some n =>
      have hfrom := incrFrom_spec h key n delta d
      have hd : e.store.expiresAt key = d := Store.expiresAt_eq (liveAt_eq_some.mp hv).1
      simp only [hd]
      cases hadd : addInt64 n delta <;> rw [hadd] at hfrom <;> exact hfrom

/-- INCRBY fails exactly on a live value that is not canonical and on a sum that does not fit;
else it answers and stores the sum, under the deadline the key has. -/
theorem incrBy_sum {e : Engine} (ha : e.acceptingMutations = true) (h : e.AcceptsAppends) (now : ℤ)
    (key : Bytes) (delta : Int64) :
    ((e.incrBy key delta now).1 = .error .notAnInteger ↔ e.NotCanonical now key) ∧
    ((e.incrBy key delta now).1 = .error .incrOverflow ↔
      ∃ c d, e.CountsFrom now key c d ∧ ¬ FitsInt64 (c + delta.toInt)) ∧
    ∀ c d, e.CountsFrom now key c d → FitsInt64 (c + delta.toInt) →
      ∃ n seq, (e.incrBy key delta now).1 = .ok (n, seq) ∧ n.toInt = c + delta.toInt ∧
        ∀ k, (e.incrBy key delta now).2.store.entry k =
          if k = key then some (formatInt (c + delta.toInt), d) else e.store.entry k := by
  have hspec := incrBy_spec ha h now key delta
  rcases e.countsFrom_or now key with ⟨hnot, hstart⟩ | ⟨n, d, hfrom, hstart⟩
  · simp only [incrResult, hstart] at hspec
    refine ⟨iff_of_true hspec hnot, ?_, fun c d hc => absurd hnot hc.not_notCanonical⟩
    rw [hspec]
    refine iff_of_false (by simp) ?_
    rintro ⟨c, d, hc, -⟩
    exact hc.not_notCanonical hnot
  · have hone : ∀ c d', e.CountsFrom now key c d' → c = n.toInt ∧ d' = d :=
      fun c d' hc => hc.unique hfrom
    simp only [incrResult, hstart] at hspec
    cases hadd : addInt64 n delta with
    | none =>
      have hover := addInt64_eq_none.mp hadd
      simp only [hadd] at hspec
      rw [hspec]
      refine ⟨iff_of_false (by simp) hfrom.not_notCanonical, iff_of_true rfl ⟨_, d, hfrom, hover⟩,
        fun c d' hc hfit => ?_⟩
      obtain ⟨rfl, rfl⟩ := hone c d' hc
      exact absurd hfit hover
    | some m =>
      have hm := toInt_of_addInt64 hadd
      have hfit : FitsInt64 (n.toInt + delta.toInt) := by
        by_contra hover
        rw [addInt64_eq_none.mpr hover] at hadd
        cases hadd
      simp only [hadd] at hspec
      obtain ⟨seq, hres, hent⟩ := hspec
      rw [hres]
      refine ⟨iff_of_false (by simp) hfrom.not_notCanonical, iff_of_false (by simp) ?_,
        fun c d' hc _ => ?_⟩
      · rintro ⟨c, d', hc, hover⟩
        obtain ⟨rfl, rfl⟩ := hone c d' hc
        exact hover hfit
      · obtain ⟨rfl, rfl⟩ := hone c d' hc
        exact ⟨m, seq, rfl, hm, hm ▸ hent⟩

end Engine

/-! ## Deadlines across restarts -/

def Aof.Record.About (key : Bytes) : Record → Prop
  | .set k _ _ => k = key
  | .del ks => key ∈ ks

/-- Among the operations that can change the key, only INCRBY does. -/
def Op.OnlyCounts (key : Bytes) : Op → Prop
  | .set k _ _ => k ≠ key
  | .expire k _ => k ≠ key
  | .persist k => k ≠ key
  | .delete ks => key ∉ ks
  | _ => True

def Op.SetsDeadline (key : Bytes) : Op → Prop
  | .set k _ t => k = key ∧ t.set = true
  | .expire k _ => k = key
  | _ => False

/-- Every record about the key sets it under the deadline `ms`. -/
def KeepsDeadline (key : Bytes) (ms : Int64) (rs : List Record) : Prop :=
  ∀ r ∈ rs, r.About key → ∃ v, r = .set key v (some ms)

private theorem written_keepsDeadline {key : Bytes} {ms : Int64} {rs : List Record}
    (h : KeepsDeadline key ms rs) {f : Bytes → Option Entry}
    (hf : ∃ v, f key = some (v, some (ofUnixMilli ms))) :
    ∃ v, written f rs key = some (v, some (ofUnixMilli ms)) := by
  induction rs generalizing f with
  | nil => exact hf
  | cons r rs ih =>
    obtain ⟨hr, hrs⟩ := List.forall_mem_cons.mp h
    refine ih hrs ?_
    cases r with
    | set k v ms' =>
      by_cases hk : k = key
      · obtain ⟨w, hw⟩ := hr hk
        cases hw
        exact ⟨v, by simp [Record.change, Change.entries]⟩
      · obtain ⟨w, hw⟩ := hf
        exact ⟨w, by simp [Record.change, Change.entries, Ne.symm hk, hw]⟩
    | del ks =>
      by_cases hk : key ∈ ks
      · obtain ⟨w, hw⟩ := hr hk
        cases hw
      · obtain ⟨w, hw⟩ := hf
        exact ⟨w, by simp [Record.change, Change.entries, hk, hw]⟩

theorem KeepsDeadline.mono {key : Bytes} {ms : Int64} {rs ts : List Record}
    (h : KeepsDeadline key ms ts) (hp : rs <+: ts) : KeepsDeadline key ms rs :=
  fun r hr => h r (hp.subset hr)

theorem KeepsDeadline.append {key : Bytes} {ms : Int64} {rs ts : List Record}
    (h : KeepsDeadline key ms rs) (h' : KeepsDeadline key ms ts) :
    KeepsDeadline key ms (rs ++ ts) :=
  List.forall_mem_append.mpr ⟨h, h'⟩

/-- The change leaves the key alone or writes it under the deadline `d`. -/
def Change.Spares (key : Bytes) (d : ℤ) : Change → Prop
  | .keep => True
  | .put k _ d' => k = key → d' = some d
  | .remove ks => key ∉ ks

theorem Change.Spares.entries {key : Bytes} {d : ℤ} {c : Change} (h : c.Spares key d)
    {f : Bytes → Option Entry} {v : Bytes} (hf : f key = some (v, some d)) :
    ∃ w, c.entries f key = some (w, some d) := by
  cases c with
  | keep => exact ⟨v, hf⟩
  | put k w d' =>
    by_cases hk : k = key
    · exact ⟨w, by simp [Change.entries, hk, h hk]⟩
    · exact ⟨v, by simp [Change.entries, Ne.symm hk, hf]⟩
  | remove ks => exact ⟨v, (if_neg h).trans hf⟩

theorem Change.Spares.records {key : Bytes} {d : ℤ} {c : Change} (h : c.Spares key d)
    (f : Bytes → Option Entry) : KeepsDeadline key (unixMilli d) (c.records f) := by
  intro r hr habout
  cases c with
  | keep => cases hr
  | put k w d' =>
    obtain rfl := List.mem_singleton.mp hr
    obtain rfl : k = key := habout
    obtain rfl := h rfl
    exact ⟨w, rfl⟩
  | remove ks =>
    simp only [Change.records] at hr
    split_ifs at hr
    · cases hr
    · obtain rfl := List.mem_singleton.mp hr
      exact absurd (Change.mem_present.mp habout).1 h

/-- INCRBY writes the key under the deadline it finds. -/
theorem Op.OnlyCounts.spares {key : Bytes} {op : Op} (h : op.OnlyCounts key)
    {f : Bytes → Option Entry} {d : ℤ} {v : Bytes} (hf : f key = some (v, some d)) (now : ℤ) :
    (op.change f now).Spares key d := by
  cases op with
  | set k w t => exact fun hk => absurd hk h
  | expire k dur =>
    simp only [Op.change]
    split
    · trivial
    · exact fun hk => absurd hk h
  | persist k =>
    simp only [Op.change]
    split
    · exact fun hk => absurd hk h
    · trivial
  | delete ks => exact h
  | incrBy k delta =>
    simp only [Op.change]
    cases hres : incrResult f k delta with
    | error err => trivial
    | ok q =>
      obtain ⟨n, d'⟩ := q
      rintro rfl
      rcases incrResult_deadline hres with ⟨hnone, -⟩ | ⟨w, hw⟩
      · rw [hf] at hnone
        cases hnone
      · exact (Prod.mk.inj (Option.some.inj (hw.symm.trans hf))).2
  | _ => trivial

namespace Incarnation

/-- The event happens before `ms`; it changes the key only by INCRBY, and a restart still finds
the first `n` records of the log. -/
def Event.CountsBefore (key : Bytes) (ms : Int64) (n : ℕ) : Event → Prop
  | .call (.op now op) => now < ofUnixMilli ms ∧ op.OnlyCounts key
  | .call (.sweep now _) => now < ofUnixMilli ms
  | .call (.log _) => True
  | .recover _ _ src now => now < ofUnixMilli ms ∧ n ≤ (pieces src.rest).length

/-- The key has a deadline that a record writes as `ms`, and every record about it after the one
that set the deadline says so. -/
structure Carries (key : Bytes) (ms : Int64) (first : List Record) (s : Incarnation) : Prop where
  records : ∃ rest, s.records = first ++ rest ∧ KeepsDeadline key ms rest
  entry : ∃ v d, s.engine.store.entry key = some (v, some d) ∧ unixMilli d = ms ∧
    ofUnixMilli ms ≤ d

section Moves

variable {key v : Bytes} {ms : Int64} {before : List Record} {s : Incarnation}

private theorem carries_op (hlogged : s.Logged) {now : ℤ} (hnow : now < ofUnixMilli ms) {op : Op}
    (hop : op.OnlyCounts key) {first : List Record} (h : s.Carries key ms first) :
    Carries key ms first { s with engine := (s.engine.exec now op).2 } := by
  obtain ⟨l, hl, -, -⟩ := hlogged.log
  obtain ⟨rest, hrecords, hrest⟩ := h.records
  obtain ⟨w, d, hentry, rfl, hd⟩ := h.entry
  rcases s.engine.exec_performed now op with ⟨he, -, -⟩ | ⟨hent, hlogs, -, -⟩
  · rw [he]
    exact h
  · have hview : s.engine.view now key = some (w, some d) :=
      liveAt_eq_some.mpr ⟨hentry, by simpa using hnow.trans_le hd⟩
    have hspares := hop.spares hview now
    rw [hl] at hlogs
    obtain ⟨l', hl', hj⟩ := hlogs.journal
    obtain ⟨w', hw'⟩ := hspares.entries hentry
    refine ⟨⟨_, ?_, hrest.append (hspares.records (s.engine.view now))⟩,
      w', d, (hent key).trans hw', rfl, hd⟩
    rw [← List.append_assoc, ← hrecords, Incarnation.records, journal_eq hl', hj,
      Incarnation.records, journal_eq hl, List.append_assoc]

private theorem carries_sweep {now : ℤ} (hnow : now < ofUnixMilli ms) (order : List Bytes)
    {first : List Record} (h : s.Carries key ms first) :
    Carries key ms first { s with engine := (s.engine.reclaimOnce now order).2 } := by
  obtain ⟨w, d, hentry, hms, hd⟩ := h.entry
  have hlive : liveAt now (s.engine.store.entry key) = some (w, some d) :=
    liveAt_eq_some.mpr ⟨hentry, by simpa using hnow.trans_le hd⟩
  rw [← Store.liveAt_reclaimExpired le_rfl _ Engine.expirationSample order] at hlive
  exact ⟨h.records, w, d, (liveAt_eq_some.mp hlive).1, hms, hd⟩

/-- A restart reads the deadline back from whichever record about the key it finds last. -/
theorem carries_recover (hlogged : s.Logged) {policy : Policy} {a : FileAnswers} {src : Chunks}
    {now : ℤ} {l l' : Sys} {o : Opened} (hl : s.engine.log = some l)
    (hcut : src.rest <+: s.file ++ l.accepted) (hopen : openFile policy a src now .new = some o)
    (hlog : o.log = some l') (hnow : now < ofUnixMilli ms)
    (hlen : before.length + 1 ≤ (pieces src.rest).length)
    (h : s.Carries key ms (before ++ [.set key v (some ms)])) :
    (opened o).Carries key ms (before ++ [.set key v (some ms)]) := by
  obtain ⟨-, hrecords, hdst⟩ := opened_spec hopen hlog
  obtain ⟨rest, hall, hrest⟩ := h.records
  have hkept := prefix_records_of_cut hlogged hl hcut
  rw [hall] at hkept
  obtain ⟨kept, hkept'⟩ := List.prefix_of_prefix_length_le (List.prefix_append _ rest) hkept
    (by simpa using hlen)
  rw [← hkept', List.prefix_append_right_inj] at hkept
  have hkeeps := hrest.mono hkept
  refine ⟨⟨kept, hrecords.trans hkept'.symm, hkeeps⟩, ?_⟩
  have hset : ∃ w, written blank (before ++ [.set key v (some ms)]) key =
      some (w, some (ofUnixMilli ms)) :=
    ⟨v, by simp [written_append, Record.change, Change.entries]⟩
  obtain ⟨w, hw⟩ := written_keepsDeadline hkeeps hset
  refine ⟨w, ofUnixMilli ms, ?_, unixMilli_ofUnixMilli ms, le_rfl⟩
  change o.dst.entry key = _
  rw [hdst, entry_applyAll_new, ← hkept', written_append, hw]
  exact liveAt_eq_some.mpr ⟨rfl, by simpa using hnow⟩

theorem carries_moves {t : Incarnation} {e : Event} (hm : s.Moves e t) (hlogged : s.Logged)
    (he : e.CountsBefore key ms (before.length + 1))
    (h : s.Carries key ms (before ++ [.set key v (some ms)])) :
    t.Carries key ms (before ++ [.set key v (some ms)]) := by
  cases hm with
  | op now op => exact carries_op hlogged he.1 he.2 h
  | sweep now order => exact carries_sweep he order h
  | log e hl hne hstep =>
    refine ⟨?_, h.entry⟩
    rw [Incarnation.records, journal_eq rfl, Sys.journal_of_step hstep hne, ← journal_eq hl]
    exact h.records
  | recover policy a src now hl hcut hopen hlog =>
    exact carries_recover hlogged hl hcut hopen hlog he.1 he.2 h

end Moves

/-- What gives a key a deadline counts it from the clock. -/
theorem change_of_setsDeadline {key : Bytes} {op : Op} (h : op.SetsDeadline key)
    (f : Bytes → Option Entry) (now : ℤ) :
    op.change f now = .keep ∨ ∃ w dur, op.change f now = .put key w (some (timeAdd now dur)) := by
  cases op with
  | set k w t =>
    obtain ⟨rfl, ht⟩ := h
    exact .inr ⟨w, t.d, by simp [Op.change, ht]⟩
  | expire k dur =>
    obtain rfl : k = key := h
    simp only [Op.change]
    rcases f k with _ | ⟨w, d⟩
    · exact .inl rfl
    · exact .inr ⟨w, dur, rfl⟩
  | _ => exact h.elim

theorem carries_start {key v : Bytes} {ms : Int64} {s : Incarnation} (hlogged : s.Logged)
    (r : Reading) {op : Op} (hop : op.SetsDeadline key)
    (hrec : records { s with engine := (s.engine.exec r.now op).2 } =
      s.records ++ [.set key v (some ms)]) :
    Carries key ms (s.records ++ [.set key v (some ms)])
      { s with engine := (s.engine.exec r.now op).2 } := by
  obtain ⟨l, hl, -, -⟩ := hlogged.log
  refine ⟨⟨[], hrec.trans (List.append_nil _).symm, nofun⟩, ?_⟩
  rcases s.engine.exec_performed r.now op with ⟨he, -, -⟩ | ⟨hent, hlogs, -, -⟩
  · rw [he] at hrec
    simp at hrec
  · rw [hl] at hlogs
    obtain ⟨l', hl', hj⟩ := hlogs.journal
    rw [records, journal_eq hl', hj, records, journal_eq hl, ← List.append_assoc,
      List.append_cancel_left_eq] at hrec
    rcases change_of_setsDeadline hop (s.engine.view r.now) r.now with hc | ⟨w, dur, hc⟩
    · rw [hc] at hrec
      cases hrec
    · rw [hc] at hrec
      cases hrec
      refine ⟨v, timeAdd r.now dur, ?_, rfl, ?_⟩
      · rw [hent, hc]
        exact if_pos rfl
      · exact (ofUnixMilli_unixMilli_timeAdd r dur).trans_le (floorMilli_le _)

/-- parseStoredInt accepts exactly the canonical texts. INCRBY adds in the integers: it fails just
on a sum that is no int64 and on a live value that is not canonical, and else answers and stores
the sum under the deadline of a live key, or none. Over any run of INCRBYs and restarts before the
deadline, every record about the key carries the PXAT of the record that set it. -/
theorem counter_exact :
    (∀ s n, Engine.parseStoredInt s = some n ↔ s = formatInt n.toInt) ∧
    (∀ (e : Engine) now key delta, e.acceptingMutations = true → e.AcceptsAppends →
      ((e.incrBy key delta now).1 = .error .notAnInteger ↔ e.NotCanonical now key) ∧
      ((e.incrBy key delta now).1 = .error .incrOverflow ↔
        ∃ c d, e.CountsFrom now key c d ∧ ¬ Engine.FitsInt64 (c + delta.toInt)) ∧
      ∀ c d, e.CountsFrom now key c d → Engine.FitsInt64 (c + delta.toInt) →
        ∃ n seq, (e.incrBy key delta now).1 = .ok (n, seq) ∧ n.toInt = c + delta.toInt ∧
          ∀ k, (e.incrBy key delta now).2.store.entry k =
            if k = key then some (formatInt (c + delta.toInt), d) else e.store.entry k) ∧
    ∀ policy a src now o, openFile policy a src now .new = some o → o.log ≠ none →
      ∀ es s, runSteps step (opened o) es = some s →
      ∀ (r : Reading) (op : Op) key v ms u, op.SetsDeadline key →
        s.step (.call (.op r.now op)) = some u → u.records = s.records ++ [.set key v (some ms)] →
      ∀ es' t, runSteps step u es' = some t →
        (∀ e ∈ es', e.CountsBefore key ms (s.records.length + 1)) →
        ∃ rest, t.records = s.records ++ .set key v (some ms) :: rest ∧
          KeepsDeadline key ms rest := by
  refine ⟨fun s n => Engine.parseStoredInt_eq_some,
    fun e now key delta ha h => Engine.incrBy_sum ha h now key delta, ?_⟩
  intro policy a src now o hopen hlog es s hrun r op key v ms u hop hu hrec es' t hrun' hes'
  obtain ⟨l, hl⟩ := Option.ne_none_iff_exists'.mp hlog
  have hlogged : s.Logged := runSteps_invariant (fun _ _ _ h => logged_moves (step_moves h)) hrun
    (opened_spec hopen hl).1
  have hm := step_moves hu
  have hstart : u.Carries key ms (s.records ++ [.set key v (some ms)]) := by
    cases hm
    exact carries_start hlogged r hop hrec
  have hkeep : ∀ s' e t', step s' e = some t' → e.CountsBefore key ms (s.records.length + 1) →
      s'.Logged ∧ s'.Carries key ms (s.records ++ [.set key v (some ms)]) →
      t'.Logged ∧ t'.Carries key ms (s.records ++ [.set key v (some ms)]) :=
    fun s' e t' h he hs' => ⟨logged_moves (step_moves h) hs'.1,
      carries_moves (step_moves h) hs'.1 he hs'.2⟩
  have hend := runSteps_invariant_of hkeep hrun' hes' ⟨logged_moves hm hlogged, hstart⟩
  obtain ⟨rest, hrest, hkeeps⟩ := hend.2.records
  exact ⟨rest, by rw [hrest, List.append_assoc, List.singleton_append], hkeeps⟩

def setForTen : Op := .set [107] [53] (.expiresIn 10000000000)

def counted : List Event :=
  [.call (.op 1000000 (.incrBy [107] 1)), .call (.log .recvNotify), .call (.log .swap),
    .call (.log (.write 96 none)), .call (.log .advanceWritten)]

def twiceRecords : List Record := [.set [107] [53] (some 10000), .set [107] [54] (some 10000)]

theorem recorded_twice : Recorded (frames twiceRecords) := by
  refine recorded_frames fun r hr => ?_
  simp only [twiceRecords, List.mem_cons, List.not_mem_nil, or_false] at hr
  rcases hr with rfl | rfl <;>
    exact ⟨by decide, by decide, by decide, by decide, by decide, by decide⟩

/-- Then the server restarts from the file, and the key is counted up again. -/
def restarted : List Event :=
  counted ++
    [.recover .everySec ⟨0, none, none, none, 0⟩
      (.whole (encodeHeader ++ (joined (frames twiceRecords) ++ []))) 2000000,
      .call (.op 3000000 (.incrBy [107] 2))]

theorem counter_exact_restarted :
    ∃ u t rest, (opened (newLog .everySec)).step (.call (.op 0 setForTen)) = some u ∧
      runSteps step u restarted = some t ∧
      t.records = .set [107] [53] (some 10000) :: rest ∧ KeepsDeadline [107] 10000 rest := by
  have hcounted : ∃ u m l,
      (opened (newLog .everySec)).step (.call (.op 0 setForTen)) = some u ∧
      u.records = [.set [107] [53] (some 10000)] ∧ runSteps step u counted = some m ∧
      m.engine.log = some l ∧
      m.file ++ l.accepted = encodeHeader ++ (joined (frames twiceRecords) ++ []) :=
    ⟨_, _, _, rfl, rfl, rfl, rfl, rfl⟩
  obtain ⟨u, m, l, hu, hrec, hm, hl, hfile⟩ := hcounted
  have hsrc := Chunks.rest_whole (encodeHeader ++ (joined (frames twiceRecords) ++ []))
  have hopen := openFile_recorded validHeader_encodeHeader recorded_twice parseRecord_nil
    (.inl rfl) hsrc .everySec ⟨0, none, none, none, 0⟩ 2000000 .new
  rw [openAt_ok rfl rfl] at hopen
  have hstep := step_recover hl (hsrc.trans hfile.symm ▸ List.prefix_rfl) hopen rfl
  have hagain : ∀ s : Incarnation, ∃ t, s.step (.call (.op 3000000 (.incrBy [107] 2))) = some t :=
    fun s => ⟨_, rfl⟩
  obtain ⟨t, ht⟩ := hagain (opened _)
  have hrun : runSteps step u restarted = some t := runSteps_append_eq_some.mpr ⟨m, hm,
    runSteps_cons_eq_some.mpr ⟨_, hstep, runSteps_cons_eq_some.mpr ⟨t, ht, runSteps_nil _⟩⟩⟩
  have hcounts : ∀ e ∈ restarted, e.CountsBefore [107] 10000 1 := by
    have hpieces : (pieces (Chunks.rest
        (.whole (encodeHeader ++ (joined (frames twiceRecords) ++ []))))).length = 2 := by
      rw [hsrc, pieces_eq validHeader_encodeHeader.length_eq recorded_twice parseRecord_nil]
      rfl
    simp only [restarted, counted, List.cons_append, List.nil_append, List.forall_mem_cons,
      Event.CountsBefore, hpieces]
    refine ⟨⟨by decide, trivial⟩, trivial, trivial, trivial, trivial, ⟨by decide, by decide⟩,
      ⟨by decide, trivial⟩, nofun⟩
  obtain ⟨rest, hrecords, hkeeps⟩ := counter_exact.2.2 _ _ _ _ _ (openFile_new .everySec) nofun
    [] _ rfl ⟨0, by norm_num, by norm_num⟩ setForTen [107] [53] 10000 u ⟨rfl, rfl⟩ hu hrec
    restarted t hrun hcounts
  exact ⟨u, t, rest, hu, hrun, hrecords, hkeeps⟩

end Incarnation

end GoKv
