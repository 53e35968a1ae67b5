import GoKv.Lib.Framing
import GoKv.Aof.Durable
import GoKv.Aof.Readback
import GoKv.Aof.Reopen

/-! Crash after crash. A file is opened, appended to and cut, any number of times; the records it
holds in the end are those the cuts left whole. -/
namespace GoKv.Aof
open GoLib GoKv.Resp

def recordAt (b : Bytes) : Option (Record × Bytes) := (parseRecord b).toOption

/-- The complete records of a file, each with its bytes. -/
def pieces (file : Bytes) : List (Record × Bytes) :=
  splitItems recordAt file.length (file.drop headerSize)

def frames (rs : List Record) : List (Record × Bytes) := rs.map fun r => (r, r.bytes)

theorem joined_frames (rs : List Record) : joined (frames rs) = encodes rs := by
  rw [joined, frames, List.map_map]
  rfl

theorem map_fst_frames (rs : List Record) : (frames rs).map Prod.fst = rs := by
  rw [frames, List.map_map]
  exact List.map_id rs

private theorem recordAt_error {b : Bytes} {e : DecodeErr} (h : parseRecord b = .error e) :
    recordAt b = none := by
  rw [recordAt, h]
  rfl

private theorem delimits_of_isRecord {r : Record} {b : Bytes} (h : IsRecord r b) :
    Delimits recordAt r b := by
  intro x
  rw [recordAt, parseRecord_append h]
  rfl

def Recorded (ps : List (Record × Bytes)) : Prop := ∀ p ∈ ps, IsRecord p.1 p.2

theorem Recorded.isLog {ps : List (Record × Bytes)} (h : Recorded ps) :
    IsLog (ps.map Prod.fst) (joined ps) := by
  induction ps with
  | nil => exact .nil
  | cons p ps ih =>
    obtain ⟨hp, hps⟩ := List.forall_mem_cons.mp h
    exact .cons hp (ih hps)

theorem IsLog.exists_recorded {rs : List Record} {body : Bytes} (h : IsLog rs body) :
    ∃ ps, Recorded ps ∧ ps.map Prod.fst = rs ∧ joined ps = body := by
  induction h with
  | nil => exact ⟨[], nofun, rfl, rfl⟩
  | @cons r b rs bs hb _ ih =>
    obtain ⟨ps, hps, rfl, rfl⟩ := ih
    exact ⟨(r, b) :: ps, List.forall_mem_cons.mpr ⟨hb, hps⟩, rfl, rfl⟩

theorem recorded_frames {rs : List Record} (h : ∀ r ∈ rs, r.Writable ∧ r.Fits) :
    Recorded (frames rs) := by
  intro p hp
  obtain ⟨r, hr, rfl⟩ := List.mem_map.mp hp
  exact isRecord_bytes (h r hr).1 (h r hr).2

/-! ## The records of a file -/

theorem splitItems_recorded {ps : List (Record × Bytes)} (h : Recorded ps) {t : Bytes}
    {e : DecodeErr} (ht : parseRecord t = .error e) {fuel : ℕ}
    (hfuel : (joined ps ++ t).length ≤ fuel) :
    splitItems recordAt fuel (joined ps ++ t) = ps := by
  have hcount := h.isLog.length_le
  rw [List.length_map] at hcount
  rw [List.length_append] at hfuel
  exact splitItems_joined (fun p hp => delimits_of_isRecord (h p hp)) (recordAt_error ht)
    (by omega)

theorem pieces_eq {hdr : Bytes} (hh : hdr.length = headerSize) {ps : List (Record × Bytes)}
    (h : Recorded ps) {t : Bytes} {e : DecodeErr} (ht : parseRecord t = .error e) :
    pieces (hdr ++ (joined ps ++ t)) = ps := by
  rw [pieces, ← hh, List.drop_left]
  refine splitItems_recorded h ht ?_
  simp only [List.length_append]
  omega

theorem recorded_pieces (file : Bytes) : Recorded (pieces file) := by
  obtain ⟨rs, body, tail, e, hb, hlog, he⟩ := exists_isLog (file.drop headerSize)
  obtain ⟨ps, hps, -, rfl⟩ := hlog.exists_recorded
  have hlen : (file.drop headerSize).length ≤ file.length := by
    rw [List.length_drop]
    omega
  rw [pieces, hb, splitItems_recorded hps he (hb ▸ hlen)]
  exact hps

theorem pieces_short {file : Bytes} (h : file.length ≤ headerSize) : pieces file = [] := by
  rw [pieces, List.drop_eq_nil_of_le h]
  have hnone : Recorded [] := nofun
  exact splitItems_recorded hnone parseRecord_nil (Nat.zero_le _)

theorem openFile_pieces {policy : Policy} {a : FileAnswers} {src : Chunks} {now : ℤ} {dst : Store}
    {o : Opened} {l : Sys} (h : openFile policy a src now dst = some o) (hl : o.log = some l) :
    l = .init policy a.started ∧
      (∃ hdr, ValidHeader hdr ∧ o.file = hdr ++ joined (pieces src.rest)) ∧
      o.dst = applyAll now dst ((pieces src.rest).map Prod.fst) := by
  obtain ⟨hinit, hdr, rs, body, ⟨hh, hlog, hsrc⟩, hfile, hdst⟩ := openFile_log h hl
  obtain ⟨ps, hps, rfl, rfl⟩ := hlog.exists_recorded
  have hpieces : pieces src.rest = ps := by
    rcases hsrc with ⟨hnil, -, hnone⟩ | ⟨tail, hsrc, htail⟩
    · rw [hnil, List.map_eq_nil_iff.mp hnone]
      exact pieces_short (Nat.zero_le _)
    · cases he : parseRecord tail with
      | error e => rw [hsrc, pieces_eq hh.length_eq hps he]
      | ok q =>
        obtain ⟨f, hf, hx⟩ := isRecord_of_parseRecord (r := q.1) (x := q.2) he
        exact absurd ⟨q.2, hx.symm⟩ (htail q.1 f hf)
  rw [hpieces]
  exact ⟨hinit, ⟨hdr, hh, hfile⟩, hdst⟩

/-! ## Cuts -/

/-- What a cut leaves of a record does not decode, and Replay takes it for a torn tail. -/
theorem parseRecord_cut {r : Record} {b t : Bytes} (h : IsRecord r b) (ht : t <+: b)
    (hlt : t.length < b.length) (hne : t ≠ []) :
    ∃ e, parseRecord t = .error e ∧ e ≠ .read (.io .eof) ∧ e.isIncomplete = true := by
  obtain ⟨parts, hf, -⟩ := h
  exact parseRecord_torn (torn_of_cut hf ht hlt hne)

/-- A file cut anywhere holds the records that end before the cut, and Replay accepts what is
left unless the cut is inside the header. -/
theorem cut_file {hdr : Bytes} (hh : ValidHeader hdr) {ps : List (Record × Bytes)}
    (hps : Recorded ps) {file : Bytes} (hf : file <+: hdr ++ joined ps) :
    pieces file = within (file.length - headerSize) ps ∧
      (headerSize ≤ file.length → ∃ t e, file = hdr ++ (joined (pieces file) ++ t) ∧
        parseRecord t = .error e ∧ (t = [] ∨ e ≠ .read (.io .eof) ∧ e.isIncomplete = true)) := by
  have hlen := hh.length_eq
  have hkept : Recorded (within (file.length - headerSize) ps) :=
    fun p hp => hps p ((prefix_of_within _ _).subset hp)
  obtain ⟨t, ht, hcut⟩ := take_joined (file.length - headerSize) ps
  have herr : ∃ e, parseRecord t = .error e ∧
      (t = [] ∨ e ≠ .read (.io .eof) ∧ e.isIncomplete = true) := by
    by_cases hne : t = []
    · exact ⟨_, hne ▸ parseRecord_nil, .inl hne⟩
    · obtain ⟨p, hp, hpre, hlt⟩ := hcut.resolve_left hne
      obtain ⟨e, he, hcases⟩ := parseRecord_cut (hps p hp) hpre hlt hne
      exact ⟨e, he, .inr hcases⟩
  obtain ⟨e, he, hcases⟩ := herr
  by_cases hle : headerSize ≤ file.length
  · have hfile : file = hdr ++ (joined (within (file.length - headerSize) ps) ++ t) := by
      rw [← ht, ← hlen]
      have := List.prefix_iff_eq_take.mp hf
      rwa [List.take_append, List.take_of_length_le (by omega)] at this
    have hpieces : pieces file = within (file.length - headerSize) ps := by
      generalize within (file.length - headerSize) ps = kept at hkept hfile ⊢
      rw [hfile, pieces_eq hlen hkept he]
    exact ⟨hpieces, fun _ => ⟨t, e, hpieces ▸ hfile, he, hcases⟩⟩
  · have hz : file.length - headerSize = 0 := by omega
    refine ⟨?_, fun h => absurd h hle⟩
    rw [pieces_short (by omega), hz]
    cases ps with
    | nil => rfl
    | cons p ps =>
      have := List.length_pos_iff.mpr (hps p List.mem_cons_self).ne_nil
      rw [within, if_neg (by omega)]

/-- Whatever a cut leaves, the complete records of it are the first ones of the file. A record
over the limits of Replay ends them. -/
theorem pieces_cut {hdr : Bytes} (hh : ValidHeader hdr) {ps : List (Record × Bytes)}
    (hps : Recorded ps) {rs : List Record} (hw : ∀ r ∈ rs, r.Writable) {file : Bytes}
    (hf : file <+: hdr ++ joined ps ++ encodes rs) :
    (pieces file).map Prod.fst <+: ps.map Prod.fst ++ rs := by
  have hwhole : ∀ {ps : List (Record × Bytes)}, Recorded ps → file <+: hdr ++ joined ps →
      (pieces file).map Prod.fst <+: ps.map Prod.fst := by
    intro ps hps hf
    rw [(cut_file hh hps hf).1]
    exact (prefix_of_within _ _).map _
  induction rs generalizing ps with
  | nil =>
    rw [List.append_nil]
    exact hwhole hps (by simpa [encodes] using hf)
  | cons r rs ih =>
    obtain ⟨hr, hrs⟩ := List.forall_mem_cons.mp hw
    have hsplit : encodes (r :: rs) = r.bytes ++ encodes rs := rfl
    rw [hsplit] at hf
    by_cases hfit : r.Fits
    · have hone : Recorded (ps ++ frames [r]) :=
        List.forall_mem_append.mpr ⟨hps, recorded_frames fun x hx => by
          rw [List.mem_singleton.mp hx]
          exact ⟨hr, hfit⟩⟩
      have hcut := ih hone hrs (by
        simpa only [joined_append, joined_frames, encodes, List.map_cons, List.map_nil,
          List.flatten_cons, List.flatten_nil, List.append_nil, List.append_assoc] using hf)
      simpa only [List.map_append, map_fst_frames, List.append_assoc,
        List.singleton_append] using hcut
    · rcases List.prefix_or_prefix_of_prefix hf (List.prefix_append _ _) with hin | ⟨t, rfl⟩
      · exact (hwhole hps hin).trans (List.prefix_append _ _)
      · rw [List.prefix_append_right_inj] at hf
        obtain ⟨y, hy⟩ := hf
        cases ht : parseRecord t with
        | error e =>
          rw [List.append_assoc, pieces_eq hh.length_eq hps ht]
          exact List.prefix_append _ _
        | ok q =>
          -- A record in what is left would begin the oversized one as well.
          obtain ⟨f, hrec, rfl⟩ := isRecord_of_parseRecord (r := q.1) (x := q.2) ht
          obtain ⟨msg, hmsg⟩ := parseRecord_oversize hfit (encodes rs)
          rw [← hy, List.append_assoc, parseRecord_append hrec] at hmsg
          cases hmsg

/-! ## Reading back -/

theorem replay_recorded {hdr : Bytes} (hh : ValidHeader hdr) {ps : List (Record × Bytes)}
    (hps : Recorded ps) {t : Bytes} {e : DecodeErr} (ht : parseRecord t = .error e)
    (hcases : t = [] ∨ e ≠ .read (.io .eof) ∧ e.isIncomplete = true) {src : Chunks}
    (hsrc : src.rest = hdr ++ (joined ps ++ t)) (now : ℤ) (dst : Store) :
    replayChunks src now dst =
      some ⟨⟨ps.length, (headerSize + (joined ps).length : ℕ), decide (t ≠ [])⟩, none,
        applyAll now dst (ps.map Prod.fst)⟩ := by
  rw [replay_tail hh hps.isLog ht hsrc now dst, replayEnd, List.length_map]
  rcases hcases with rfl | ⟨heof, hinc⟩
  · cases ht
    rfl
  · have hne : t ≠ [] := by
      rintro rfl
      cases ht
      exact heof rfl
    rw [if_neg heof, if_pos hinc, decide_eq_true hne]

theorem openFile_recorded {hdr : Bytes} (hh : ValidHeader hdr) {ps : List (Record × Bytes)}
    (hps : Recorded ps) {t : Bytes} {e : DecodeErr} (ht : parseRecord t = .error e)
    (hcases : t = [] ∨ e ≠ .read (.io .eof) ∧ e.isIncomplete = true) {src : Chunks}
    (hsrc : src.rest = hdr ++ (joined ps ++ t)) (policy : Policy) (a : FileAnswers) (now : ℤ)
    (dst : Store) :
    openFile policy a src now dst =
      some (openAt policy a
        ⟨ps.length, (headerSize + (joined ps).length : ℕ), decide (t ≠ [])⟩
        (applyAll now dst (ps.map Prod.fst)) src.rest) := by
  have hpos : ¬ ((headerSize + (joined ps).length : ℕ) : ℤ) = 0 := by
    have : headerSize = 16 := rfl
    omega
  rw [openFile, replay_recorded hh hps ht hcases hsrc now dst]
  exact congrArg some (if_neg hpos)

theorem truncate_recorded {hdr : Bytes} (hh : ValidHeader hdr) (b t : Bytes) :
    truncate (hdr ++ (b ++ t)) (headerSize + b.length : ℕ) = hdr ++ b := by
  rw [← List.append_assoc, ← hh.length_eq, ← List.length_append]
  exact truncate_append _ _

/-- Whatever the file answers, it is cut to the offset or left alone. -/
theorem openAt_whole (policy : Policy) (a : FileAnswers) (res : Result) (dst : Store)
    {file : Bytes} (h : truncate file res.lastValidOffset = file) :
    (openAt policy a res dst file).result = res ∧ (openAt policy a res dst file).dst = dst ∧
      (openAt policy a res dst file).file = file := by
  unfold openAt
  cases a.truncateErr with
  | some c => exact ⟨rfl, rfl, rfl⟩
  | none =>
    cases a.seekErr with
    | some c => exact ⟨rfl, rfl, h⟩
    | none => exact ⟨rfl, rfl, h⟩

theorem openAt_ok {policy : Policy} {a : FileAnswers} (ht : a.truncateErr = none)
    (hs : a.seekErr = none) (res : Result) (dst : Store) (file : Bytes) :
    openAt policy a res dst file =
      ⟨some (.init policy a.started), res, none, dst, truncate file res.lastValidOffset⟩ := by
  rw [openAt, ht, hs]

theorem openFile_empty {src : Chunks} (hsrc : src.rest = []) {policy : Policy} {a : FileAnswers}
    (hw : a.writeErr = none) (now : ℤ) (dst : Store) :
    openFile policy a src now dst =
      some (openAt policy a ⟨0, headerSize, false⟩ dst encodeHeader) := by
  have hdel := Counting.delivers Chunks.delivers src.rest.length
  obtain ⟨s', hempty⟩ := readHeader_empty hdel (s := ⟨src, 0⟩) ⟨trivial, Nat.zero_add _⟩ hsrc
  simp only [openFile, replayChunks, replay, hempty, hsrc, hw, Option.map_some, if_true,
    List.drop_nil, List.append_nil]

/-! ## Rounds -/

theorem Sys.writable_step {s t : Sys} {e : Event} (h : s.step e = some t)
    (hs : ∀ r ∈ s.journal, r.Writable) : ∀ r ∈ t.journal, r.Writable := by
  cases Sys.step_moves h with
  | appended r hf hc hd hr =>
    exact List.forall_mem_append.mpr ⟨hs, List.forall_mem_singleton.mpr hr⟩
  | _ => exact hs

theorem Sys.writable_run {policy : Policy} {now : ℤ} {es : List Event} {s : Sys}
    (h : runSteps Sys.step (.init policy now) es = some s) : ∀ r ∈ s.journal, r.Writable :=
  runSteps_invariant (fun _ _ _ => Sys.writable_step) h nofun

/-- Once everything appended is written, the file has taken exactly the records. -/
theorem Sys.Durable.accepted_eq {s : Sys} (h : s.Durable) (hw : s.log.written = s.log.appended) :
    s.accepted = encodes s.journal := by
  have hall := h.wholly
  rw [hw, h.appended, List.take_length] at hall
  have hupto := h.accepted.trans (prefix_encodes_take s.journal s.taken)
  exact hupto.eq_of_length (Nat.le_antisymm hupto.length_le hall.length_le)

/-- A file that is opened, appended to by any schedule and cut anywhere, again and again. Each
round is listed with the records appended in it and the length of the file after the cut. -/
inductive Rounds (file : Bytes) : List (List Record × ℕ) → Bytes → Prop where
  | nil : Rounds file [] file
  | round {hist : List (List Record × ℕ)} {before after : Bytes} {policy : Policy}
      {a : FileAnswers} {src : Chunks} {now : ℤ} {dst : Store} {o : Opened} {l s : Sys}
      {es : List Event} (prev : Rounds file hist before) (hsrc : src.rest = before)
      (hopen : openFile policy a src now dst = some o) (hlog : o.log = some l)
      (hrun : runSteps Sys.step l es = some s) (hfits : ∀ r ∈ s.journal, r.Fits)
      (hcut : after <+: o.file ++ s.accepted) :
      Rounds file (hist ++ [(s.journal, after.length)]) after

/-- The records that are left when each round appends its records and cuts what does not end
within the length it leaves. -/
def surviving (ps : List (Record × Bytes)) (hist : List (List Record × ℕ)) :
    List (Record × Bytes) :=
  hist.foldl (fun ps round => within (round.2 - headerSize) (ps ++ frames round.1)) ps

theorem round_file {policy : Policy} {a : FileAnswers} {src : Chunks} {now : ℤ} {dst : Store}
    {o : Opened} {l s : Sys} {es : List Event} (hopen : openFile policy a src now dst = some o)
    (hlog : o.log = some l) (hrun : runSteps Sys.step l es = some s)
    (hfits : ∀ r ∈ s.journal, r.Fits) :
    Recorded (pieces src.rest ++ frames s.journal) ∧ ∃ hdr, ValidHeader hdr ∧
      o.file ++ s.accepted <+: hdr ++ joined (pieces src.rest ++ frames s.journal) := by
  obtain ⟨rfl, ⟨hdr, hh, hfile⟩, -⟩ := openFile_pieces hopen hlog
  have hw := Sys.writable_run hrun
  have hacc := (Sys.durable_run hrun).accepted.trans (prefix_encodes_take _ _)
  refine ⟨List.forall_mem_append.mpr ⟨recorded_pieces _, recorded_frames fun r hr =>
    ⟨hw r hr, hfits r hr⟩⟩, hdr, hh, ?_⟩
  rw [hfile, joined_append, joined_frames, ← List.append_assoc]
  exact (List.prefix_append_right_inj _).mpr hacc

/-- After any number of rounds the file holds exactly the records that survived the cuts. -/
theorem Rounds.pieces_eq {file after : Bytes} {hist : List (List Record × ℕ)}
    (h : Rounds file hist after) : pieces after = surviving (pieces file) hist := by
  induction h with
  | nil => rfl
  | round prev hsrc hopen hlog hrun hfits hcut ih =>
    obtain ⟨hps, hdr, hh, hfile⟩ := round_file hopen hlog hrun hfits
    rw [(cut_file hh hps (hcut.trans hfile)).1, hsrc, ih]
    unfold surviving
    rw [List.foldl_append]
    rfl

/-- What is left after a round is a header and the records that survived, with at most a part of
one record after them. -/
theorem Rounds.torn {file after : Bytes} {hist : List (List Record × ℕ)}
    (h : Rounds file hist after) (hne : hist ≠ []) (hlen : headerSize ≤ after.length) :
    ∃ hdr t e, ValidHeader hdr ∧ after = hdr ++ (joined (pieces after) ++ t) ∧
      parseRecord t = .error e ∧ (t = [] ∨ e ≠ .read (.io .eof) ∧ e.isIncomplete = true) := by
  cases h with
  | nil => exact absurd rfl hne
  | round prev hsrc hopen hlog hrun hfits hcut =>
    obtain ⟨hps, hdr, hh, hfile⟩ := round_file hopen hlog hrun hfits
    obtain ⟨t, e, ht⟩ := (cut_file hh hps (hcut.trans hfile)).2 hlen
    exact ⟨hdr, t, e, hh, ht⟩

/-- OpenFile repairs a file once. What is appended and flushed after it replays as the complete
records the file began with and then the appended ones, with nothing torn. Over any number of
rounds with arbitrary cuts the file holds exactly the records that survived, and unless the header
itself is cut it opens again, to just those. A file just recovered is left as it is, and so is the
store it was recovered to. -/
theorem recovery_rounds :
    (∀ policy a src now dst o l es s, openFile policy a src now dst = some o → o.log = some l →
      runSteps Sys.step l es = some s → s.log.written = s.log.appended →
      (∀ r ∈ s.journal, r.Fits) →
      ∀ src' : Chunks, src'.rest = o.file ++ s.accepted → ∀ now' dst',
        pieces src'.rest = pieces src.rest ++ frames s.journal ∧
        replayChunks src' now' dst' =
          some ⟨⟨(pieces src.rest).length + s.journal.length, src'.rest.length, false⟩, none,
            applyAll now' dst' ((pieces src.rest).map Prod.fst ++ s.journal)⟩) ∧
    (∀ file hist after, Rounds file hist after →
      pieces after = surviving (pieces file) hist ∧
      (hist ≠ [] → after = [] ∨ headerSize ≤ after.length →
        ∀ policy a src now dst, src.rest = after → a.writeErr = none → a.truncateErr = none →
          a.seekErr = none → ∃ o hdr, openFile policy a src now dst = some o ∧
            o.log = some (.init policy a.started) ∧ ValidHeader hdr ∧
            o.file = hdr ++ joined (pieces after) ∧
            o.dst = applyAll now dst ((pieces after).map Prod.fst))) ∧
    ∀ policy a src now dst o, openFile policy a src now dst = some o → o.log ≠ none →
      ∀ policy' a' (src' : Chunks), src'.rest = o.file →
        ∃ o', openFile policy' a' src' now dst = some o' ∧ o'.result.truncated = false ∧
          o'.file = o.file ∧ o'.dst = o.dst := by
  refine ⟨?_, ?_, ?_⟩
  · intro policy a src now dst o l es s hopen hlog hrun hflushed hfits src' hsrc' now' dst'
    have hps := (round_file hopen hlog hrun hfits).1
    obtain ⟨rfl, ⟨hdr, hh, hfile⟩, -⟩ := openFile_pieces hopen hlog
    have hwhole : src'.rest =
        hdr ++ (joined (pieces src.rest ++ frames s.journal) ++ []) := by
      rw [hsrc', hfile, (Sys.durable_run hrun).accepted_eq hflushed, joined_append, joined_frames,
        List.append_nil, List.append_assoc]
    refine ⟨?_, ?_⟩
    · rw [hwhole, pieces_eq hh.length_eq hps parseRecord_nil]
    · rw [replay_recorded hh hps parseRecord_nil (.inl rfl) hwhole, List.map_append,
        map_fst_frames, List.length_append, frames, List.length_map, ← hh.length_eq,
        ← List.length_append, hwhole, List.append_nil]
      rfl
  · intro file hist after hrounds
    refine ⟨hrounds.pieces_eq, ?_⟩
    rintro hne (rfl | hlen) policy a src now dst hsrc hwrite htrunc hseek
    · refine ⟨_, encodeHeader, openFile_empty hsrc hwrite now dst, ?_⟩
      rw [openAt_ok htrunc hseek, pieces_short (Nat.zero_le _)]
      exact ⟨rfl, validHeader_encodeHeader, rfl, rfl⟩
    · obtain ⟨hdr, t, e, hh, hafter, ht, hcases⟩ := hrounds.torn hne hlen
      have hopen := openFile_recorded hh (recorded_pieces after) ht hcases (hsrc.trans hafter)
        policy a now dst
      refine ⟨_, hdr, hopen, ?_⟩
      rw [openAt_ok htrunc hseek]
      refine ⟨rfl, hh, ?_, rfl⟩
      have hcut := truncate_recorded hh (joined (pieces after)) t
      rw [← hafter, ← hsrc] at hcut
      exact hsrc ▸ hcut
  · intro policy a src now dst o hopen hlog policy' a' src' hsrc'
    obtain ⟨l, hl⟩ := Option.ne_none_iff_exists'.mp hlog
    obtain ⟨-, ⟨hdr, hh, hfile⟩, hdst⟩ := openFile_pieces hopen hl
    have hwhole : src'.rest = hdr ++ (joined (pieces src.rest) ++ []) := by
      rw [hsrc', hfile, List.append_nil]
    have hcut := truncate_recorded hh (joined (pieces src.rest)) []
    rw [← hwhole, ← hfile, ← hsrc'] at hcut
    have hopen' := openFile_recorded hh (recorded_pieces _) parseRecord_nil (.inl rfl) hwhole
      policy' a' now dst
    obtain ⟨hres, hsame, hkept⟩ := openAt_whole policy' a'
      ⟨(pieces src.rest).length, (headerSize + (joined (pieces src.rest)).length : ℕ), false⟩
      (applyAll now dst ((pieces src.rest).map Prod.fst)) hcut
    exact ⟨_, hopen', congrArg Result.truncated hres, hkept.trans hsrc', hsame.trans hdst.symm⟩

def setRecord : Record := .set [107] [118] none

/-- That many of them, appended and then written at once. -/
def flushing (n : ℕ) : List Event :=
  List.replicate n (.append setRecord) ++
    [.recvNotify, .swap, .write (27 * n) none, .advanceWritten]

def tornFile : Bytes := (encodeHeader ++ encodes [setRecord, setRecord]).take 53

/-- Two rounds from an empty file: the second opens a torn one, repairs it and appends to what is
left. -/
theorem recovery_rounds_twice :
    ∃ after, Rounds [] [([setRecord, setRecord], 53), ([setRecord], 70)] after ∧
      pieces after = frames [setRecord, setRecord] ∧
      (∀ now dst, replayChunks (.whole after) now dst =
        some ⟨⟨2, 70, false⟩, none, applyAll now dst [setRecord, setRecord]⟩) ∧
      ∀ now dst, ∃ o, openFile .always ⟨0, none, none, none, 0⟩ (.whole after) now dst = some o ∧
        o.dst = applyAll now dst [setRecord, setRecord] := by
  have hfits : setRecord.Fits := ⟨by decide, by decide, by decide, by decide, by decide⟩
  have hfirst : ∃ s, runSteps Sys.step (.init .everySec 0) (flushing 2) = some s ∧
      s.journal = [setRecord, setRecord] ∧ s.accepted = encodes [setRecord, setRecord] :=
    ⟨_, rfl, rfl, rfl⟩
  obtain ⟨s, hrun, hjournal, haccepted⟩ := hfirst
  have htorn : Rounds [] [([setRecord, setRecord], 53)] tornFile := by
    have hround : Rounds [] ([] ++ [(s.journal, tornFile.length)]) tornFile :=
      .round .nil (Chunks.rest_whole []) (openFile_new .everySec) rfl hrun
        (by simp [hjournal, hfits]) (by rw [haccepted]; exact List.take_prefix _ _)
    rwa [hjournal] at hround
  obtain ⟨o, hdr, hopen, hlog, hh, hfile, -⟩ := (recovery_rounds.2.1 _ _ _ htorn).2
    (List.cons_ne_nil _ _) (.inr (by decide)) .everySec ⟨0, none, none, none, 0⟩ (.whole tornFile) 0
    .new (Chunks.rest_whole _) rfl rfl rfl
  have hkept : pieces tornFile = frames [setRecord] := (recovery_rounds.2.1 _ _ _ htorn).1
  have hsecond : ∃ s, runSteps Sys.step (.init .everySec 0) (flushing 1) = some s ∧
      s.journal = [setRecord] ∧ s.log.written = s.log.appended ∧ s.accepted.length = 27 :=
    ⟨_, rfl, rfl, rfl, rfl⟩
  obtain ⟨s', hrun', hjournal', hflushed, haccepted'⟩ := hsecond
  have hfits' : ∀ r ∈ s'.journal, r.Fits := by simp [hjournal', hfits]
  have hlen : (o.file ++ s'.accepted).length = 70 := by
    rw [hfile, hkept, List.length_append, List.length_append, hh.length_eq, haccepted']
    rfl
  have hrounds : Rounds [] [([setRecord, setRecord], 53), ([setRecord], 70)]
      (o.file ++ s'.accepted) := by
    have hround := Rounds.round htorn (Chunks.rest_whole _) hopen hlog hrun' hfits'
      (List.prefix_refl _)
    rwa [hjournal', hlen] at hround
  obtain ⟨hpieces, hreopen⟩ := recovery_rounds.2.1 _ _ _ hrounds
  refine ⟨_, hrounds, hpieces, fun now dst => ?_, fun now dst => ?_⟩
  · have hreplay := (recovery_rounds.1 _ _ _ _ _ _ _ _ _ hopen hlog hrun' hflushed hfits'
      (.whole _) (Chunks.rest_whole _) now dst).2
    rwa [Chunks.rest_whole, Chunks.rest_whole, hkept, hjournal', hlen] at hreplay
  · obtain ⟨o', -, hopen', -, -, -, hdst⟩ := hreopen (List.cons_ne_nil _ _)
      (.inr (by rw [hlen]; decide)) .always ⟨0, none, none, none, 0⟩ (.whole _) now dst
      (Chunks.rest_whole _) rfl rfl rfl
    refine ⟨o', hopen', ?_⟩
    rw [hdst, hpieces]
    rfl

end GoKv.Aof
