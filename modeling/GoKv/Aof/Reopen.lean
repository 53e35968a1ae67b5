import GoKv.Aof.Open
import GoKv.Aof.Recovery

/-! What OpenFile accepts: nothing, or a header, complete records and a tail that is cut off. -/
namespace GoKv.Aof
open GoLib GoKv.Resp

theorem isRecord_of_parseRecord {b x : Bytes} {r : Record} (h : parseRecord b = .ok (r, x)) :
    ∃ f, IsRecord r f ∧ b = f ++ x := by
  unfold parseRecord at h
  rcases parseFrame_cases defaultLimits b with ⟨args, f, y, hf, rfl⟩ | rfl | htorn | ⟨msg, hmsg⟩
  · simp only [parseFrame_append hf] at h
    cases hd : decodeParts args with
    | error c => simp [hd] at h
    | ok rec =>
      simp only [hd, Except.ok.injEq, Prod.mk.injEq] at h
      obtain ⟨rfl, rfl⟩ := h
      exact ⟨f, ⟨args, hf, hd⟩, rfl⟩
  · cases h
  · obtain ⟨msg, hmsg⟩ := parseFrame_torn htorn
    simp [hmsg] at h
  · simp [hmsg] at h

/-- Any bytes are complete records and a tail that does not begin with one. -/
theorem exists_isLog (b : Bytes) :
    ∃ rs body tail e, b = body ++ tail ∧ IsLog rs body ∧ parseRecord tail = .error e := by
  induction hn : b.length using Nat.strong_induction_on generalizing b with
  | _ n ih =>
    subst hn
    cases hp : parseRecord b with
    | error e => exact ⟨[], [], b, e, rfl, .nil, hp⟩
    | ok q =>
      obtain ⟨r, x⟩ := q
      obtain ⟨f, hf, rfl⟩ := isRecord_of_parseRecord hp
      have hpos := List.length_pos_iff.mpr hf.ne_nil
      have hlt : x.length < (f ++ x).length := by
        rw [List.length_append]
        omega
      obtain ⟨rs, body, tail, e, rfl, hlog, he⟩ := ih x.length hlt x rfl
      exact ⟨r :: rs, f ++ body, tail, e, (List.append_assoc _ _ _).symm, .cons hf hlog, he⟩

theorem readHeader_empty {σ : Type*} {R : IoReader σ} {I : σ → Prop} {src : σ → Bytes}
    (h : Delivers R I src) {s : σ} (hs : I s) (hnil : src s = []) :
    ∃ s', readHeader R s = (.ok true, s') := by
  obtain ⟨hdata, herr, -, -⟩ := readFull_short h hs (k := headerSize) (by rw [hnil]; decide)
  exact ⟨_, by simp only [readHeader, hdata, herr, hnil]; rfl⟩

private theorem readHeader_cases {σ : Type*} {R : IoReader σ} {I : σ → Prop} {src : σ → Bytes}
    (h : Delivers R I src) {s : σ} (hs : I s) :
    (src s = [] ∧ ∃ s', readHeader R s = (.ok true, s')) ∨
      (∃ hdr b, ValidHeader hdr ∧ src s = hdr ++ b) ∨ ∃ e s', readHeader R s = (.error e, s') := by
  rcases lt_or_ge (src s).length headerSize with hlt | hge
  · obtain ⟨hdata, herr, -, -⟩ := readFull_short h hs hlt
    by_cases hnil : src s = []
    · exact Or.inl ⟨hnil, readHeader_empty h hs hnil⟩
    · exact Or.inr (Or.inr ⟨.truncated, _, by simp only [readHeader, hdata, herr, hnil]; rfl⟩)
  · obtain ⟨hdata, herr, -, -⟩ := readFull_enough h hs hge
    have hlen : ((src s).take headerSize).length = headerSize := by
      rw [List.length_take]
      omega
    have hne : (src s).take headerSize ≠ [] :=
      List.ne_nil_of_length_pos (by rw [hlen]; decide)
    by_cases hm : ((src s).take headerSize).take 8 = magic
    · by_cases hv : ofUint32BE ((((src s).take headerSize).take 12).drop 8) = formatVersion
      · exact Or.inr (Or.inl ⟨_, _, ⟨hlen, hm, hv⟩, (List.take_append_drop _ _).symm⟩)
      · refine Or.inr (Or.inr
          ⟨.unsupportedVersion (ofUint32BE ((((src s).take headerSize).take 12).drop 8)),
            (readFull R s headerSize).next, ?_⟩)
        simp only [readHeader, hdata, herr, hne, hm, hv, false_and, if_false, ne_eq, not_true,
          not_false_iff, if_true]
    · refine Or.inr (Or.inr ⟨.notAnAOF, (readFull R s headerSize).next, ?_⟩)
      simp only [readHeader, hdata, herr, hne, hm, false_and, if_false, ne_eq, not_false_iff,
        if_true]

/-- The header and the records of a file that is empty, or that ends in less than a record. -/
structure Recovers (src hdr : Bytes) (rs : List Record) (body : Bytes) : Prop where
  header : ValidHeader hdr
  records : IsLog rs body
  source : (src = [] ∧ hdr = encodeHeader ∧ rs = []) ∨
    ∃ tail, src = hdr ++ (body ++ tail) ∧ ∀ r b, IsRecord r b → ¬ b <+: tail

theorem openAt_log {policy : Policy} {a : FileAnswers} {res : Result} {dst : Store} {file : Bytes}
    {l : Sys} (h : (openAt policy a res dst file).log = some l) :
    l = .init policy a.started ∧ (openAt policy a res dst file).dst = dst ∧
      (openAt policy a res dst file).file = truncate file res.lastValidOffset := by
  unfold openAt at h ⊢
  cases ht : a.truncateErr with
  | some c => simp [ht] at h
  | none =>
    cases hs : a.seekErr with
    | some c => simp [ht, hs] at h
    | none =>
      simp only [ht, hs] at h
      exact ⟨(Option.some.inj h).symm, rfl, rfl⟩

theorem truncate_append (b x : Bytes) : truncate (b ++ x) b.length = b := by
  simp [truncate]

/-- When OpenFile returns a log, the file holds exactly the complete records it began with, and
the store what they lead to. -/
theorem openFile_log {policy : Policy} {a : FileAnswers} {src : Chunks} {now : ℤ} {dst : Store}
    {o : Opened} {l : Sys} (h : openFile policy a src now dst = some o) (hl : o.log = some l) :
    l = .init policy a.started ∧ ∃ hdr rs body, Recovers src.rest hdr rs body ∧
      o.file = hdr ++ body ∧ o.dst = applyAll now dst rs := by
  have hdel := Counting.delivers Chunks.delivers src.rest.length
  have hI : True ∧ 0 + src.rest.length = src.rest.length := ⟨trivial, Nat.zero_add _⟩
  rcases readHeader_cases hdel (s := ⟨src, 0⟩) hI with
    ⟨hnil, s', hempty⟩ | ⟨hdr, b, hh, hsrc⟩ | ⟨e, s', herr⟩
  · change src.rest = [] at hnil
    simp only [openFile, replayChunks, replay, hempty, hnil, Option.map_some, if_true,
      Option.some.injEq] at h
    cases hw : a.writeErr with
    | some c => simp only [hw] at h; rw [← h] at hl; cases hl
    | none =>
      simp only [hw, List.drop_nil, List.append_nil] at h
      subst h
      obtain ⟨rfl, hdst, hfile⟩ := openAt_log hl
      refine ⟨rfl, encodeHeader, [], [], ⟨validHeader_encodeHeader, .nil, Or.inl ⟨hnil, rfl, rfl⟩⟩,
        ?_, hdst⟩
      rw [hfile]
      exact truncate_append encodeHeader []
  · change src.rest = hdr ++ b at hsrc
    obtain ⟨rs, body, tail, e, rfl, hlog, he⟩ := exists_isLog b
    have hrep := replay_tail hh hlog he hsrc now dst
    have htail : ∀ r f, IsRecord r f → ¬ f <+: tail := by
      rintro r f hf ⟨x, rfl⟩
      rw [parseRecord_append hf] at he
      cases he
    have hrec : Recovers src.rest hdr rs body := ⟨hh, hlog, Or.inr ⟨tail, hsrc, htail⟩⟩
    have hpos : ¬ ((headerSize + body.length : ℕ) : ℤ) = 0 := by
      have : headerSize = 16 := rfl
      omega
    have hcut : truncate src.rest ((headerSize + body.length : ℕ) : ℤ) = hdr ++ body := by
      rw [hsrc, ← List.append_assoc, ← hh.length_eq, ← List.length_append]
      exact truncate_append _ _
    have hopen : ∀ truncated,
        o = openAt policy a ⟨rs.length, (headerSize + body.length : ℕ), truncated⟩
          (applyAll now dst rs) src.rest →
        l = .init policy a.started ∧ ∃ hdr rs body, Recovers src.rest hdr rs body ∧
          o.file = hdr ++ body ∧ o.dst = applyAll now dst rs := by
      rintro truncated rfl
      obtain ⟨hinit, hdst, hfile⟩ := openAt_log hl
      exact ⟨hinit, hdr, rs, body, hrec, hfile.trans hcut, hdst⟩
    simp only [openFile, hrep, Option.map_some, Option.some.injEq] at h
    unfold replayEnd at h
    split_ifs at h with heof hinc
    · exact hopen false h.symm
    · exact hopen true h.symm
    · rw [← h] at hl
      cases hl
  · simp only [openFile, replayChunks, replay, herr, Option.map_some, Option.some.injEq] at h
    rw [← h] at hl
    cases hl

def newLog (policy : Policy) : Opened :=
  ⟨some (.init policy 0), ⟨0, headerSize, false⟩, none, .new, encodeHeader⟩

theorem openFile_new (policy : Policy) :
    openFile policy ⟨0, none, none, none, 0⟩ (.whole []) 0 .new = some (newLog policy) :=
  rfl

end GoKv.Aof
