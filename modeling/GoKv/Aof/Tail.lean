import GoKv.Aof.Open
import GoKv.Aof.Recovery

/-! The end of a file that is not a whole record. Replay calls it torn whenever the reader runs
out of bytes inside a line or a bulk string, also where no record could have begun that way. -/
namespace GoKv.Aof
open GoLib GoKv.Resp

/-! ## What a record may begin with -/

/-- Bytes left of a record by a cut. -/
def CutRecord (t : Bytes) : Prop := ∃ r b, IsRecord r b ∧ t <+: b ∧ t.length < b.length

def BeginsRecord (t : Bytes) : Prop := ∃ r b, IsRecord r b ∧ b <+: t

/-- A header line cut short that announces a number from `lo` to `hi`. -/
def HeaderBegins (mark : UInt8) (lo hi : ℕ) (u : Bytes) : Prop :=
  ∃ n h, lo ≤ n ∧ n ≤ hi ∧ IsHeader mark n h ∧ u <+: h ∧ u.length < h.length

/-- A bulk string cut short that holds `p`. -/
def BulkBegins (p u : Bytes) : Prop :=
  ∃ h, IsHeader 36 p.length h ∧ u <+: h ++ p ++ crlf ∧ u.length < (h ++ p ++ crlf).length

/-- What may follow the parts `ps` in a record of `n` parts: the verb first, and after SET, its
key and its value PXAT and a number. -/
def Next (n : ℕ) (ps : List Bytes) (p : Bytes) : Prop :=
  match ps with
  | [] => p = verbDel ∨ p = verbSet ∧ (n = 3 ∨ n = 5)
  | verb :: args =>
    verb = verbDel ∨ verb = verbSet ∧ (n = 3 ∨ n = 5) ∧ (args.length = 2 → p = optPXAT) ∧
      (args.length = 3 → args[2]? = some optPXAT ∧ (parseInt64 p).isSome = true)

/-- The fewest payload bytes the parts after the next one can have. -/
def reserve (n : ℕ) (ps : List Bytes) : ℕ :=
  if n = 5 ∧ ps.head? ≠ some verbDel then
    if ps.length ≤ 2 then 5 else if ps.length = 3 then 1 else 0
  else 0

/-- Every field the bytes hold, the last one perhaps in part, is one a record has there. -/
def FieldsBegin (t : Bytes) : Prop :=
  HeaderBegins 42 2 1024 t ∨
    ∃ n h ps bs p u, t = h ++ (bs ++ u) ∧ IsHeader 42 n h ∧ 2 ≤ n ∧ n ≤ 1024 ∧ ps.length < n ∧
      IsBulks defaultLimits 0 ps bs ∧ Next n ps p ∧ p.length ≤ defaultLimits.maxBulkLength ∧
      (ps.flatten.length + p.length + reserve n ps : ℕ) ≤ defaultLimits.maxCommandBytes ∧
      BulkBegins p u

/-! ## The parts of a record -/

private theorem decodeParts_set {parts : List Bytes} {r : Record}
    (h : decodeParts (verbSet :: parts) = .ok r) :
    (∃ k v, parts = [k, v]) ∨
      ∃ k v ms, parts = [k, v, optPXAT, ms] ∧ (parseInt64 ms).isSome = true := by
  dsimp only [decodeParts] at h
  rw [if_pos rfl] at h
  rcases parts with _ | ⟨k, _ | ⟨v, _ | ⟨o, _ | ⟨ms, _ | ⟨x, xs⟩⟩⟩⟩⟩
  · cases h
  · cases h
  · exact Or.inl ⟨k, v, rfl⟩
  · cases h
  · dsimp only at h
    split_ifs at h with ho
    · rw [ne_eq, not_not] at ho
      subst ho
      refine Or.inr ⟨k, v, ms, rfl, ?_⟩
      cases hp : parseInt64 ms with
      | none => rw [hp] at h; cases h
      | some n => rfl
  · cases h

theorem decodeParts_ok {parts : List Bytes} {r : Record} (h : decodeParts parts = .ok r) :
    (∃ k v, parts = [verbSet, k, v]) ∨
      (∃ k v ms, parts = [verbSet, k, v, optPXAT, ms] ∧ (parseInt64 ms).isSome = true) ∨
      ∃ k ks, parts = verbDel :: k :: ks := by
  cases parts with
  | nil => cases h
  | cons verb rest =>
    by_cases hs : verb = verbSet
    · subst hs
      rcases decodeParts_set h with ⟨k, v, rfl⟩ | ⟨k, v, ms, rfl, hms⟩
      · exact Or.inl ⟨k, v, rfl⟩
      · exact Or.inr (Or.inl ⟨k, v, ms, rfl, hms⟩)
    · dsimp only [decodeParts] at h
      rw [if_neg hs] at h
      split_ifs at h with hd
      subst hd
      cases rest with
      | nil => cases h
      | cons k ks => exact Or.inr (Or.inr ⟨k, ks, rfl⟩)

theorem decodeParts_del (k : Bytes) (ks : List Bytes) :
    decodeParts (verbDel :: k :: ks) = .ok (.del (k :: ks)) := by
  have hv : verbDel ≠ verbSet := by decide
  simp [decodeParts, hv]

private theorem parseInt64_ne_nil {s : Bytes} (h : (parseInt64 s).isSome = true) : s ≠ [] := by
  rintro rfl
  cases h

theorem reserve_set (args : List Bytes) :
    reserve 5 (verbSet :: args) =
      if args.length ≤ 1 then 5 else if args.length = 2 then 1 else 0 := by
  have hv : verbSet ≠ verbDel := by decide
  simp [reserve, hv]

theorem reserve_nil_le (n : ℕ) : reserve n [] ≤ 5 := by
  unfold reserve
  split_ifs <;> simp

private theorem next_expiring {k v ms : Bytes} (hms : (parseInt64 ms).isSome = true)
    {ps qs : List Bytes} {p : Bytes} (hp : ps ++ p :: qs = [verbSet, k, v, optPXAT, ms]) :
    Next 5 ps p ∧ (ps ≠ [] → p.length + reserve 5 ps ≤ (p :: qs).flatten.length) := by
  have hlen := List.length_pos_iff.mpr (parseInt64_ne_nil hms)
  have hopt : optPXAT.length = 4 := rfl
  rcases ps with _ | ⟨a, _ | ⟨b, _ | ⟨c, _ | ⟨d, _ | ⟨e, es⟩⟩⟩⟩⟩ <;> simp at hp
  · exact ⟨Or.inr ⟨hp.1, Or.inr rfl⟩, fun hne => absurd rfl hne⟩
  · obtain ⟨rfl, rfl, rfl⟩ := hp
    refine ⟨Or.inr ⟨rfl, Or.inr rfl, by simp, by simp⟩, fun _ => ?_⟩
    simp [reserve_set, hopt]
    omega
  · obtain ⟨rfl, rfl, rfl, rfl⟩ := hp
    refine ⟨Or.inr ⟨rfl, Or.inr rfl, by simp, by simp⟩, fun _ => ?_⟩
    simp [reserve_set, hopt]
    omega
  · obtain ⟨rfl, rfl, rfl, rfl, rfl⟩ := hp
    refine ⟨Or.inr ⟨rfl, Or.inr rfl, by simp, by simp⟩, fun _ => ?_⟩
    simp [reserve_set, hopt]
    omega
  · obtain ⟨rfl, rfl, rfl, rfl, rfl, rfl⟩ := hp
    refine ⟨Or.inr ⟨rfl, Or.inr rfl, by simp, fun _ => ⟨rfl, hms⟩⟩, fun _ => ?_⟩
    simp [reserve_set]

/-- The parts of a record up to any of them, and room for the rest. -/
theorem next_of_decodeParts {n : ℕ} {ps qs : List Bytes} {p : Bytes} {r : Record}
    (h : decodeParts (ps ++ p :: qs) = .ok r) (hn : (ps ++ p :: qs).length = n) :
    Next n ps p ∧ 2 ≤ n ∧
      (ps ≠ [] → p.length + reserve n ps ≤ (p :: qs).flatten.length) := by
  rcases decodeParts_ok h with ⟨k, v, hp⟩ | ⟨k, v, ms, hp, hms⟩ | ⟨k, ks, hp⟩
  · rw [hp] at hn
    obtain rfl : n = 3 := hn.symm
    refine ⟨?_, by omega, fun _ => by simp [reserve]⟩
    rcases ps with _ | ⟨a, _ | ⟨b, _ | ⟨c, ds⟩⟩⟩ <;> simp at hp
    · exact Or.inr ⟨hp.1, Or.inl rfl⟩
    · exact Or.inr ⟨hp.1, Or.inl rfl, by simp, by simp⟩
    · exact Or.inr ⟨hp.1, Or.inl rfl, by simp, by simp⟩
  · rw [hp] at hn
    obtain rfl : n = 5 := hn.symm
    obtain ⟨hnext, hroom⟩ := next_expiring hms hp
    exact ⟨hnext, by omega, hroom⟩
  · rw [hp] at hn
    have htwo : 2 ≤ n := by simp at hn; omega
    cases ps with
    | nil =>
      simp only [List.nil_append, List.cons.injEq] at hp
      exact ⟨Or.inl hp.1, htwo, fun hne => absurd rfl hne⟩
    | cons a as =>
      simp only [List.cons_append, List.cons.injEq] at hp
      refine ⟨Or.inl hp.1, htwo, fun _ => ?_⟩
      simp [reserve, hp.1]

/-- Any part that may come next begins a record, with the shortest parts after it. -/
theorem exists_decodeParts {n : ℕ} {ps : List Bytes} {p : Bytes} (hn : 2 ≤ n)
    (hlt : ps.length < n) (h : Next n ps p) :
    ∃ qs r, (ps ++ p :: qs).length = n ∧ decodeParts (ps ++ p :: qs) = .ok r ∧
      (∀ q ∈ qs, q.length ≤ 4) ∧ qs.flatten.length ≤ reserve n ps := by
  have hblank : ∀ m, (∀ q ∈ List.replicate m ([] : Bytes), q.length ≤ 4) ∧
      (List.replicate m ([] : Bytes)).flatten.length = 0 := by
    intro m
    refine ⟨fun q hq => ?_, by simp⟩
    rw [List.eq_of_mem_replicate hq]
    exact Nat.zero_le 4
  cases ps with
  | nil =>
    rcases h with rfl | ⟨rfl, rfl | rfl⟩
    · obtain ⟨m, rfl⟩ : ∃ m, n = m + 2 := ⟨n - 2, by omega⟩
      exact ⟨List.replicate (m + 1) [], _, by simp, decodeParts_del _ _, (hblank _).1,
        by rw [(hblank _).2]; exact Nat.zero_le _⟩
    · exact ⟨[[], []], .set [] [] none, rfl, rfl, by decide, by decide⟩
    · exact ⟨[[], [], optPXAT, [48]], .set [] [] (some 0), rfl, rfl, by decide, by decide⟩
  | cons verb args =>
    rcases h with rfl | ⟨rfl, rfl | rfl, hopt, hms⟩
    · obtain ⟨m, hm⟩ : ∃ m, args.length + m + 2 = n := ⟨n - args.length - 2, by
        simp at hlt; omega⟩
      obtain ⟨k, ks, hk⟩ : ∃ k ks, args ++ p :: List.replicate m [] = k :: ks := by
        cases args <;> exact ⟨_, _, rfl⟩
      refine ⟨List.replicate m [], .del (k :: ks), ?_, ?_, (hblank _).1,
        by rw [(hblank _).2]; exact Nat.zero_le _⟩
      · simp; omega
      · rw [List.cons_append, hk, decodeParts_del]
    · rcases args with _ | ⟨k, _ | ⟨v, as⟩⟩
      · exact ⟨[[]], .set p [] none, rfl, rfl, by decide, by decide⟩
      · exact ⟨[], .set k p none, rfl, rfl, by decide, Nat.zero_le _⟩
      · simp at hlt
        omega
    · rcases args with _ | ⟨k, _ | ⟨v, _ | ⟨o, _ | ⟨x, xs⟩⟩⟩⟩
      · exact ⟨[[], optPXAT, [48]], .set p [] (some 0), rfl, rfl, by decide, by decide⟩
      · exact ⟨[optPXAT, [48]], .set k p (some 0), rfl, rfl, by decide, le_refl 5⟩
      · obtain rfl := hopt rfl
        exact ⟨[[48]], .set k v (some 0), rfl, rfl, by decide, le_refl 1⟩
      · obtain ⟨ho, hp⟩ := hms rfl
        obtain rfl : o = optPXAT := Option.some.inj ho
        obtain ⟨t, ht⟩ := Option.isSome_iff_exists.mp hp
        exact ⟨[], .set k v (some t), rfl, by simp [decodeParts, ht], by decide, Nat.zero_le _⟩
      · simp at hlt
        omega

/-! ## Cut records -/

theorem isRecord_append {h bs b : Bytes} {ps qs : List Bytes} {p : Bytes} {r : Record}
    (hh : IsHeader 42 (ps ++ p :: qs).length h) (hcount : (ps ++ p :: qs).length ≤ 1024)
    (hbs : IsBulks defaultLimits 0 ps bs) (hb : IsBulk defaultLimits ps.flatten.length p b)
    (hqs : ∀ q ∈ qs, q.length ≤ 4)
    (htotal : ((ps ++ p :: qs).flatten.length : ℤ) ≤ defaultLimits.maxCommandBytes)
    (hd : decodeParts (ps ++ p :: qs) = .ok r) :
    IsRecord r (h ++ (bs ++ (b ++ (qs.map writeBulk).flatten))) := by
  have hone : 1 ≤ (ps ++ p :: qs).length := by simp; omega
  refine ⟨ps ++ p :: qs, ⟨h, _, hh, ⟨hone, Int.ofNat_le.mpr hcount⟩, ?_, rfl⟩, hd⟩
  refine hbs.append (.cons (by simpa using hb) (isBulks_writeBulk qs _ (fun q hq => ?_) ?_))
  · have := hqs q hq
    exact ⟨by simp only [defaultLimits]; omega, by omega⟩
  · intro _
    simp only [List.flatten_append, List.flatten_cons, List.length_append] at htotal
    push_cast at htotal ⊢
    omega

theorem maxCommandBytes_default : defaultLimits.maxCommandBytes = 134217728 := rfl

private theorem fieldsBegin_of_cutRecord {t : Bytes} (ht : CutRecord t) : FieldsBegin t := by
  obtain ⟨r, _, ⟨parts, ⟨h, body, hh, hfit, hb, rfl⟩, hd⟩, hpre, hlt⟩ := ht
  have hcount : parts.length ≤ 1024 := Int.ofNat_le.mp hfit.2
  rcases prefix_append_cases hpre with ⟨hu, hl⟩ | ⟨v, rfl, hv⟩
  · refine Or.inl ⟨_, h, ?_, hcount, hh, hu, hl⟩
    rcases decodeParts_ok hd with ⟨k, w, rfl⟩ | ⟨k, w, ms, rfl, -⟩ | ⟨k, ks, rfl⟩ <;> simp
  · obtain ⟨heach, htotal⟩ := hb.fits
    obtain ⟨ps, p, qs, bs, b, u, rfl, hbs, ⟨hp, hhp, hfp, rfl⟩, hu, hl, rfl⟩ :=
      cut_bulks hb hv (by simpa using hlt)
    obtain ⟨hnext, htwo, hroom⟩ := next_of_decodeParts hd rfl
    have htotal := htotal (by simp) (by rw [maxCommandBytes_default]; omega)
    refine Or.inr ⟨_, h, ps, bs, p, u, rfl, hh, htwo, hcount, by simp, hbs, hnext,
      heach p (by simp), ?_, ⟨hp, hhp, hu, hl⟩⟩
    by_cases hps : ps = []
    · -- The verb is three bytes long and leaves room for any record.
      subst hps
      have hverb : p.length = 3 := by rcases hnext with rfl | ⟨rfl, -⟩ <;> rfl
      have hres := reserve_nil_le ([] ++ p :: qs).length
      rw [maxCommandBytes_default]
      simp only [List.flatten_nil, List.length_nil, hverb]
      omega
    · have hroom := hroom hps
      rw [List.flatten_append, List.length_append] at htotal
      omega

private theorem cutRecord_of_fieldsBegin {t : Bytes} (ht : FieldsBegin t) : CutRecord t := by
  rcases ht with ⟨n, h, hlo, hhi, hh, hu, hl⟩ | ⟨n, h, ps, bs, p, u, rfl, hh, htwo, hcount, hlt,
    hbs, hnext, hp, htotal, hph, hhp, hu, hl⟩
  · -- Inside the array header: a DEL of as many parts begins this way.
    have hnext : Next n [] verbDel := Or.inl rfl
    obtain ⟨qs, r, rfl, hd, hqs, hflat⟩ := exists_decodeParts hlo (by simp; omega) hnext
    have hres := reserve_nil_le ([] ++ verbDel :: qs).length
    have hdel : verbDel.length = 3 := rfl
    have hverb : IsBulk defaultLimits 0 verbDel (writeBulk verbDel) :=
      isBulk_writeBulk (by decide) ⟨by decide, fun _ => by decide⟩
    have hrec := isRecord_append hh hhi .nil hverb hqs (by
        rw [maxCommandBytes_default, List.nil_append, List.flatten_cons, List.length_append, hdel]
        omega) hd
    exact ⟨r, _, hrec, hu.trans (List.prefix_append _ _), by
      rw [List.length_append]; omega⟩
  · obtain ⟨qs, r, rfl, hd, hqs, hflat⟩ := exists_decodeParts htwo hlt hnext
    have hrec := isRecord_append hh hcount hbs
      ⟨hph, hhp, ⟨hp, fun _ => by omega⟩, rfl⟩ hqs (by
        rw [List.flatten_append, List.flatten_cons, List.length_append, List.length_append]
        omega) hd
    refine ⟨r, _, hrec, ?_, ?_⟩
    · rw [List.prefix_append_right_inj, List.prefix_append_right_inj]
      exact hu.trans (List.prefix_append _ _)
    · simp only [List.length_append] at hl ⊢
      omega

/-- What a cut leaves of a record is exactly what holds a record's fields so far. -/
theorem cutRecord_iff (t : Bytes) : CutRecord t ↔ FieldsBegin t :=
  ⟨fieldsBegin_of_cutRecord, cutRecord_of_fieldsBegin⟩

/-! ## Replay of a file that ends in one -/

/-- Bytes that do not begin with a record are refused, and reported incomplete exactly when the
reader runs out of them inside a frame. -/
theorem parseRecord_rest {t : Bytes} (hne : t ≠ []) (hno : ¬ BeginsRecord t) :
    ∃ e, parseRecord t = .error e ∧ e ≠ .read (.io .eof) ∧
      (e.isIncomplete = true ↔ Torn defaultLimits t) := by
  rcases parseFrame_cases defaultLimits t with ⟨args, f, x, hf, rfl⟩ | hnil | htorn | ⟨msg, hmsg⟩
  · have hp := parseFrame_append hf x
    cases hd : decodeParts args with
    | ok r => exact absurd ⟨r, f, ⟨args, hf, hd⟩, List.prefix_append f x⟩ hno
    | error c =>
      refine ⟨.corrupt c, by simp only [parseRecord, hp, hd], by simp, ?_⟩
      exact iff_of_false (by simp [DecodeErr.isIncomplete]) (not_torn (by simp [hp]))
  · exact absurd hnil hne
  · obtain ⟨e, he, heof, hinc⟩ := parseRecord_torn htorn
    exact ⟨e, he, heof, iff_of_true hinc htorn⟩
  · refine ⟨.read (protoErr msg), by simp only [parseRecord, hmsg], by simp [protoErr], ?_⟩
    exact iff_of_false (by simp [DecodeErr.isIncomplete, protoErr, ReadErr.isIncomplete])
      (not_torn (by simp [hmsg, protoErr, incompleteErr]))

/-- A file that ends in something other than a whole record. Replay reads that end as it should,
torn only if it is what a cut leaves of a record and otherwise corrupt at its offset with the file
left alone, exactly when its fields are a record's wherever the reader runs out inside a frame. -/
theorem torn_tail_iff {hdr body tail : Bytes} {rs : List Record} (hh : ValidHeader hdr)
    (hlog : IsLog rs body) (hne : tail ≠ []) (hno : ¬ BeginsRecord tail) {src : Chunks}
    (hsrc : src.rest = hdr ++ (body ++ tail)) (policy : Policy) (a : FileAnswers) (now : ℤ)
    (dst : Store) :
    ((∀ out, replayChunks src now dst = some out → out.err = none → out.result.truncated = true →
        CutRecord tail) ∧
      (¬ CutRecord tail →
        (∃ out cause, replayChunks src now dst = some out ∧
          out.err = some (.corruption (headerSize + body.length : ℕ) cause)) ∧
        ∃ o, openFile policy a src now dst = some o ∧ o.log = none ∧ o.file = src.rest)) ↔
      (Torn defaultLimits tail → FieldsBegin tail) := by
  obtain ⟨e, he, heof, hinc⟩ := parseRecord_rest hne hno
  have hreplay := replay_tail hh hlog he hsrc now dst
  rw [replayEnd, if_neg heof] at hreplay
  rw [← cutRecord_iff]
  constructor
  · rintro ⟨htrunc, -⟩ htorn
    rw [if_pos (hinc.mpr htorn)] at hreplay
    exact htrunc _ hreplay rfl rfl
  · intro hfields
    refine ⟨fun out hout herr ht => ?_, fun hcut => ?_⟩
    · by_cases htorn : Torn defaultLimits tail
      · exact hfields htorn
      · rw [if_neg (fun h => htorn (hinc.mp h))] at hreplay
        rw [hreplay] at hout
        cases hout
        cases herr
    · rw [if_neg (fun h => hcut (hfields (hinc.mp h)))] at hreplay
      refine ⟨⟨_, e, hreplay, rfl⟩, ?_⟩
      rw [openFile, hreplay]
      exact ⟨_, rfl, rfl, rfl⟩

private theorem not_beginsRecord_of_torn {t : Bytes} (h : Torn defaultLimits t) :
    ¬ BeginsRecord t := by
  rintro ⟨r, b, hb, x, rfl⟩
  obtain ⟨e, he, -⟩ := parseRecord_torn h
  rw [parseRecord_append hb] at he
  cases he

/-- A log that ends in the first byte of a record. -/
theorem torn_tail_star :
    Torn defaultLimits [42] ∧
      (∀ out, replayChunks (.whole (encodeHeader ++ (encodes tornLog ++ [42]))) 0 .new = some out →
        out.err = none → out.result.truncated = true → CutRecord [42]) := by
  have htorn : Torn defaultLimits [42] := Or.inl ⟨by decide, by decide, by decide⟩
  have hlog : IsLog tornLog (encodes tornLog) :=
    isLog_encodes fun r hr => ⟨(by decide : ∀ r ∈ tornLog, r.Writable) r hr, tornLog_fits r hr⟩
  have hfields : FieldsBegin [42] :=
    Or.inl ⟨2, 42 :: numberLine 2, le_rfl, by decide, isHeader_numberLine 42 (by decide),
      by decide, by decide⟩
  exact ⟨htorn, ((torn_tail_iff validHeader_encodeHeader hlog (by decide)
    (not_beginsRecord_of_torn htorn) (Chunks.rest_whole _) .always ⟨0, none, none, none, 0⟩ 0
    .new).mpr fun _ => hfields).1⟩

/-- Three bytes that begin no record: the file is taken for a torn log and they are erased. -/
theorem torn_tail_garbage :
    (replayChunks (.whole (encodeHeader ++ [120, 121, 122])) 0 .new).map
        (fun out => (out.result, out.err)) = some (⟨0, 16, true⟩, none) ∧
      ¬ CutRecord [120, 121, 122] ∧
      (openFile .always ⟨0, none, none, none, 0⟩ (.whole (encodeHeader ++ [120, 121, 122])) 0
        .new).map Opened.file = some encodeHeader := by
  have htorn : Torn defaultLimits [120, 121, 122] := Or.inl ⟨by decide, by decide, by decide⟩
  obtain ⟨e, he, heof, hinc⟩ := parseRecord_torn htorn
  have hreplay := replay_tail validHeader_encodeHeader .nil he (Chunks.rest_whole _) 0 .new
  rw [replayEnd, if_neg heof, if_pos hinc, List.nil_append] at hreplay
  refine ⟨by rw [hreplay]; rfl, ?_, ?_⟩
  · rintro ⟨r, b, ⟨parts, ⟨h, body, ⟨⟨t, rfl, -⟩, -⟩, -, -, rfl⟩, -⟩, hpre, -⟩
    have := List.head_eq_of_cons_eq (List.prefix_iff_eq_append.mp hpre)
    cases this
  · rw [openFile, hreplay]
    simp only [Option.map_some, openAt, Chunks.rest_whole]
    rfl

end GoKv.Aof
