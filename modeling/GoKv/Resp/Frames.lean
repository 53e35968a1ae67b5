import GoKv.Resp.Grammar

/-! What the writer writes is a frame of the grammar, and every way to cut a frame short leaves
a stream that ends inside one. -/
namespace GoKv.Resp
open GoLib

/-! ## Written frames -/

private theorem isInt_natText {n : ℕ} (h : n ≤ 2 ^ 30) : IsInt (natText n) n := by
  have := IsInt.plain (natText_ne_nil n) (isDigit_of_mem_natText n)
    (by rw [digitsValue_natText]; exact h)
  rwa [digitsValue_natText] at this

theorem isHeader_numberLine (mark : UInt8) {n : ℕ} (h : n ≤ 2 ^ 30) :
    IsHeader mark n (mark :: numberLine n) := by
  refine ⟨⟨natText n, by rw [numberLine_natCast]; rfl, isInt_natText h⟩, ?_⟩
  have hlen := length_natText_le n 10 (by omega) (by omega)
  rw [numberLine_natCast]
  simp only [List.length_cons, List.length_append, crlf, List.length_nil, bufSize]
  omega

theorem isBulk_writeBulk {lim : Limits} {total : ℕ} {p : Bytes} (h30 : p.length ≤ 2 ^ 30)
    (hf : BulkFits lim total p.length) : IsBulk lim total p (writeBulk p) :=
  ⟨_, isHeader_numberLine 36 h30, hf, by simp [writeBulk]⟩

structure FitsFrame (lim : Limits) (args : List Bytes) : Prop where
  nonempty : args ≠ []
  count : args.length ≤ lim.maxArrayElements
  count_small : args.length ≤ 2 ^ 30
  each : ∀ p ∈ args, p.length ≤ lim.maxBulkLength ∧ p.length ≤ 2 ^ 30
  total : 0 < lim.maxCommandBytes → args.flatten.length ≤ lim.maxCommandBytes

theorem isBulks_writeBulk {lim : Limits} (args : List Bytes) (total : ℕ)
    (he : ∀ p ∈ args, p.length ≤ lim.maxBulkLength ∧ p.length ≤ 2 ^ 30)
    (ht : 0 < lim.maxCommandBytes → (total + args.flatten.length : ℕ) ≤ lim.maxCommandBytes) :
    IsBulks lim total args (args.map writeBulk).flatten := by
  induction args generalizing total with
  | nil => exact .nil
  | cons p ps ih =>
    obtain ⟨hb, h30⟩ := he p List.mem_cons_self
    rw [List.flatten_cons, List.length_append] at ht
    refine .cons (isBulk_writeBulk h30 ⟨hb, fun hpos => ?_⟩)
      (ih _ (fun q hq => he q (List.mem_cons_of_mem _ hq)) fun hpos => ?_)
    · have := ht hpos
      omega
    · rw [Nat.add_assoc]
      exact ht hpos

theorem IsBulks.append {lim : Limits} {total : ℕ} {ps qs : List Bytes} {bs cs : Bytes}
    (hb : IsBulks lim total ps bs) (hc : IsBulks lim (total + ps.flatten.length) qs cs) :
    IsBulks lim total (ps ++ qs) (bs ++ cs) := by
  induction hb with
  | nil => simpa using hc
  | @cons total p b ps bs hb _ ih =>
    rw [List.append_assoc]
    exact .cons hb (ih (by simpa [Nat.add_assoc] using hc))

theorem IsBulks.fits {lim : Limits} {total : ℕ} {ps : List Bytes} {bs : Bytes}
    (hb : IsBulks lim total ps bs) :
    (∀ p ∈ ps, p.length ≤ lim.maxBulkLength) ∧
      (ps ≠ [] → 0 < lim.maxCommandBytes →
        (total + ps.flatten.length : ℕ) ≤ lim.maxCommandBytes) := by
  induction hb with
  | nil => simp
  | @cons total p b ps bs hb _ ih =>
    obtain ⟨h, -, hf, rfl⟩ := hb
    refine ⟨List.forall_mem_cons.mpr ⟨hf.1, ih.1⟩, fun _ hpos => ?_⟩
    rw [List.flatten_cons, List.length_append, ← Nat.add_assoc]
    by_cases hnil : ps = []
    · subst hnil
      simpa using hf.2 hpos
    · exact ih.2 hnil hpos

theorem isFrame_writeCommand {lim : Limits} {args : List Bytes} (h : FitsFrame lim args) :
    IsFrame lim args (writeCommand args) := by
  refine ⟨_, _, isHeader_numberLine 42 h.count_small, ⟨?_, h.count⟩,
    isBulks_writeBulk args 0 h.each ?_, rfl⟩
  · exact List.length_pos_iff.mpr h.nonempty
  · simpa using h.total

theorem Reader.readCommand_written {σ : Type*} {R : IoReader σ} {I : σ → Prop} {src : σ → Bytes}
    (h : Delivers R I src) {s : σ} (hs : I s) {lim : Limits} {args : List Bytes}
    (hfits : FitsFrame lim args) (hsrc : src s = writeCommand args) :
    ∃ r, (Reader.new s lim).readCommand R = (.ok args, r) ∧ r.br.Ready I ∧ r.br.rest src = [] := by
  have hparse : parseFrame (Reader.new s lim).limits ((Reader.new s lim).br.rest src) =
      .ok (args, []) := by
    change parseFrame lim (src s) = _
    rw [hsrc, ← List.append_nil (writeCommand args)]
    exact parseFrame_append (isFrame_writeCommand hfits) []
  have hspec := readCommand_spec h (r := .new s lim) (Bufio.ready_ofReader hs)
  rw [hparse] at hspec
  obtain ⟨r, hres, -, hready, hrest⟩ := hspec
  exact ⟨r, hres, hready, hrest⟩

theorem IsInt.le {t : Bytes} {n : ℕ} (h : IsInt t n) : n ≤ 2 ^ 30 := by
  generalize hm : (n : ℤ) = m at h
  cases h with
  | plain _ _ hle => omega
  | minus _ _ hle => omega

theorem IsBulks.small {lim : Limits} {total : ℕ} {ps : List Bytes} {bs : Bytes}
    (hb : IsBulks lim total ps bs) : ∀ p ∈ ps, p.length ≤ 2 ^ 30 := by
  induction hb with
  | nil => nofun
  | cons hb _ ih =>
    obtain ⟨h, ⟨⟨t, -, ht⟩, -⟩, -, -⟩ := hb
    exact List.forall_mem_cons.mpr ⟨ht.le, ih⟩

/-- The arguments of a frame fit the limits it was read under. -/
theorem fitsFrame_of_isFrame {lim : Limits} {args : List Bytes} {b : Bytes}
    (h : IsFrame lim args b) : FitsFrame lim args := by
  obtain ⟨hdr, body, ⟨⟨t, -, ht⟩, -⟩, ⟨hpos, hcount⟩, hb, -⟩ := h
  have hne : args ≠ [] := List.length_pos_iff.mp hpos
  obtain ⟨heach, htotal⟩ := hb.fits
  exact ⟨hne, hcount, ht.le, fun p hp => ⟨heach p hp, hb.small p hp⟩,
    fun hlim => by simpa using htotal hne hlim⟩

/-! ## Frames too large -/

/-- A header line the writer writes is read back, or is too long for the buffer. -/
theorem parseLine_numberLine {mark : UInt8} (hm : mark ≠ 10) (n : ℕ) (x : Bytes) :
    parseLine (mark :: numberLine n ++ x) = .ok (mark :: natText n, x) ∨
      ∃ msg, parseLine (mark :: numberLine n ++ x) = .error (protoErr msg) := by
  have h10 : 10 ∉ mark :: natText n := by
    have hdig : 10 ∉ natText n := fun hmem => by
      simpa [isDigit] using isDigit_of_mem_natText n 10 hmem
    simpa [hm.symm] using hdig
  rw [numberLine_natCast]
  by_cases hfit : (mark :: natText n).length + 2 ≤ bufSize
  · exact Or.inl (parseLine_append ⟨h10, hfit⟩ x)
  · have hsplit : mark :: (natText n ++ crlf) ++ x =
        (mark :: natText n ++ [13]) ++ ([10] ++ x) := by simp [crlf]
    refine Or.inr ⟨"header line too long", ?_⟩
    rw [hsplit]
    apply parseLine_long
    · simpa using h10
    · simp only [List.length_append, List.length_cons, List.length_nil] at hfit ⊢
      omega

theorem eq_of_isInt_natText {n m : ℕ} (h : IsInt (natText n) m) : m = n ∧ n ≤ 2 ^ 30 := by
  have hle := h.le
  generalize hk : (m : ℤ) = k at h
  generalize ht : natText n = t at h
  cases h with
  | plain _ _ _ =>
    rw [← ht, digitsValue_natText] at hk
    omega
  | minus _ _ _ =>
    have := isDigit_of_mem_natText n 45 (by rw [ht]; exact List.mem_cons_self)
    simp [isDigit] at this

/-- A written bulk string is read back, or refused as malformed. -/
theorem parseBulk_writeBulk (lim : Limits) (total : ℕ) (p x : Bytes) :
    IsBulk lim total p (writeBulk p) ∨
      ∃ msg, parseBulk lim total (writeBulk p ++ x) = .error (protoErr msg) := by
  have hsplit : writeBulk p ++ x = 36 :: numberLine p.length ++ (p ++ crlf ++ x) := by
    simp [writeBulk]
  rcases parseLine_numberLine (by decide : (36 : UInt8) ≠ 10) p.length (p ++ crlf ++ x) with
    hline | ⟨msg, hmsg⟩
  · cases hlen : bulkLength lim total (36 :: natText p.length) with
    | error e =>
      obtain ⟨msg, rfl⟩ := bulkLength_error hlen
      exact Or.inr ⟨msg, by simp only [parseBulk, hsplit, hline, hlen]⟩
    | ok ln =>
      obtain ⟨⟨t, ht, hint⟩, hf⟩ := (bulkLength_eq_ok_iff _ _ _ _).mp hlen
      obtain rfl := (List.cons.inj ht).2
      obtain ⟨rfl, h30⟩ := eq_of_isInt_natText hint
      exact Or.inl (isBulk_writeBulk h30 hf)
  · exact Or.inr ⟨msg, by rw [hsplit, parseBulk, hmsg]; rfl⟩

private theorem parseBulks_writeBulk (lim : Limits) (total : ℕ) (ps : List Bytes) (x : Bytes) :
    IsBulks lim total ps (ps.map writeBulk).flatten ∨
      ∃ msg, parseBulks lim ps.length total ((ps.map writeBulk).flatten ++ x) =
        .error (protoErr msg) := by
  induction ps generalizing total with
  | nil => exact Or.inl .nil
  | cons p ps ih =>
    rw [List.map_cons, List.flatten_cons, List.append_assoc, List.length_cons, parseBulks]
    rcases parseBulk_writeBulk lim total p ((ps.map writeBulk).flatten ++ x) with hb | ⟨msg, hmsg⟩
    · rcases ih (total + p.length) with hbs | ⟨msg, hmsg⟩
      · exact Or.inl (.cons hb hbs)
      · exact Or.inr ⟨msg, by simp only [parseBulk_append hb, hmsg, Except.map]⟩
    · exact Or.inr ⟨msg, by rw [hmsg]⟩

/-- A written command is read back, or refused as malformed; it never looks cut short. -/
theorem parseFrame_writeCommand (lim : Limits) (args : List Bytes) (x : Bytes) :
    IsFrame lim args (writeCommand args) ∨
      ∃ msg, parseFrame lim (writeCommand args ++ x) = .error (protoErr msg) := by
  have hsplit : writeCommand args ++ x =
      42 :: numberLine args.length ++ ((args.map writeBulk).flatten ++ x) := by
    simp [writeCommand, writeArrayHeader]
  rcases parseLine_numberLine (by decide : (42 : UInt8) ≠ 10) args.length
    ((args.map writeBulk).flatten ++ x) with hline | ⟨msg, hmsg⟩
  · cases hlen : arrayLength lim (42 :: natText args.length) with
    | error e =>
      obtain ⟨msg, rfl⟩ := arrayLength_error hlen
      exact Or.inr ⟨msg, by simp only [parseFrame, hsplit, hline, hlen]⟩
    | ok n =>
      obtain ⟨⟨t, ht, hint⟩, hf⟩ := (arrayLength_eq_ok_iff _ _ _).mp hlen
      obtain rfl := (List.cons.inj ht).2
      obtain ⟨rfl, h30⟩ := eq_of_isInt_natText hint
      rcases parseBulks_writeBulk lim 0 args x with hb | ⟨msg, hmsg⟩
      · exact Or.inl ⟨_, _, isHeader_numberLine 42 h30, hf, hb, rfl⟩
      · exact Or.inr ⟨msg, by simp only [parseFrame, hsplit, hline, hlen, hmsg]⟩
  · exact Or.inr ⟨msg, by rw [hsplit, parseFrame, hmsg]⟩

/-! ## Cut frames -/

theorem prefix_append_cases {u a b : Bytes} (h : u <+: a ++ b) :
    (u <+: a ∧ u.length < a.length) ∨ ∃ v, u = a ++ v ∧ v <+: b := by
  rcases lt_or_ge u.length a.length with hlt | hge
  · exact Or.inl ⟨List.prefix_of_prefix_length_le h (List.prefix_append a b) hlt.le, hlt⟩
  · obtain ⟨v, rfl⟩ := List.prefix_of_prefix_length_le (List.prefix_append a b) h hge
    exact Or.inr ⟨v, rfl, (List.prefix_append_right_inj a).mp h⟩

theorem cut_header {mark : UInt8} {n : ℕ} {h u : Bytes} (hh : IsHeader mark n h) (hm : mark ≠ 10)
    (hu : u <+: h) (hlt : u.length < h.length) : 10 ∉ u ∧ u.length < bufSize := by
  obtain ⟨⟨t, rfl, ht⟩, hlen⟩ := hh
  refine ⟨?_, by omega⟩
  have hsplit : mark :: t ++ crlf = (mark :: t ++ [13]) ++ [10] := by simp [crlf]
  rw [hsplit] at hu hlt
  have hu' : u <+: mark :: t ++ [13] :=
    List.prefix_of_prefix_length_le hu (List.prefix_append _ _) (by simp at hlt ⊢; omega)
  intro h10
  have := hu'.subset h10
  simp [hm.symm, ht.lf_notMem] at this

private theorem tornBulk_of_cut {lim : Limits} {total : ℕ} {p b u : Bytes}
    (hb : IsBulk lim total p b) (hu : u <+: b) (hlt : u.length < b.length) :
    TornBulk lim total u := by
  obtain ⟨h, hh, hf, rfl⟩ := hb
  rw [List.append_assoc] at hu hlt
  rcases prefix_append_cases hu with ⟨hu, hl⟩ | ⟨v, rfl, hv⟩
  · exact Or.inl (cut_header hh (by decide) hu hl)
  · refine Or.inr ⟨h, p.length, v, hh, hf, ?_, rfl⟩
    simpa [crlf] using hlt

theorem cut_bulks {lim : Limits} {total : ℕ} {ps : List Bytes} {bs u : Bytes}
    (hb : IsBulks lim total ps bs) (hu : u <+: bs) (hlt : u.length < bs.length) :
    ∃ qs p rs cs b v, ps = qs ++ p :: rs ∧ IsBulks lim total qs cs ∧
      IsBulk lim (total + qs.flatten.length) p b ∧ v <+: b ∧ v.length < b.length ∧
      u = cs ++ v := by
  induction hb generalizing u with
  | nil => simp at hlt
  | @cons total p b ps bs hb _ ih =>
    rcases prefix_append_cases hu with ⟨hu, hl⟩ | ⟨v, rfl, hv⟩
    · exact ⟨[], p, ps, [], b, u, rfl, .nil, by simpa using hb, hu, hl, rfl⟩
    · obtain ⟨qs, q, rs, cs, c, w, rfl, hcs, hc, hw, hl, rfl⟩ := ih hv (by simpa using hlt)
      refine ⟨p :: qs, q, rs, b ++ cs, c, w, rfl, .cons hb hcs, ?_, hw, hl, by simp⟩
      simpa [Nat.add_assoc] using hc

private theorem tornBulks_of_cut {lim : Limits} {total : ℕ} {ps : List Bytes} {bs u : Bytes}
    (hb : IsBulks lim total ps bs) (hu : u <+: bs) (hlt : u.length < bs.length) :
    TornBulks lim ps.length total u := by
  obtain ⟨qs, p, rs, cs, b, v, rfl, hcs, hb, hv, hl, rfl⟩ := cut_bulks hb hu hlt
  exact ⟨qs, cs, v, by simp, hcs, tornBulk_of_cut hb hv hl, rfl⟩

/-- Wherever a frame is cut, the stream ends inside it. -/
theorem torn_of_cut {lim : Limits} {args : List Bytes} {f u : Bytes} (hf : IsFrame lim args f)
    (hu : u <+: f) (hlt : u.length < f.length) (hne : u ≠ []) : Torn lim u := by
  obtain ⟨h, body, hh, hfit, hb, rfl⟩ := hf
  rcases prefix_append_cases hu with ⟨hu, hl⟩ | ⟨v, rfl, hv⟩
  · exact Or.inl ⟨hne, cut_header hh (by decide) hu hl⟩
  · exact Or.inr ⟨h, _, v, hh, hfit, tornBulks_of_cut hb hv (by simpa using hlt), rfl⟩

end GoKv.Resp
