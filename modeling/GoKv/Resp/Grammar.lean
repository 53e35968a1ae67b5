import GoKv.Resp.Integers
import GoKv.Resp.Parse
import GoKv.Resp.Writer

/-! The grammar of request frames, and the decoder as a parser for it: it accepts exactly the
frames, and tells a stream that ends inside a frame from a malformed one. -/
namespace GoKv.Resp
open GoLib

/-! ## Header lines -/

/-- A header line without its terminator: short enough for the buffer and of one line. -/
def FitsLine (line : Bytes) : Prop := 10 ∉ line ∧ line.length + 2 ≤ bufSize

theorem parseLine_append {line : Bytes} (h : FitsLine line) (x : Bytes) :
    parseLine (line ++ crlf ++ x) = .ok (line, x) := by
  obtain ⟨h10, hlen⟩ := h
  have hmem : 10 ∉ line ++ [13] := by simpa using h10
  have hb : line ++ crlf ++ x = (line ++ [13]) ++ 10 :: x := by simp [crlf]
  rw [hb, parseLine, Bufio.sliceSpec_append hmem (by simp; omega)]
  simp [lineResult, Except.map]

theorem parseLine_of_notMem {b : Bytes} (h10 : 10 ∉ b) (hlen : b.length < bufSize) :
    parseLine b = .error (if b = [] then .io .eof
      else incompleteErr "unexpected end of stream inside frame") := by
  rw [parseLine, Bufio.sliceSpec_of_notMem h10 hlen]
  by_cases hb : b = [] <;> simp [lineResult, Except.map, hb]

theorem parseLine_long {b x : Bytes} (h10 : 10 ∉ b) (hlen : bufSize ≤ b.length) :
    parseLine (b ++ x) = .error (protoErr "header line too long") := by
  have hfull := Bufio.sliceSpec_long h10 hlen x
  unfold parseLine
  rcases hs : Bufio.sliceSpec 10 (b ++ x) with ⟨line, err, rest⟩
  rw [hs] at hfull
  obtain rfl : err = some .bufferFull := hfull
  rfl

theorem parseLine_cases (b : Bytes) :
    (∃ line x, FitsLine line ∧ b = line ++ crlf ++ x) ∨
      (10 ∉ b ∧ b.length < bufSize) ∨ ∃ msg, parseLine b = .error (protoErr msg) := by
  by_cases hmem : 10 ∈ b
  · obtain ⟨l, x, rfl, h10⟩ := List.eq_append_cons_of_mem hmem
    by_cases hlen : bufSize ≤ l.length
    · exact Or.inr (Or.inr ⟨_, parseLine_long h10 hlen⟩)
    · have hspec := Bufio.sliceSpec_append h10 (not_le.mp hlen) x
      rcases List.eq_nil_or_concat l with rfl | ⟨line, c, rfl⟩
      · exact Or.inr (Or.inr ⟨_, by rw [parseLine, hspec]; rfl⟩)
      · by_cases hc : c = 13
        · subst hc
          refine Or.inl ⟨line, x, ⟨?_, ?_⟩, by simp [crlf]⟩
          · simpa using h10
          · simp at hlen; omega
        · refine Or.inr (Or.inr ⟨"header line not terminated by CRLF", ?_⟩)
          rw [parseLine, hspec]
          simp [lineResult, hc, Except.map]
  · by_cases hlen : b.length < bufSize
    · exact Or.inr (Or.inl ⟨hmem, hlen⟩)
    · exact Or.inr (Or.inr ⟨_, by simpa using parseLine_long (x := []) hmem (not_lt.mp hlen)⟩)

/-- A header line: its marker, an integer and its terminator, within the line buffer. -/
structure IsHeader (mark : UInt8) (n : ℕ) (h : Bytes) : Prop where
  split : ∃ t, h = mark :: t ++ crlf ∧ IsInt t n
  length_le : h.length ≤ bufSize

theorem parseLine_header {mark : UInt8} {n : ℕ} {h : Bytes} (hh : IsHeader mark n h)
    (hm : mark ≠ 10) (x : Bytes) :
    ∃ t, parseLine (h ++ x) = .ok (mark :: t, x) ∧ IsInt t n := by
  obtain ⟨⟨t, rfl, ht⟩, hlen⟩ := hh
  refine ⟨t, parseLine_append ⟨?_, ?_⟩ x, ht⟩
  · simpa [hm.symm] using ht.lf_notMem
  · rwa [List.length_append] at hlen

theorem isHeader_of_fitsLine {mark : UInt8} {n : ℕ} {t : Bytes} (hf : FitsLine (mark :: t))
    (ht : IsInt t n) : IsHeader mark n (mark :: t ++ crlf) :=
  ⟨⟨t, rfl, ht⟩, by rw [List.length_append]; exact hf.2⟩

def ArrayFits (lim : Limits) (n : ℕ) : Prop := 1 ≤ n ∧ n ≤ lim.maxArrayElements

def BulkFits (lim : Limits) (total ln : ℕ) : Prop :=
  ln ≤ lim.maxBulkLength ∧ (0 < lim.maxCommandBytes → total + ln ≤ lim.maxCommandBytes)

/-- What both header checks read off a line. -/
theorem marked_iff {mark : UInt8} {line : Bytes} {n : ℤ} :
    (∃ t, line = mark :: t ∧ IsInt t n) ↔
      line.head? = some mark ∧ parseInt 64 line.tail = .ok n := by
  cases line with
  | nil => simp
  | cons c t => simp [parseInt_eq_ok_iff, and_assoc]

theorem arrayLength_eq_ok_iff (lim : Limits) (line : Bytes) (n : ℕ) :
    arrayLength lim line = .ok n ↔ (∃ t, line = 42 :: t ∧ IsInt t n) ∧ ArrayFits lim n := by
  rw [marked_iff]
  unfold arrayLength ArrayFits
  by_cases hc : line.head? = some 42
  · rw [if_neg (not_not.mpr hc)]
    cases hp : parseInt 64 line.tail with
    | error e => simp
    | ok m =>
      simp only [hc, Except.ok.injEq, true_and]
      split_ifs <;> simp <;> omega
  · simp [hc]

theorem bulkLength_eq_ok_iff (lim : Limits) (total : ℕ) (line : Bytes) (ln : ℕ) :
    bulkLength lim total line = .ok ln ↔
      (∃ t, line = 36 :: t ∧ IsInt t ln) ∧ BulkFits lim total ln := by
  rw [marked_iff]
  unfold bulkLength BulkFits
  by_cases hc : line.head? = some 36
  · rw [if_neg (not_not.mpr hc)]
    cases hp : parseInt 64 line.tail with
    | error e => simp
    | ok m =>
      simp only [hc, Except.ok.injEq, true_and]
      split_ifs <;> simp <;> omega
  · simp [hc]

theorem arrayLength_error {lim : Limits} {line : Bytes} {e : ReadErr}
    (h : arrayLength lim line = .error e) : ∃ msg, e = protoErr msg := by
  unfold arrayLength at h
  split_ifs at h
  · exact ⟨_, (Except.error.inj h).symm⟩
  · split at h
    · exact ⟨_, (Except.error.inj h).symm⟩
    · split_ifs at h <;> exact ⟨_, (Except.error.inj h).symm⟩

theorem bulkLength_error {lim : Limits} {total : ℕ} {line : Bytes} {e : ReadErr}
    (h : bulkLength lim total line = .error e) : ∃ msg, e = protoErr msg := by
  unfold bulkLength at h
  split_ifs at h
  · exact ⟨_, (Except.error.inj h).symm⟩
  · split at h
    · exact ⟨_, (Except.error.inj h).symm⟩
    · split_ifs at h <;> exact ⟨_, (Except.error.inj h).symm⟩

/-! ## Bulk strings -/

/-- A bulk string holding the payload `p`, after `total` payload bytes of its frame. -/
def IsBulk (lim : Limits) (total : ℕ) (p b : Bytes) : Prop :=
  ∃ h, IsHeader 36 p.length h ∧ BulkFits lim total p.length ∧ b = h ++ p ++ crlf

/-- The stream ends inside a bulk string: in its header line, or before the announced payload
and its terminator are complete. -/
def TornBulk (lim : Limits) (total : ℕ) (b : Bytes) : Prop :=
  (10 ∉ b ∧ b.length < bufSize) ∨
    ∃ h ln p, IsHeader 36 ln h ∧ BulkFits lim total ln ∧ p.length < ln + 2 ∧ b = h ++ p

private theorem parsePayload_append (p x : Bytes) :
    parsePayload p.length (p ++ crlf ++ x) = .ok (p, x) := by
  have hlen : ¬ (p ++ crlf ++ x).length < p.length + 2 := by simp [crlf]
  have hdrop : (p ++ crlf ++ x).drop p.length = crlf ++ x := by simp
  have hdrop2 : (p ++ crlf ++ x).drop (p.length + 2) = x := by
    rw [← List.drop_drop, hdrop]
    rfl
  rw [parsePayload, if_neg hlen, hdrop, hdrop2, if_neg (by simp [crlf])]
  simp

theorem parseBulk_header {lim : Limits} {total ln : ℕ} {h : Bytes} (hh : IsHeader 36 ln h)
    (hf : BulkFits lim total ln) (x : Bytes) :
    parseBulk lim total (h ++ x) = parsePayload ln x := by
  obtain ⟨t, hline, ht⟩ := parseLine_header hh (by decide) x
  have hlen := (bulkLength_eq_ok_iff lim total (36 :: t) ln).mpr ⟨⟨t, rfl, ht⟩, hf⟩
  simp only [parseBulk, hline, hlen]

theorem parseBulk_append {lim : Limits} {total : ℕ} {p b : Bytes} (hb : IsBulk lim total p b)
    (x : Bytes) : parseBulk lim total (b ++ x) = .ok (p, x) := by
  obtain ⟨h, hh, hf, rfl⟩ := hb
  have := parseBulk_header hh hf (p ++ crlf ++ x)
  rw [parsePayload_append] at this
  simpa using this

private theorem parseBulk_torn {lim : Limits} {total : ℕ} {b : Bytes} (hb : TornBulk lim total b) :
    ∃ msg, parseBulk lim total b = .error (incompleteErr msg) := by
  rcases hb with ⟨h10, hlen⟩ | ⟨h, ln, p, hh, hf, hlen, rfl⟩
  · refine ⟨"unexpected end of stream inside frame", ?_⟩
    rw [parseBulk, parseLine_of_notMem h10 hlen]
    by_cases hb : b = [] <;> simp [hb, bulkReadErr, incompleteErr]
  · rw [parseBulk_header hh hf, parsePayload, if_pos hlen]
    exact ⟨_, rfl⟩

private theorem parseBulk_cases (lim : Limits) (total : ℕ) (b : Bytes) :
    (∃ p c x, IsBulk lim total p c ∧ b = c ++ x) ∨ TornBulk lim total b ∨
      ∃ msg, parseBulk lim total b = .error (protoErr msg) := by
  rcases parseLine_cases b with ⟨line, x, hfit, rfl⟩ | htorn | ⟨msg, hmsg⟩
  · have hline := parseLine_append hfit x
    cases hlen : bulkLength lim total line with
    | error e =>
      obtain ⟨msg, rfl⟩ := bulkLength_error hlen
      exact Or.inr (Or.inr ⟨msg, by simp only [parseBulk, hline, hlen]⟩)
    | ok ln =>
      obtain ⟨⟨t, rfl, ht⟩, hf⟩ := (bulkLength_eq_ok_iff _ _ _ _).mp hlen
      have hh := isHeader_of_fitsLine hfit ht
      by_cases hshort : x.length < ln + 2
      · exact Or.inr (Or.inl (Or.inr ⟨_, ln, x, hh, hf, hshort, rfl⟩))
      by_cases hcrlf : (x.drop ln).take 2 = [13, 10]
      · refine Or.inl ⟨x.take ln, 36 :: t ++ crlf ++ x.take ln ++ crlf, x.drop (ln + 2),
          ⟨_, ?_, ?_, rfl⟩, ?_⟩
        · rwa [List.length_take_of_le (by omega)]
        · rwa [List.length_take_of_le (by omega)]
        · have hx : x = x.take ln ++ ([13, 10] ++ x.drop (ln + 2)) := by
            rw [← hcrlf, ← List.drop_drop, List.take_append_drop, List.take_append_drop]
          simpa [crlf] using hx
      · refine Or.inr (Or.inr ⟨"bulk string not terminated by CRLF", ?_⟩)
        rw [parseBulk_header hh hf, parsePayload, if_neg hshort, if_pos hcrlf]
  · exact Or.inr (Or.inl (Or.inl htorn))
  · exact Or.inr (Or.inr ⟨msg, by rw [parseBulk, hmsg]; rfl⟩)

/-- Consecutive bulk strings, after `total` payload bytes of their frame. -/
inductive IsBulks (lim : Limits) : ℕ → List Bytes → Bytes → Prop where
  | nil {total : ℕ} : IsBulks lim total [] []
  | cons {total : ℕ} {p b : Bytes} {ps : List Bytes} {bs : Bytes} (hb : IsBulk lim total p b)
      (hbs : IsBulks lim (total + p.length) ps bs) : IsBulks lim total (p :: ps) (b ++ bs)

/-- Fewer than `n` bulk strings, and then the stream ends inside one. -/
def TornBulks (lim : Limits) (n total : ℕ) (b : Bytes) : Prop :=
  ∃ ps bs v, ps.length < n ∧ IsBulks lim total ps bs ∧
    TornBulk lim (total + ps.flatten.length) v ∧ b = bs ++ v

private theorem parseBulks_append {lim : Limits} {total : ℕ} {ps : List Bytes} {bs : Bytes}
    (h : IsBulks lim total ps bs) (x : Bytes) :
    parseBulks lim ps.length total (bs ++ x) = .ok (ps, x) := by
  induction h with
  | nil => rfl
  | cons hb _ ih =>
    rw [List.length_cons, parseBulks, List.append_assoc, parseBulk_append hb]
    simp only [ih, Except.map]

private theorem parseBulks_torn {lim : Limits} {n total : ℕ} {b : Bytes}
    (h : TornBulks lim n total b) :
    ∃ msg, parseBulks lim n total b = .error (incompleteErr msg) := by
  obtain ⟨ps, bs, v, hlt, hbs, hv, rfl⟩ := h
  induction hbs generalizing n with
  | nil =>
    obtain ⟨msg, hmsg⟩ := parseBulk_torn (by simpa using hv)
    obtain ⟨k, rfl⟩ : ∃ k, n = k + 1 := ⟨n - 1, by simp at hlt; omega⟩
    exact ⟨msg, by simp only [List.nil_append, parseBulks, hmsg]⟩
  | @cons total p b ps bs hb _ ih =>
    obtain ⟨k, rfl⟩ : ∃ k, n = k + 1 := ⟨n - 1, by simp at hlt; omega⟩
    obtain ⟨msg, hmsg⟩ := @ih k (by simpa using hlt) (by simpa [Nat.add_assoc] using hv)
    refine ⟨msg, ?_⟩
    rw [parseBulks, List.append_assoc, parseBulk_append hb]
    simp only [hmsg, Except.map]

private theorem parseBulks_cases (lim : Limits) (n total : ℕ) (b : Bytes) :
    (∃ ps bs x, ps.length = n ∧ IsBulks lim total ps bs ∧ b = bs ++ x) ∨
      TornBulks lim n total b ∨ ∃ msg, parseBulks lim n total b = .error (protoErr msg) := by
  induction n generalizing total b with
  | zero => exact Or.inl ⟨[], [], b, rfl, .nil, rfl⟩
  | succ n ih =>
    rcases parseBulk_cases lim total b with ⟨p, c, y, hb, rfl⟩ | htorn | ⟨msg, hmsg⟩
    · rcases ih (total + p.length) y with ⟨ps, bs, x, rfl, hbs, rfl⟩ |
        ⟨ps, bs, v, hlt, hbs, hv, rfl⟩ | ⟨msg, hmsg⟩
      · exact Or.inl ⟨p :: ps, c ++ bs, x, rfl, .cons hb hbs, by simp⟩
      · refine Or.inr (Or.inl ⟨p :: ps, c ++ bs, v, by simpa using hlt, .cons hb hbs, ?_, by simp⟩)
        simpa [Nat.add_assoc] using hv
      · refine Or.inr (Or.inr ⟨msg, ?_⟩)
        rw [parseBulks, parseBulk_append hb]
        simp only [hmsg, Except.map]
    · exact Or.inr (Or.inl ⟨[], [], b, by simp, .nil, by simpa using htorn, rfl⟩)
    · exact Or.inr (Or.inr ⟨msg, by rw [parseBulks, hmsg]⟩)

/-! ## Frames -/

/-- A request frame: an array header and as many bulk strings as it announces. -/
def IsFrame (lim : Limits) (args : List Bytes) (b : Bytes) : Prop :=
  ∃ h body, IsHeader 42 args.length h ∧ ArrayFits lim args.length ∧ IsBulks lim 0 args body ∧
    b = h ++ body

/-- The stream ends inside a frame it has begun. -/
def Torn (lim : Limits) (b : Bytes) : Prop :=
  (b ≠ [] ∧ 10 ∉ b ∧ b.length < bufSize) ∨
    ∃ h n body, IsHeader 42 n h ∧ ArrayFits lim n ∧ TornBulks lim n 0 body ∧ b = h ++ body

theorem parseFrame_header {lim : Limits} {n : ℕ} {h : Bytes} (hh : IsHeader 42 n h)
    (hf : ArrayFits lim n) (x : Bytes) : parseFrame lim (h ++ x) = parseBulks lim n 0 x := by
  obtain ⟨t, hline, ht⟩ := parseLine_header hh (by decide) x
  have hlen := (arrayLength_eq_ok_iff lim (42 :: t) n).mpr ⟨⟨t, rfl, ht⟩, hf⟩
  simp only [parseFrame, hline, hlen]

theorem parseFrame_append {lim : Limits} {args : List Bytes} {b : Bytes}
    (h : IsFrame lim args b) (x : Bytes) : parseFrame lim (b ++ x) = .ok (args, x) := by
  obtain ⟨h, body, hh, hf, hb, rfl⟩ := h
  rw [List.append_assoc, parseFrame_header hh hf, parseBulks_append hb]

theorem parseFrame_nil (lim : Limits) : parseFrame lim [] = .error (.io .eof) := rfl

theorem parseFrame_torn {lim : Limits} {b : Bytes} (h : Torn lim b) :
    ∃ msg, parseFrame lim b = .error (incompleteErr msg) := by
  rcases h with ⟨hne, h10, hlen⟩ | ⟨h, n, body, hh, hf, hb, rfl⟩
  · refine ⟨"unexpected end of stream inside frame", ?_⟩
    rw [parseFrame, parseLine_of_notMem h10 hlen, if_neg hne]
  · rw [parseFrame_header hh hf]
    exact parseBulks_torn hb

theorem not_torn {lim : Limits} {b : Bytes}
    (h : ∀ msg, parseFrame lim b ≠ .error (incompleteErr msg)) : ¬ Torn lim b := by
  intro htorn
  obtain ⟨msg, hmsg⟩ := parseFrame_torn htorn
  exact h msg hmsg

/-- The bytes begin with a frame, or they are none, or they end inside a frame, or they are
malformed. -/
theorem parseFrame_cases (lim : Limits) (b : Bytes) :
    (∃ args f x, IsFrame lim args f ∧ b = f ++ x) ∨ b = [] ∨ Torn lim b ∨
      ∃ msg, parseFrame lim b = .error (protoErr msg) := by
  by_cases hne : b = []
  · exact Or.inr (Or.inl hne)
  rcases parseLine_cases b with ⟨line, x, hfit, rfl⟩ | htorn | ⟨msg, hmsg⟩
  · have hline := parseLine_append hfit x
    cases hlen : arrayLength lim line with
    | error e =>
      obtain ⟨msg, rfl⟩ := arrayLength_error hlen
      exact Or.inr (Or.inr (Or.inr ⟨msg, by simp only [parseFrame, hline, hlen]⟩))
    | ok n =>
      obtain ⟨⟨t, rfl, ht⟩, hf⟩ := (arrayLength_eq_ok_iff _ _ _).mp hlen
      have hh := isHeader_of_fitsLine hfit ht
      rcases parseBulks_cases lim n 0 x with ⟨ps, bs, y, rfl, hbs, rfl⟩ | htorn | ⟨msg, hmsg⟩
      · exact Or.inl ⟨ps, _, y, ⟨_, bs, hh, hf, hbs, rfl⟩, by simp⟩
      · exact Or.inr (Or.inr (Or.inl (Or.inr ⟨_, n, x, hh, hf, htorn, rfl⟩)))
      · exact Or.inr (Or.inr (Or.inr ⟨msg, by rw [parseFrame_header hh hf, hmsg]⟩))
  · exact Or.inr (Or.inr (Or.inl (Or.inl ⟨hne, htorn⟩)))
  · exact Or.inr (Or.inr (Or.inr ⟨msg, by rw [parseFrame, hmsg]⟩))

end GoKv.Resp
