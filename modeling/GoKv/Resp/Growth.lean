import GoKv.Resp.Decoder
import GoKv.Resp.Frames
import GoKv.Resp.Moments

/-! The decode buffer at every moment of every call: no index leaves it, its capacity follows the
bytes received and stays within the limit, and the arguments cut from it are the payloads. -/
namespace GoKv.Resp
open GoLib

/-! ## Header lines of any source -/

theorem fitsLine_of_lineResult {σ : Type*} {R : IoReader σ} {b : Bufio σ} {line : Bytes}
    (hb : b.buf.length ≤ bufSize)
    (h : lineResult (b.readSlice R 10).data (b.readSlice R 10).err = .ok line) :
    (b.readSlice R 10).data = line ++ crlf ∧ FitsLine line := by
  have hline := (Bufio.readSlice_line (R := R) 10 hb).2
  unfold lineResult at h
  cases herr : (b.readSlice R 10).err with
  | some e =>
    simp only [herr] at h
    split_ifs at h
  | none =>
    simp only [herr] at h
    split_ifs at h with hbad
    rw [not_or, not_not] at hbad
    obtain ⟨hlong, hcr⟩ := hbad
    rcases hline herr with hnil | ⟨l, hdata, h10, hlen⟩
    · rw [hnil] at hlong
      exact absurd Nat.zero_lt_two hlong
    · rcases List.eq_nil_or_concat l with rfl | ⟨front, c, rfl⟩
      · rw [hdata] at hlong
        exact absurd Nat.one_lt_two hlong
      · rw [hdata] at h hcr ⊢
        simp only [List.concat_eq_append, List.length_append, List.length_singleton] at h hcr hlen
        have hc : c = 13 := by simpa using hcr
        have hfront : front = line := by simpa using h
        subst hc hfront
        refine ⟨by simp [crlf], ?_, by omega⟩
        intro hmem
        exact h10 (by simp [hmem])

theorem lineResult_ne_panic {line : Bytes} {err : Option IoErr} {e : ReadErr}
    (h : lineResult line err = .error e) : e ≠ .panic := by
  unfold lineResult at h
  cases err with
  | some e' =>
    dsimp only at h
    split_ifs at h <;> cases h <;> exact fun he => by cases he
  | none =>
    dsimp only at h
    split_ifs at h
    cases h
    exact fun he => by cases he

theorem bulkReadErr_ne_panic {e : ReadErr} (h : e ≠ .panic) : bulkReadErr e ≠ .panic := by
  unfold bulkReadErr
  split
  · exact fun he => by cases he
  · exact fun he => by cases he
  · exact h

/-! ## Room in the buffer -/

private theorem growSize_le_double {l : Limits} {c n : ℕ} (h : c < n) :
    Reader.growSize l c n ≤ 2 * n := by
  unfold Reader.growSize
  extract_lets size
  have hsize : size ≤ 2 * n := by
    simp only [size]
    split_ifs <;> omega
  split_ifs <;> omega

private theorem growSize_le_limit {l : Limits} {c n : ℕ} (h : 0 < l.maxCommandBytes) :
    (Reader.growSize l c n : ℤ) ≤ max l.maxCommandBytes n := by
  unfold Reader.growSize
  extract_lets size
  split_ifs <;> omega

namespace Reader

variable {σ : Type*}

theorem cap_reset_le (r : Reader σ) :
    r.reset.buf.cap ≤ maxRetainedBuffer ∧ r.reset.buf.cap ≤ r.buf.cap := by
  unfold reset
  rw [Slice.cap_clear]
  split_ifs with h
  · exact ⟨Nat.zero_le _, Nat.zero_le _⟩
  · exact ⟨not_lt.mp h, le_rfl⟩

theorem endBulk_frame (r : Reader σ) (start ln : ℕ) :
    (r.endBulk start ln).2.buf.cap = r.buf.cap ∧ (r.endBulk start ln).2.limits = r.limits ∧
      (r.endBulk start ln).2.br = r.br := by
  unfold endBulk
  cases r.buf.index (start + ln) with
  | none => exact ⟨rfl, rfl, rfl⟩
  | some c =>
    cases r.buf.index (start + ln + 1) with
    | none => exact ⟨rfl, rfl, rfl⟩
    | some d =>
      dsimp only
      split_ifs
      · exact ⟨rfl, rfl, rfl⟩
      · cases hb : r.buf.upTo (start + ln) with
        | none => exact ⟨rfl, rfl, rfl⟩
        | some b => exact ⟨Slice.cap_of_upTo hb, rfl, rfl⟩

private theorem spans_concat (start : ℕ) (ps : List Bytes) (p : Bytes) :
    spans start (ps ++ [p]) = spans start ps ++
      [(start + ps.flatten.length, start + ps.flatten.length + p.length)] := by
  induction ps generalizing start with
  | nil => rfl
  | cons q ps ih =>
    rw [List.cons_append, spans, ih, spans, List.cons_append, List.flatten_cons,
      List.length_append, Nat.add_assoc start]

end Reader

/-- Making room never fails. -/
theorem Moment.grow_eq {σ : Type*} (n start ln remaining : ℕ) (m : Moment σ) :
    ∃ b b' : Slice, m.grow n start ln remaining =
        ⟨.fill n start ln remaining b.len (min remaining maxPreallocation),
          { m.reader with buf := b' }, m.taken⟩ ∧
      b.data = m.reader.buf.data ∧ b.upTo (b.len + min remaining maxPreallocation) = some b' ∧
      b'.cap = Reader.grownCap m.reader.limits m.reader.buf.cap
        (m.reader.buf.len + min remaining maxPreallocation) := by
  have hchunk : (if maxPreallocation < remaining then maxPreallocation else remaining) =
      min remaining maxPreallocation := by
    split_ifs <;> omega
  obtain ⟨b, hgrow, hdata, hcap, hneed⟩ :=
    m.reader.growBuf_spec (m.reader.buf.len + min remaining maxPreallocation)
  have hlen : b.len = m.reader.buf.len := by
    rw [← b.length_data, hdata, m.reader.buf.length_data]
  rw [← hlen] at hgrow hcap hneed ⊢
  have hup := Slice.upTo_of_le hneed
  refine ⟨b, _, ?_, hdata, hup, (Slice.cap_of_upTo hup).trans hcap⟩
  unfold grow
  simp only [hchunk, ← hlen, hgrow, hup]

/-! ## Frames under way -/

theorem IsBulks.length_le {lim : Limits} {total : ℕ} {ps : List Bytes} {bs : Bytes}
    (h : IsBulks lim total ps bs) : ps.flatten.length ≤ bs.length := by
  induction h with
  | nil => exact le_rfl
  | cons hb _ ih =>
    obtain ⟨h, -, -, rfl⟩ := hb
    simp only [List.flatten_cons, List.length_append]
    omega

/-- The bytes of a frame up to and including the bulk strings `ps`, with `n` still to come. -/
def MidFrame (lim : Limits) (ps : List Bytes) (n : ℕ) (t : Bytes) : Prop :=
  ∃ h body, IsHeader 42 (ps.length + n) h ∧ ArrayFits lim (ps.length + n) ∧
    IsBulks lim 0 ps body ∧ t = h ++ body

namespace MidFrame

variable {lim : Limits} {ps : List Bytes} {n : ℕ} {t : Bytes}

private theorem ofHeader {h : Bytes} (hh : IsHeader 42 n h) (hf : ArrayFits lim n) :
    MidFrame lim [] n h := by
  refine ⟨h, [], ?_, ?_, .nil, (List.append_nil h).symm⟩
  · rwa [List.length_nil, Nat.zero_add]
  · rwa [List.length_nil, Nat.zero_add]

theorem bulk {p b : Bytes} (h : MidFrame lim ps (n + 1) t)
    (hb : IsBulk lim ps.flatten.length p b) : MidFrame lim (ps ++ [p]) n (t ++ b) := by
  obtain ⟨hd, body, hh, hf, hbs, rfl⟩ := h
  have hlen : (ps ++ [p]).length + n = ps.length + (n + 1) := by
    rw [List.length_append, List.length_singleton]
    omega
  have hone : IsBulks lim (0 + ps.flatten.length) [p] (b ++ []) :=
    .cons (by rwa [Nat.zero_add]) .nil
  rw [List.append_nil] at hone
  exact ⟨hd, body ++ b, by rwa [hlen], by rwa [hlen], hbs.append hone, List.append_assoc _ _ _⟩

theorem isFrame (h : MidFrame lim ps 0 t) : IsFrame lim ps t := h

theorem length_le (h : MidFrame lim ps n t) : ps.flatten.length ≤ t.length := by
  obtain ⟨hd, body, -, -, hbs, rfl⟩ := h
  have hle := hbs.length_le
  rw [List.length_append]
  omega

end MidFrame

/-! ## The invariant -/

variable {σ : Type*} {R : IoReader σ} {lim : Limits}

/-- What the buffer, the offsets and the bytes taken are at each point. -/
inductive Sound (lim : Limits) : Moment σ → Prop where
  | header (r : Reader σ) : Sound lim ⟨.header, r, []⟩
  | bulks {ps : List Bytes} {n : ℕ} {r : Reader σ} {t : Bytes} (hread : MidFrame lim ps n t)
      (hdata : r.buf.data = ps.flatten) (hoff : r.offsets = Reader.spans 0 ps) :
      Sound lim ⟨.bulks n, r, t⟩
  | chunks {ps : List Bytes} {n ln remaining : ℕ} {r : Reader σ} {t h part : Bytes}
      (hread : MidFrame lim ps (n + 1) t) (hhead : IsHeader 36 ln h)
      (hfits : BulkFits lim ps.flatten.length ln) (hdata : r.buf.data = ps.flatten ++ part)
      (hoff : r.offsets = Reader.spans 0 ps) (hlen : part.length + remaining = ln + 2) :
      Sound lim ⟨.chunks n ps.flatten.length ln remaining, r, t ++ h ++ part⟩
  | fill {ps : List Bytes} {n ln remaining chunk : ℕ} {r : Reader σ} {t h part : Bytes}
      {b : Slice} (hread : MidFrame lim ps (n + 1) t) (hhead : IsHeader 36 ln h)
      (hfits : BulkFits lim ps.flatten.length ln) (hdata : b.data = ps.flatten ++ part)
      (hroom : b.upTo (b.len + chunk) = some r.buf) (hoff : r.offsets = Reader.spans 0 ps)
      (hlen : part.length + remaining = ln + 2) (hchunk : chunk ≤ remaining) :
      Sound lim ⟨.fill n ps.flatten.length ln remaining b.len chunk, r, t ++ h ++ part⟩
  | refused {e : ReadErr} {r : Reader σ} {t : Bytes} (he : e ≠ .panic) :
      Sound lim ⟨.refused e, r, t⟩
  | failed {e : ReadErr} {r : Reader σ} {t : Bytes} (he : e ≠ .panic) :
      Sound lim ⟨.done (.error e), r, t⟩
  | returned {args : List Bytes} {r : Reader σ} {t : Bytes} (hframe : IsFrame lim args t)
      (hdata : r.buf.data = args.flatten) : Sound lim ⟨.done (.ok args), r, t⟩

/-- The capacity that the bytes of the frame received so far allow. -/
def allowance (received : ℕ) : ℕ := max maxRetainedBuffer (2 * (received + maxPreallocation))

private theorem allowance_mono {i j : ℕ} (h : i ≤ j) : allowance i ≤ allowance j := by
  unfold allowance
  omega

structure Inv (lim : Limits) (m : Moment σ) : Prop where
  limits : m.reader.limits = lim
  line : m.reader.br.buf.length ≤ bufSize
  sound : Sound lim m
  limited : 0 < lim.maxCommandBytes → (m.reader.buf.cap : ℤ) ≤ lim.maxCommandBytes + 2
  received : m.point.accepted = true → m.reader.buf.cap ≤ allowance m.taken.length

namespace Inv

variable {m m' : Moment σ}

theorem start (s : σ) (lim : Limits) : Inv lim (Moment.start s lim) where
  limits := rfl
  line := Nat.zero_le _
  sound := .header _
  limited hpos := by
    change ((0 : ℕ) : ℤ) ≤ lim.maxCommandBytes + 2
    omega
  received h := by cases h

theorem of_cap_eq (h : Inv lim m) (hlimits : m'.reader.limits = m.reader.limits)
    (hline : m'.reader.br.buf.length ≤ bufSize) (hsound : Sound lim m')
    (hcap : m'.reader.buf.cap = m.reader.buf.cap)
    (hacc : m'.point.accepted = true →
      m.point.accepted = true ∧ m.taken.length ≤ m'.taken.length) : Inv lim m' where
  limits := hlimits.trans h.limits
  line := hline
  sound := hsound
  limited hpos := by
    rw [hcap]
    exact h.limited hpos
  received ha := by
    obtain ⟨hm, hle⟩ := hacc ha
    rw [hcap]
    exact (h.received hm).trans (allowance_mono hle)

theorem readHeader {r : Reader σ} (h : Inv lim ⟨.header, r, []⟩) :
    Inv lim (Moment.readHeader R ⟨.header, r, []⟩) := by
  have hbuf := (Bufio.readSlice_line (R := R) 10 h.line).1
  unfold Moment.readHeader Moment.readLine
  dsimp only
  cases hres : lineResult (r.br.readSlice R 10).data (r.br.readSlice R 10).err with
  | error e =>
    exact h.of_cap_eq rfl hbuf (.refused (lineResult_ne_panic hres)) rfl (fun ha => by cases ha)
  | ok line =>
    obtain ⟨hdata, hfit⟩ := fitsLine_of_lineResult h.line hres
    dsimp only
    cases hlen : arrayLength r.limits line with
    | error e =>
      obtain ⟨msg, rfl⟩ := arrayLength_error hlen
      exact h.of_cap_eq rfl hbuf (.refused (fun he => by cases he)) rfl (fun ha => by cases ha)
    | ok n =>
      obtain ⟨⟨t, rfl, ht⟩, hfits⟩ := (arrayLength_eq_ok_iff _ _ _).mp hlen
      have hlim : r.limits = lim := h.limits
      rw [hlim] at hfits
      obtain ⟨hret, hle⟩ := Reader.cap_reset_le { r with br := (r.br.readSlice R 10).next }
      exact {
        limits := hlim
        line := hbuf
        sound := by
          rw [hdata]
          exact .bulks (.ofHeader (isHeader_of_fitsLine hfit ht) hfits) (Reader.reset_data _) rfl
        limited := by
          intro hpos
          have hcap := h.limited hpos
          dsimp only at hcap hle ⊢
          omega
        received := fun _ => hret.trans (le_max_left _ _) }

theorem readBulkHeader {n : ℕ} {r : Reader σ} {t : Bytes} (h : Inv lim ⟨.bulks (n + 1), r, t⟩) :
    Inv lim (Moment.readBulkHeader R n ⟨.bulks (n + 1), r, t⟩) := by
  have hbuf := (Bufio.readSlice_line (R := R) 10 h.line).1
  have hmono : t.length ≤ (t ++ (r.br.readSlice R 10).data).length := by
    rw [List.length_append]
    omega
  unfold Moment.readBulkHeader Moment.readLine
  dsimp only
  cases hres : lineResult (r.br.readSlice R 10).data (r.br.readSlice R 10).err with
  | error e =>
    have he := bulkReadErr_ne_panic (lineResult_ne_panic hres)
    exact h.of_cap_eq rfl hbuf (.failed he) rfl (fun _ => ⟨rfl, hmono⟩)
  | ok line =>
    obtain ⟨hdata, hfit⟩ := fitsLine_of_lineResult h.line hres
    dsimp only
    cases hlen : bulkLength r.limits r.buf.len line with
    | error e =>
      obtain ⟨msg, rfl⟩ := bulkLength_error hlen
      exact h.of_cap_eq rfl hbuf (.failed (fun he => by cases he)) rfl (fun _ => ⟨rfl, hmono⟩)
    | ok ln =>
      refine h.of_cap_eq rfl hbuf ?_ rfl (fun _ => ⟨rfl, hmono⟩)
      obtain ⟨⟨u, rfl, hu⟩, hfits⟩ := (bulkLength_eq_ok_iff _ _ _ _).mp hlen
      have hlim : r.limits = lim := h.limits
      cases h.sound with
      | @bulks ps _ _ _ hread hd hoff =>
        have hstart : r.buf.len = ps.flatten.length := by rw [← r.buf.length_data, hd]
        rw [hlim, hstart] at hfits
        have hsound : Sound lim ⟨.chunks n ps.flatten.length ln (ln + 2),
            { r with br := (r.br.readSlice R 10).next }, t ++ (36 :: u ++ crlf) ++ []⟩ :=
          .chunks hread (isHeader_of_fitsLine hfit hu) hfits (by rw [List.append_nil]; exact hd)
            hoff (by rw [List.length_nil, Nat.zero_add])
        rw [List.append_nil] at hsound
        rw [hdata]
        change Sound lim ⟨.chunks n r.buf.len ln (ln + 2), _, _⟩
        rw [hstart]
        exact hsound

theorem grow {n start ln remaining : ℕ} {r : Reader σ} {t : Bytes}
    (h : Inv lim ⟨.chunks n start ln remaining, r, t⟩) :
    Inv lim (Moment.grow n start ln remaining ⟨.chunks n start ln remaining, r, t⟩) := by
  obtain ⟨b, b', hgrow, hdata, hup, hcap⟩ :=
    Moment.grow_eq n start ln remaining ⟨.chunks n start ln remaining, r, t⟩
  rw [hgrow]
  dsimp only at hdata hcap ⊢
  have hlim : r.limits = lim := h.limits
  cases h.sound with
  | @chunks ps _ _ _ _ t h' part hread hhead hfits hd hoff hrem =>
    have hbuf : r.buf.len = ps.flatten.length + part.length := by
      rw [← r.buf.length_data, hd, List.length_append]
    have htaken := hread.length_le
    have hchunk := Nat.min_le_left remaining maxPreallocation
    exact {
      limits := hlim
      line := h.line
      sound := .fill hread hhead hfits (hdata.trans hd) hup hoff hrem hchunk
      limited := by
        intro hmax
        have hold := h.limited hmax
        dsimp only at hold ⊢
        rw [hcap, Reader.grownCap, hlim]
        split_ifs
        · exact hold
        · have hsize := growSize_le_limit (c := r.buf.cap)
            (n := r.buf.len + min remaining maxPreallocation) hmax
          have hfit := hfits.2 hmax
          omega
      received := by
        intro _
        have hold := h.received rfl
        dsimp only at hold ⊢
        rw [hcap, Reader.grownCap]
        split_ifs with hroom
        · exact hold
        · have hsize := growSize_le_double (l := r.limits) (not_le.mp hroom)
          have hmost : r.buf.len + min remaining maxPreallocation ≤
              (t ++ h' ++ part).length + maxPreallocation := by
            simp only [List.length_append]
            omega
          exact (hsize.trans (Nat.mul_le_mul_left 2 hmost)).trans (le_max_right _ _) }

theorem fill {n start ln remaining pos chunk : ℕ} {r : Reader σ} {t : Bytes}
    (h : Inv lim ⟨.fill n start ln remaining pos chunk, r, t⟩) :
    Inv lim (Moment.fill R n start ln remaining pos chunk
      ⟨.fill n start ln remaining pos chunk, r, t⟩) := by
  have hbuf : (readFull (Bufio.toReader R) r.br chunk).next.buf.length ≤ bufSize :=
    readFull_keeps (P := fun b : Bufio σ => b.buf.length ≤ bufSize)
      (fun _ k hb => Bufio.read_buf_le k hb) chunk h.line
  have hmono : t.length ≤ (t ++ (readFull (Bufio.toReader R) r.br chunk).data).length := by
    rw [List.length_append]
    omega
  unfold Moment.fill
  dsimp only
  cases herr : (readFull (Bufio.toReader R) r.br chunk).err with
  | some e =>
    have he : bulkReadErr (.io e) ≠ .panic := bulkReadErr_ne_panic (fun he => by cases he)
    exact h.of_cap_eq rfl hbuf (.failed he) (Slice.cap_store _ _ _) (fun _ => ⟨rfl, hmono⟩)
  | none =>
    refine h.of_cap_eq rfl hbuf ?_ (Slice.cap_store _ _ _) (fun _ => ⟨rfl, hmono⟩)
    have hfull := readFull_length herr
    cases h.sound with
    | @fill ps _ _ _ _ _ t h' part b hread hhead hfits hd hroom hoff hrem hchunk =>
      have hstore := Slice.data_store_upTo _ (hfull.symm ▸ hroom)
      rw [hd, List.append_assoc] at hstore
      rw [List.append_assoc]
      refine .chunks hread hhead hfits hstore hoff ?_
      rw [List.length_append, hfull]
      omega

theorem endBulk {n start ln : ℕ} {r : Reader σ} {t : Bytes}
    (h : Inv lim ⟨.chunks n start ln 0, r, t⟩) :
    Inv lim (Moment.endBulk n start ln ⟨.chunks n start ln 0, r, t⟩) := by
  obtain ⟨hcap, hlimits, hbr⟩ := r.endBulk_frame start ln
  refine h.of_cap_eq hlimits (hbr ▸ h.line) ?_ hcap (fun _ => ⟨rfl, le_rfl⟩)
  unfold Moment.endBulk
  cases h.sound with
  | @chunks ps _ _ _ _ t h' part hread hhead hfits hd hoff hrem =>
    have hsplit : part = part.take ln ++ part.drop ln := (List.take_append_drop ln part).symm
    have hp : (part.take ln).length = ln := by
      rw [List.length_take]
      omega
    obtain ⟨c, d, hcd⟩ : ∃ c d, part.drop ln = [c, d] := by
      rw [← List.length_eq_two, List.length_drop]
      omega
    rw [hsplit, hcd, ← List.append_assoc] at hd
    by_cases hcrlf : [c, d] = ([13, 10] : Bytes)
    · rw [hcrlf] at hd hcd
      obtain ⟨b, hend, hb⟩ := Reader.endBulk_ok hd
      rw [hp] at hend
      have hbulk : IsBulk lim ps.flatten.length (part.take ln) (h' ++ part.take ln ++ crlf) :=
        ⟨h', hp.symm ▸ hhead, hp.symm ▸ hfits, rfl⟩
      have htaken : t ++ h' ++ part = t ++ (h' ++ part.take ln ++ crlf) := by
        conv_lhs => rw [hsplit, hcd]
        simp [crlf]
      rw [hend, htaken]
      refine .bulks (hread.bulk hbulk) ?_ ?_
      · rw [hb, List.flatten_append, List.flatten_singleton]
      · rw [Reader.spans_concat, Nat.zero_add, hp, ← hoff]
    · have hend := Reader.endBulk_unterminated hd hcrlf
      rw [hp] at hend
      rw [hend]
      exact .failed (fun he => by cases he)

theorem endCommand {r : Reader σ} {t : Bytes} (h : Inv lim ⟨.bulks 0, r, t⟩) :
    Inv lim (Moment.endCommand ⟨.bulks 0, r, t⟩) := by
  cases h.sound with
  | @bulks ps _ _ _ hread hd hoff =>
    have hargs := Reader.mapM_spans r.buf ps [] hd
    rw [List.length_nil, ← hoff] at hargs
    unfold Moment.endCommand
    simp only [hargs]
    exact h.of_cap_eq rfl h.line (.returned hread.isFrame hd) rfl (fun _ => ⟨rfl, le_rfl⟩)

theorem step (h : Inv lim m) : Inv lim (Moment.step R m) := by
  obtain ⟨p, r, t⟩ := m
  cases p with
  | header =>
    cases h.sound
    exact h.readHeader
  | bulks n =>
    cases n with
    | zero => exact h.endCommand
    | succ n => exact h.readBulkHeader
  | chunks n start ln remaining =>
    by_cases hz : remaining = 0
    · subst hz
      exact h.endBulk
    · rw [Moment.step_chunks hz]
      exact h.grow
  | fill n start ln remaining pos chunk => exact h.fill
  | refused e => exact h
  | done res =>
    cases res with
    | error e => exact h
    | ok args => exact h.of_cap_eq rfl h.line (.header r) rfl (fun ha => by cases ha)

theorem iterate (h : Inv lim m) (k : ℕ) : Inv lim ((Moment.step R)^[k] m) := by
  induction k with
  | zero => exact h
  | succ k ih =>
    rw [Function.iterate_succ_apply']
    exact ih.step

end Inv

/-- What the invariant says of the point: no panic, and a frame returned with its payloads. -/
theorem Sound.returned_ne_panic {m : Moment σ} (h : Sound lim m) :
    m.point.returned ≠ some (.error .panic) := by
  cases h with
  | refused he => exact fun hp => he (Except.error.inj (Option.some.inj hp))
  | failed he => exact fun hp => he (Except.error.inj (Option.some.inj hp))
  | returned => exact fun hp => by cases hp
  | _ => exact fun hp => by cases hp

theorem Sound.isFrame {args : List Bytes} {r : Reader σ} {t : Bytes}
    (h : Sound lim ⟨.done (.ok args), r, t⟩) :
    IsFrame lim args t ∧ r.buf.data = args.flatten := by
  cases h with
  | returned hframe hdata => exact ⟨hframe, hdata⟩

/-! ## The bytes taken -/

section Stream

variable {I : σ → Prop} {src : σ → Bytes} {whole : Bytes} {m m' : Moment σ}

/-- The bytes of the frame taken so far and those still to come are `whole`. -/
structure OnStream (I : σ → Prop) (src : σ → Bytes) (whole : Bytes) (m : Moment σ) : Prop where
  ready : m.reader.br.Ready I
  splits : m.taken ++ m.reader.br.rest src = whole

namespace OnStream

theorem of_same (h : OnStream I src whole m) (hbr : m'.reader.br = m.reader.br)
    (ht : m'.taken = m.taken) : OnStream I src whole m' :=
  ⟨hbr ▸ h.ready, by rw [hbr, ht]; exact h.splits⟩

theorem readLine (hd : Delivers R I src) (h : OnStream I src whole m) :
    OnStream I src whole (m.readLine R).2 := by
  obtain ⟨hready, hspec⟩ := Bufio.readSlice_spec hd 10 h.ready
  have hsplit := Bufio.sliceSpec_splits 10 (m.reader.br.rest src)
  rw [← hspec] at hsplit
  refine ⟨hready, ?_⟩
  change m.taken ++ (m.reader.br.readSlice R 10).data ++
    (m.reader.br.readSlice R 10).next.rest src = whole
  rw [List.append_assoc, ← h.splits]
  exact congrArg (m.taken ++ ·) hsplit

theorem fill (hd : Delivers R I src) (n start ln remaining pos chunk : ℕ)
    (h : OnStream I src whole m) :
    OnStream I src whole (m.fill R n start ln remaining pos chunk) := by
  obtain ⟨hready, hsplit⟩ := readFull_splits (Bufio.delivers hd) chunk h.ready
  have hwhole : m.taken ++ (readFull (Bufio.toReader R) m.reader.br chunk).data ++
      (readFull (Bufio.toReader R) m.reader.br chunk).next.rest src = whole := by
    rw [List.append_assoc, hsplit]
    exact h.splits
  unfold Moment.fill
  dsimp only
  cases (readFull (Bufio.toReader R) m.reader.br chunk).err with
  | some e => exact ⟨hready, hwhole⟩
  | none => exact ⟨hready, hwhole⟩

theorem readHeader (hd : Delivers R I src) (h : OnStream I src whole m) :
    OnStream I src whole (m.readHeader R) := by
  have hline := h.readLine hd
  unfold Moment.readHeader
  generalize m.readLine R = x at hline ⊢
  obtain ⟨res, m₁⟩ := x
  cases res with
  | error e => exact hline.of_same rfl rfl
  | ok line =>
    dsimp only
    cases arrayLength m₁.reader.limits line with
    | error e => exact hline.of_same rfl rfl
    | ok n => exact hline.of_same rfl rfl

theorem readBulkHeader (hd : Delivers R I src) (n : ℕ) (h : OnStream I src whole m) :
    OnStream I src whole (m.readBulkHeader R n) := by
  have hline := h.readLine hd
  unfold Moment.readBulkHeader
  generalize m.readLine R = x at hline ⊢
  obtain ⟨res, m₁⟩ := x
  cases res with
  | error e => exact hline.of_same rfl rfl
  | ok line =>
    dsimp only
    cases bulkLength m₁.reader.limits m₁.reader.buf.len line with
    | error e => exact hline.of_same rfl rfl
    | ok ln => exact hline.of_same rfl rfl

theorem endCommand (h : OnStream I src whole m) : OnStream I src whole m.endCommand := by
  unfold Moment.endCommand
  cases m.reader.offsets.mapM fun o => m.reader.buf.sub o.1 o.2 with
  | none => exact h.of_same rfl rfl
  | some args => exact h.of_same rfl rfl

theorem step (hd : Delivers R I src) (h : OnStream I src whole m)
    (hm : ∀ args, m.point ≠ .done (.ok args)) : OnStream I src whole (m.step R) := by
  obtain ⟨p, r, t⟩ := m
  cases p with
  | header => exact h.readHeader hd
  | bulks n =>
    cases n with
    | zero => exact h.endCommand
    | succ n => exact h.readBulkHeader hd n
  | chunks n start ln remaining =>
    by_cases hz : remaining = 0
    · subst hz
      exact h.of_same (r.endBulk_frame start ln).2.2 rfl
    · obtain ⟨b, b', hgrow, -⟩ :=
        Moment.grow_eq n start ln remaining ⟨.chunks n start ln remaining, r, t⟩
      rw [Moment.step_chunks hz, hgrow]
      exact h.of_same rfl rfl
  | fill n start ln remaining pos chunk => exact h.fill hd n start ln remaining pos chunk
  | refused e => exact h
  | done res =>
    cases res with
    | error e => exact h
    | ok args => exact absurd rfl (hm args)

end OnStream

/-- At every moment the stream is the frames returned before, the bytes of the current frame
taken so far, and those still to come. -/
theorem stream_at (hd : Delivers R I src) {s : σ} (hs : I s) (lim : Limits) (k : ℕ) :
    ∃ fs : List (Frame lim), ∃ rest, src s = Frame.stream fs ++ rest ∧
      OnStream I src rest ((Moment.step R)^[k] (.start s lim)) := by
  induction k with
  | zero => exact ⟨[], src s, rfl, Bufio.ready_ofReader hs, rfl⟩
  | succ k ih =>
    obtain ⟨fs, rest, hsplit, hon⟩ := ih
    have hinv := (Inv.start s lim).iterate (R := R) k
    rw [Function.iterate_succ_apply']
    generalize (Moment.step R)^[k] (.start s lim) = m at hon hinv
    by_cases hm : ∃ args, m.point = .done (.ok args)
    · obtain ⟨p, r, t⟩ := m
      obtain ⟨args, rfl⟩ := hm
      refine ⟨fs ++ [⟨args, t, hinv.sound.isFrame.1⟩], r.br.rest src, ?_, hon.ready, rfl⟩
      rw [hsplit, ← hon.splits, Frame.stream_append, Frame.stream_cons, Frame.stream_nil,
        List.append_nil, List.append_assoc]
    · exact ⟨fs, rest, hsplit, hon.step hd (not_exists.mp hm)⟩

end Stream

/-- At every moment of every run of calls, on any source and with any limits: no index or slice
expression has left the buffer; once the array header is accepted the capacity is within twice
the bytes of the frame taken so far and one chunk, or what a connection may keep; under a limit
on commands it is within the limit and a terminator; and a call that returned a frame returned
the payloads of the bytes taken. On a source of a byte string those follow the frames before.
A call's moments are those of ReadCommand. -/
theorem decode_buffer_bounds (R : IoReader σ) (s : σ) (lim : Limits) (k : ℕ) :
    let m := (Moment.step R)^[k] (Moment.start s lim)
    m.point.returned ≠ some (.error .panic) ∧
    (m.point.accepted = true →
      m.reader.buf.cap ≤ max maxRetainedBuffer (2 * (m.taken.length + maxPreallocation))) ∧
    (0 < lim.maxCommandBytes → (m.reader.buf.cap : ℤ) ≤ lim.maxCommandBytes + 2) ∧
    (∀ args, m.point = .done (.ok args) → IsFrame lim args m.taken) ∧
    (∀ I src, Delivers R I src → I s → ∃ fs : List (Frame lim),
      src s = Frame.stream fs ++ (m.taken ++ m.reader.br.rest src)) ∧
    (m.point = .header → ∃ p t, Moment.Reaches R m ⟨p, (m.reader.readCommand R).2, t⟩ ∧
      p.returned = some (m.reader.readCommand R).1) := by
  intro m
  have h : Inv lim m := (Inv.start s lim).iterate k
  refine ⟨h.sound.returned_ne_panic, h.received, h.limited, ?_, ?_, ?_⟩
  · intro args hp
    obtain ⟨p, r, t⟩ := m
    obtain rfl : p = .done (.ok args) := hp
    exact h.sound.isFrame.1
  · intro I src hd hs
    obtain ⟨fs, rest, hsplit, hon⟩ := stream_at hd hs lim k
    exact ⟨fs, by rw [hsplit, ← hon.splits]⟩
  · intro hp
    obtain ⟨p, r, t⟩ := m
    obtain rfl : p = .header := hp
    cases h.sound
    exact Moment.reaches_readCommand r

end GoKv.Resp
