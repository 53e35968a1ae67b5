import GoKv.Resp.Reader

/-! The decoder on the whole remaining stream. The reader's result and what it leaves unread
depend only on the bytes still to come, not on how they are delivered. -/
namespace GoKv.Resp
open GoLib

/-! ## The parse of a byte string -/

def parseLine (b : Bytes) : Except ReadErr (Bytes × Bytes) :=
  match Bufio.sliceSpec 10 b with
  | (line, err, rest) => (lineResult line err).map fun l => (l, rest)

def parsePayload (ln : ℕ) (b : Bytes) : Except ReadErr (Bytes × Bytes) :=
  if b.length < ln + 2 then .error (incompleteErr "unexpected end of stream inside frame")
  else if (b.drop ln).take 2 ≠ [13, 10] then
    .error (protoErr "bulk string not terminated by CRLF")
  else .ok (b.take ln, b.drop (ln + 2))

def parseBulk (lim : Limits) (total : ℕ) (b : Bytes) : Except ReadErr (Bytes × Bytes) :=
  match parseLine b with
  | .error e => .error (bulkReadErr e)
  | .ok (line, b) =>
    match bulkLength lim total line with
    | .error e => .error e
    | .ok ln => parsePayload ln b

def parseBulks (lim : Limits) : ℕ → ℕ → Bytes → Except ReadErr (List Bytes × Bytes)
  | 0, _, b => .ok ([], b)
  | n + 1, total, b =>
    match parseBulk lim total b with
    | .error e => .error e
    | .ok (p, b) => (parseBulks lim n (total + p.length) b).map fun q => (p :: q.1, q.2)

/-- The arguments of the frame the bytes begin with, and the bytes after it. -/
def parseFrame (lim : Limits) (b : Bytes) : Except ReadErr (List Bytes × Bytes) :=
  match parseLine b with
  | .error e => .error e
  | .ok (line, b) =>
    match arrayLength lim line with
    | .error e => .error e
    | .ok n => parseBulks lim n 0 b

/-! ## The reader computes it -/

namespace Reader

variable {σ : Type*} {R : IoReader σ} {I : σ → Prop} {src : σ → Bytes}

theorem readLine_spec (h : Delivers R I src) {r : Reader σ} (hr : r.br.Ready I) :
    ∃ br, br.Ready I ∧
      (match parseLine (r.br.rest src) with
        | .error e => r.readLine R = (.error e, { r with br := br })
        | .ok (line, b) => r.readLine R = (.ok line, { r with br := br }) ∧ br.rest src = b) := by
  obtain ⟨hready, hspec⟩ := Bufio.readSlice_spec h 10 hr
  refine ⟨(r.br.readSlice R 10).next, hready, ?_⟩
  unfold parseLine readLine
  rw [← hspec]
  dsimp only
  cases lineResult (r.br.readSlice R 10).data (r.br.readSlice R 10).err with
  | error e => rfl
  | ok line => exact ⟨rfl, rfl⟩

private theorem le_growSize (lim : Limits) (capacity need : ℕ) :
    need ≤ growSize lim capacity need := by
  unfold growSize
  extract_lets size
  have hsize : need ≤ size := by
    simp only [size]
    split_ifs <;> omega
  split_ifs <;> omega

def grownCap (lim : Limits) (capacity need : ℕ) : ℕ :=
  if need ≤ capacity then capacity else growSize lim capacity need

/-- growBuf never panics, keeps the contents and makes the room. -/
theorem growBuf_spec (r : Reader σ) (need : ℕ) :
    ∃ b, r.growBuf need = some { r with buf := b } ∧ b.data = r.buf.data ∧
      b.cap = grownCap r.limits r.buf.cap need ∧ need ≤ b.cap := by
  unfold growBuf grownCap
  split_ifs with hcap
  · exact ⟨r.buf, rfl, rfl, rfl, hcap⟩
  · have hneed := le_growSize r.limits r.buf.cap need
    have hlen := r.buf.len_le_cap
    obtain ⟨b, hb, hdata, -, hc⟩ :=
      r.buf.realloc_of_le (show r.buf.len ≤ growSize r.limits r.buf.cap need by omega)
    exact ⟨b, by rw [hb]; rfl, hdata, hc, by omega⟩

theorem readChunks_succ (R : IoReader σ) (fuel : ℕ) {remaining : ℕ} (hpos : remaining ≠ 0)
    (r : Reader σ) :
    ∃ b t : Slice, b.data = r.buf.data ∧
      b.upTo (b.len + min remaining maxPreallocation) = some t ∧
      readChunks R (fuel + 1) remaining r =
        (let g := readFull (Bufio.toReader R) r.br (min remaining maxPreallocation)
        let r' := { r with buf := t.store b.len g.data, br := g.next }
        match g.err with
        | some e => (.error (bulkReadErr (.io e)), r')
        | none => readChunks R fuel (remaining - min remaining maxPreallocation) r') := by
  have hchunk : (if maxPreallocation < remaining then maxPreallocation else remaining) =
      min remaining maxPreallocation := by
    split_ifs <;> omega
  obtain ⟨b, hb, hdata, -, hcap⟩ := growBuf_spec r (r.buf.len + min remaining maxPreallocation)
  have hlen : b.len = r.buf.len := by rw [← b.length_data, hdata, r.buf.length_data]
  have hup := Slice.upTo_of_le hcap
  refine ⟨b, _, hdata, by rw [hlen]; exact hup, ?_⟩
  rw [readChunks, if_neg hpos]
  cases he : (readFull (Bufio.toReader R) r.br (min remaining maxPreallocation)).err <;>
    simp only [hchunk, hb, hup, hlen, he]

private theorem readChunks_enough (h : Delivers R I src) (fuel : ℕ) {remaining : ℕ} {r : Reader σ}
    (hr : r.br.Ready I) (hf : remaining ≤ fuel) (hn : remaining ≤ (r.br.rest src).length) :
    ∃ br b, readChunks R fuel remaining r = (.ok (), { r with br := br, buf := b }) ∧
      br.Ready I ∧ br.rest src = (r.br.rest src).drop remaining ∧
      b.data = r.buf.data ++ (r.br.rest src).take remaining := by
  induction fuel generalizing remaining r with
  | zero =>
    obtain rfl : remaining = 0 := by omega
    exact ⟨r.br, r.buf, rfl, hr, by simp, by simp⟩
  | succ fuel ih =>
    by_cases hz : remaining = 0
    · subst hz
      exact ⟨r.br, r.buf, by simp [readChunks], hr, by simp, by simp⟩
    · obtain ⟨b, t, hb, ht, heq⟩ := readChunks_succ R fuel hz r
      set chunk := min remaining maxPreallocation with hchunk
      have hpos : 0 < chunk := by
        have : 0 < maxPreallocation := by decide
        omega
      obtain ⟨hd, herr, hrest, hready⟩ :=
        readFull_enough (Bufio.delivers h) hr (k := chunk) (by omega)
      have hlen : (readFull (Bufio.toReader R) r.br chunk).data.length = chunk := by
        rw [hd, List.length_take]
        omega
      have hstore := Slice.data_store_upTo (readFull (Bufio.toReader R) r.br chunk).data
        (by rw [hlen]; exact ht)
      rw [heq]
      simp only [herr]
      obtain ⟨br', b', hres, hready', hrest', hdata'⟩ := @ih (remaining - chunk)
        { r with
          buf := t.store b.len (readFull (Bufio.toReader R) r.br chunk).data
          br := (readFull (Bufio.toReader R) r.br chunk).next }
        hready (by omega) (by
          simp only [hrest, List.length_drop]
          omega)
      refine ⟨br', b', hres, hready', ?_, ?_⟩
      · rw [hrest', hrest, List.drop_drop]
        congr 1
        omega
      · rw [hdata', hstore, hb, hd, hrest, List.append_assoc, ← List.take_add]
        congr 2
        omega

private theorem readChunks_short (h : Delivers R I src) (fuel : ℕ) {remaining : ℕ} {r : Reader σ}
    (hr : r.br.Ready I) (hf : remaining ≤ fuel) (hn : (r.br.rest src).length < remaining) :
    ∃ r', readChunks R fuel remaining r =
      (.error (incompleteErr "unexpected end of stream inside frame"), r') := by
  induction fuel generalizing remaining r with
  | zero => omega
  | succ fuel ih =>
    obtain ⟨b, t, -, -, heq⟩ := readChunks_succ R fuel (show remaining ≠ 0 by omega) r
    rw [heq]
    set chunk := min remaining maxPreallocation with hchunk
    have hpos : 0 < maxPreallocation := by decide
    by_cases hk : chunk ≤ (r.br.rest src).length
    · obtain ⟨-, herr, hrest, hready⟩ := readFull_enough (Bufio.delivers h) hr hk
      simp only [herr]
      apply ih hready (by omega)
      simp only [hrest, List.length_drop]
      omega
    · obtain ⟨-, herr, -, -⟩ := readFull_short (Bufio.delivers h) hr (not_le.mp hk)
      simp only [herr]
      split_ifs <;> exact ⟨_, rfl⟩

theorem endBulk_ok {r : Reader σ} {pre p : Bytes} (hd : r.buf.data = pre ++ p ++ [13, 10]) :
    ∃ b, r.endBulk pre.length p.length =
        (.ok (), { r with
          buf := b, offsets := r.offsets ++ [(pre.length, pre.length + p.length)] }) ∧
      b.data = pre ++ p := by
  have hlen : r.buf.len = pre.length + p.length + 2 := by
    rw [← r.buf.length_data, hd]
    simp only [List.length_append, List.length_cons, List.length_nil]
  have hcap := r.buf.len_le
  have h0 : r.buf.index (pre.length + p.length) = some 13 := by
    rw [Slice.index, hd, List.getElem?_append_right (by simp)]
    simp
  have h1 : r.buf.index (pre.length + p.length + 1) = some 10 := by
    rw [Slice.index, hd, List.getElem?_append_right (by simp)]
    simp
  have hup := Slice.upTo_of_le (show pre.length + p.length ≤ r.buf.cap by rw [Slice.cap]; omega)
  refine ⟨⟨r.buf.arr, pre.length + p.length, by omega⟩, ?_, ?_⟩
  · simp [endBulk, h0, h1, hup]
  · have htake := congrArg (List.take (pre.length + p.length)) hd
    rw [Slice.data, List.take_take, Nat.min_eq_left (by omega)] at htake
    rw [Slice.data, htake, List.take_append_of_le_length (by simp),
      List.take_of_length_le (by simp)]

theorem endBulk_unterminated {r : Reader σ} {pre p : Bytes} {c d : UInt8}
    (hd : r.buf.data = pre ++ p ++ [c, d]) (hcd : [c, d] ≠ [13, 10]) :
    r.endBulk pre.length p.length =
      (.error (protoErr "bulk string not terminated by CRLF"), r) := by
  have h0 : r.buf.index (pre.length + p.length) = some c := by
    rw [Slice.index, hd, List.getElem?_append_right (by simp)]
    simp
  have h1 : r.buf.index (pre.length + p.length + 1) = some d := by
    rw [Slice.index, hd, List.getElem?_append_right (by simp)]
    simp
  have hbad : c ≠ 13 ∨ d ≠ 10 := by
    by_contra hgood
    push Not at hgood
    exact hcd (by rw [hgood.1, hgood.2])
  simp only [endBulk, h0, h1, if_pos hbad]

/-- The payload loop and the terminator check on the remaining stream. -/
theorem readPayload_spec (h : Delivers R I src) {r : Reader σ} (hr : r.br.Ready I) (ln : ℕ) :
    match parsePayload ln (r.br.rest src) with
    | .error e => ∃ r', r.readPayload R ln = (.error e, r')
    | .ok (p, x) => ∃ br b, r.readPayload R ln =
          (.ok (), { r with
            br := br, buf := b, offsets := r.offsets ++ [(r.buf.len, r.buf.len + p.length)] }) ∧
        br.Ready I ∧ br.rest src = x ∧ b.data = r.buf.data ++ p := by
  unfold parsePayload readPayload
  by_cases hshort : (r.br.rest src).length < ln + 2
  · rw [if_pos hshort]
    obtain ⟨r', hres⟩ := readChunks_short h (ln + 2) hr le_rfl hshort
    exact ⟨r', by rw [hres]⟩
  rw [if_neg hshort]
  obtain ⟨br, b, hres, hready, hrest, hdata⟩ := readChunks_enough h (ln + 2) hr le_rfl
    (not_lt.mp hshort)
  have hsplit : (r.br.rest src).take (ln + 2) =
      (r.br.rest src).take ln ++ ((r.br.rest src).drop ln).take 2 := List.take_add
  have hln : ((r.br.rest src).take ln).length = ln := by rw [List.length_take]; omega
  rw [hsplit, ← List.append_assoc] at hdata
  have hstart := r.buf.length_data
  rw [hres]
  by_cases hcrlf : ((r.br.rest src).drop ln).take 2 = [13, 10]
  · rw [if_neg (not_not.mpr hcrlf)]
    rw [hcrlf] at hdata
    obtain ⟨b', hend, hdata'⟩ := endBulk_ok (r := { r with br := br, buf := b }) hdata
    rw [hstart, hln] at hend
    exact ⟨br, b', by simp only [hend, hln], hready, hrest, hdata'⟩
  · rw [if_pos hcrlf]
    obtain ⟨c, d, hcd⟩ : ∃ c d, ((r.br.rest src).drop ln).take 2 = [c, d] := by
      rw [← List.length_eq_two, List.length_take, List.length_drop]
      omega
    rw [hcd] at hdata hcrlf
    have hend := endBulk_unterminated (r := { r with br := br, buf := b }) hdata hcrlf
    rw [hstart, hln] at hend
    exact ⟨_, hend⟩

theorem readBulk_spec (h : Delivers R I src) {r : Reader σ} (hr : r.br.Ready I) :
    match parseBulk r.limits r.buf.len (r.br.rest src) with
    | .error e => ∃ r', r.readBulk R = (.error e, r')
    | .ok (p, x) => ∃ br b, r.readBulk R =
          (.ok (), { r with
            br := br, buf := b, offsets := r.offsets ++ [(r.buf.len, r.buf.len + p.length)] }) ∧
        br.Ready I ∧ br.rest src = x ∧ b.data = r.buf.data ++ p := by
  obtain ⟨br, hready, hline⟩ := readLine_spec h hr
  unfold parseBulk readBulk
  cases hp : parseLine (r.br.rest src) with
  | error e =>
    simp only [hp] at hline
    exact ⟨_, by rw [hline]⟩
  | ok q =>
    obtain ⟨line, x⟩ := q
    simp only [hp] at hline
    obtain ⟨hline, rfl⟩ := hline
    simp only [hline]
    cases bulkLength r.limits r.buf.len line with
    | error e => exact ⟨_, rfl⟩
    | ok ln => exact readPayload_spec h (r := { r with br := br }) hready ln

def spans (start : ℕ) : List Bytes → List (ℕ × ℕ)
  | [] => []
  | p :: ps => (start, start + p.length) :: spans (start + p.length) ps

theorem readBulks_spec (h : Delivers R I src) (n : ℕ) {r : Reader σ} (hr : r.br.Ready I) :
    match parseBulks r.limits n r.buf.len (r.br.rest src) with
    | .error e => ∃ r', readBulks R n r = (.error e, r')
    | .ok (ps, x) => ∃ br b, readBulks R n r =
          (.ok (), { r with br := br, buf := b, offsets := r.offsets ++ spans r.buf.len ps }) ∧
        br.Ready I ∧ br.rest src = x ∧ b.data = r.buf.data ++ ps.flatten := by
  induction n generalizing r with
  | zero => exact ⟨r.br, r.buf, by simp [readBulks, spans], hr, rfl, by simp⟩
  | succ n ih =>
    have hbulk := readBulk_spec h hr
    unfold parseBulks readBulks
    cases hp : parseBulk r.limits r.buf.len (r.br.rest src) with
    | error e =>
      simp only [hp] at hbulk
      obtain ⟨r', hres⟩ := hbulk
      exact ⟨r', by rw [hres]⟩
    | ok q =>
      obtain ⟨p, x⟩ := q
      simp only [hp] at hbulk
      obtain ⟨br, b, hres, hready, rfl, hdata⟩ := hbulk
      have hlen : b.len = r.buf.len + p.length := by
        rw [← b.length_data, hdata, List.length_append, r.buf.length_data]
      have hrec := @ih { r with
        br := br, buf := b, offsets := r.offsets ++ [(r.buf.len, r.buf.len + p.length)] } hready
      simp only [hlen] at hrec
      simp only [hres]
      cases hps : parseBulks r.limits n (r.buf.len + p.length) (br.rest src) with
      | error e =>
        simp only [hps] at hrec
        exact hrec
      | ok q =>
        obtain ⟨ps, x⟩ := q
        simp only [hps] at hrec
        obtain ⟨br', b', hres', hready', hrest', hdata'⟩ := hrec
        refine ⟨br', b', ?_, hready', hrest', ?_⟩
        · rw [hres']
          simp [spans]
        · rw [hdata', hdata]
          simp

theorem mapM_spans (b : Slice) (ps : List Bytes) (pre : Bytes)
    (hd : b.data = pre ++ ps.flatten) :
    (spans pre.length ps).mapM (fun o => b.sub o.1 o.2) = some ps := by
  induction ps generalizing pre with
  | nil => rfl
  | cons p ps ih =>
    have hlen : pre.length + p.length ≤ b.len := by
      rw [← b.length_data, hd, List.flatten_cons]
      simp only [List.length_append]
      omega
    have hcap : pre.length + p.length ≤ b.arr.length := hlen.trans b.len_le
    have hsub : b.sub pre.length (pre.length + p.length) = some p := by
      have htake : b.arr.take (pre.length + p.length) = pre ++ p := by
        have := congrArg (List.take (pre.length + p.length)) hd
        rw [Slice.data, List.take_take, Nat.min_eq_left hlen] at this
        rw [this, List.flatten_cons, ← List.append_assoc, List.take_append_of_le_length (by simp),
          List.take_of_length_le (by simp)]
      rw [Slice.sub, if_pos ⟨by omega, hcap⟩, htake, List.drop_left]
    have hrec := ih (pre ++ p) (by rw [hd]; simp)
    rw [List.length_append] at hrec
    simp [spans, hsub, hrec]

/-- ReadCommand on a source that delivers its bytes in any pieces is the parse of the bytes
still to come. -/
theorem readCommand_spec (h : Delivers R I src) {r : Reader σ} (hr : r.br.Ready I) :
    match parseFrame r.limits (r.br.rest src) with
    | .error e => ∃ r', r.readCommand R = (.error e, r')
    | .ok (args, x) => ∃ r', r.readCommand R = (.ok args, r') ∧ r'.limits = r.limits ∧
        r'.br.Ready I ∧ r'.br.rest src = x := by
  obtain ⟨br, hready, hline⟩ := readLine_spec h hr
  unfold parseFrame readCommand
  cases hp : parseLine (r.br.rest src) with
  | error e =>
    simp only [hp] at hline
    exact ⟨_, by rw [hline]⟩
  | ok q =>
    obtain ⟨line, x⟩ := q
    simp only [hp] at hline
    obtain ⟨hline, rfl⟩ := hline
    simp only [hline]
    cases arrayLength r.limits line with
    | error e => exact ⟨_, rfl⟩
    | ok n =>
      have hbulks := readBulks_spec h n (r := reset { r with br := br }) hready
      simp only [reset_len, reset_data, reset_limits, reset_br, reset_offsets, List.nil_append]
        at hbulks
      cases hps : parseBulks r.limits n 0 (br.rest src) with
      | error e =>
        simp only [hps] at hbulks ⊢
        obtain ⟨r', hres⟩ := hbulks
        exact ⟨r', by rw [hres]⟩
      | ok q =>
        obtain ⟨ps, x⟩ := q
        simp only [hps] at hbulks ⊢
        obtain ⟨br', b', hres, hready', hrest', hdata'⟩ := hbulks
        have hargs := mapM_spans b' ps [] hdata'
        rw [List.length_nil] at hargs
        simp only [hres, hargs]
        exact ⟨_, rfl, rfl, hready', hrest'⟩

end Reader

end GoKv.Resp
