import GoKv.Aof.Replay
import GoKv.Resp.Decoder
import GoKv.Resp.Frames

/-! Replay on the whole file. What it returns depends only on the bytes, and on every crash
prefix of a log it is exact. -/
namespace GoKv.Aof
open GoLib GoKv.Resp

/-! ## Replay of a byte string -/

def parseRecord (b : Bytes) : Except DecodeErr (Record × Bytes) :=
  match parseFrame defaultLimits b with
  | .error e => .error (.read e)
  | .ok (parts, x) =>
    match decodeParts parts with
    | .error c => .error (.corrupt c)
    | .ok rec => .ok (rec, x)

/-- The record loop on the bytes left of a file of `total` bytes. -/
def replayBytes (total : ℕ) (now : ℤ) : ℕ → Bytes → Result → Store → Option Replayed
  | 0, _, _, _ => none
  | fuel + 1, b, res, dst =>
    match parseRecord b with
    | .error e => some (replayEnd res dst e)
    | .ok (rec, x) =>
      replayBytes total now fuel x
        { res with
          records := res.records + 1
          lastValidOffset := (total : ℤ) - x.length }
        (apply rec now dst)

section Source

variable {σ : Type*} {R : IoReader σ} {I : σ → Prop} {src : σ → Bytes}

/-- A counting reader delivers what its source does, and knows how much that was. -/
theorem Counting.delivers (h : Delivers R I src) (total : ℕ) :
    Delivers (Counting.reader R) (fun c => I c.r ∧ c.n + (src c.r).length = total)
      (fun c => src c.r) where
  keeps c k hc hk := by
    have hsplit := congrArg List.length (h.splits c.r k hc.1 hk)
    rw [List.length_append] at hsplit
    refine ⟨h.keeps c.r k hc.1 hk, ?_⟩
    change c.n + (R.read c.r k).data.length + (src (R.read c.r k).next).length = total
    have := hc.2
    omega
  splits c k hc hk := h.splits c.r k hc.1 hk
  ends c k e hc hk he := h.ends c.r k e hc.1 hk he

theorem decode_spec (h : Delivers R I src) {r : Reader σ} (hr : r.br.Ready I)
    (hl : r.limits = defaultLimits) :
    match parseRecord (r.br.rest src) with
    | .error e => ∃ r', decode R r = (.error e, r')
    | .ok (rec, x) => ∃ r', decode R r = (.ok rec, r') ∧ r'.limits = defaultLimits ∧
        r'.br.Ready I ∧ r'.br.rest src = x := by
  have hcmd := Reader.readCommand_spec h hr
  unfold parseRecord decode
  rw [hl] at hcmd
  cases hp : parseFrame defaultLimits (r.br.rest src) with
  | error e =>
    simp only [hp] at hcmd ⊢
    obtain ⟨r', hres⟩ := hcmd
    exact ⟨r', by rw [hres]⟩
  | ok q =>
    obtain ⟨parts, x⟩ := q
    simp only [hp] at hcmd ⊢
    obtain ⟨r', hres, hl', hready, hrest⟩ := hcmd
    rw [hres]
    dsimp only
    cases decodeParts parts with
    | error c => exact ⟨r', rfl⟩
    | ok rec => exact ⟨r', rfl, hl', hready, hrest⟩

/-- The loop over a source in any pieces is the loop over its bytes: the offset, bytes delivered
minus bytes still buffered, is exact. -/
theorem replayLoop_spec (h : Delivers R I src) (total : ℕ) (now : ℤ) (fuel : ℕ)
    {r : Reader (Counting σ)} (hl : r.limits = defaultLimits)
    (hr : r.br.Ready fun c => I c.r ∧ c.n + (src c.r).length = total) (res : Result)
    (dst : Store) :
    replayLoop R now fuel r res dst =
      replayBytes total now fuel (r.br.rest fun c => src c.r) res dst := by
  induction fuel generalizing r res dst with
  | zero => rfl
  | succ fuel ih =>
    have hdec := decode_spec (Counting.delivers h total) hr hl
    unfold replayLoop replayBytes
    cases hp : parseRecord (r.br.rest fun c => src c.r) with
    | error e =>
      simp only [hp] at hdec
      obtain ⟨r', hres⟩ := hdec
      rw [hres]
    | ok q =>
      obtain ⟨rec, x⟩ := q
      simp only [hp] at hdec
      obtain ⟨r', hres, hl', hready, hrest⟩ := hdec
      have hoff : (r'.br.rd.n : ℤ) - r'.buffered = total - x.length := by
        have hn := hready.1.2
        have hlen := congrArg List.length hrest
        rw [Bufio.rest, List.length_append] at hlen
        simp only [Reader.buffered, Bufio.buffered]
        omega
      simp only [hres]
      rw [ih hl' hready, hrest, hoff]

end Source

/-- A header ReadHeader accepts: its reserved bytes are not looked at. -/
structure ValidHeader (h : Bytes) : Prop where
  length_eq : h.length = headerSize
  magic : h.take 8 = magic
  version : ofUint32BE ((h.take 12).drop 8) = formatVersion

theorem validHeader_encodeHeader : ValidHeader encodeHeader := ⟨rfl, by decide, by decide⟩

theorem length_encodeHeader : encodeHeader.length = headerSize := rfl

private theorem readHeader_ok {σ : Type*} {R : IoReader σ} {I : σ → Prop} {src : σ → Bytes}
    (h : Delivers R I src) {s : σ} (hs : I s) {hdr b : Bytes} (hh : ValidHeader hdr)
    (hb : src s = hdr ++ b) : ∃ s', readHeader R s = (.ok false, s') ∧ I s' ∧ src s' = b := by
  have hlen : headerSize ≤ (src s).length := by
    rw [hb, List.length_append, hh.length_eq]
    omega
  obtain ⟨hdata, herr, hrest, hI⟩ := readFull_enough h hs hlen
  rw [hb, List.take_left' hh.length_eq] at hdata
  rw [hb, List.drop_left' hh.length_eq] at hrest
  have hne : hdr ≠ [] := List.ne_nil_of_length_pos (by rw [hh.length_eq]; decide)
  refine ⟨_, ?_, hI, hrest⟩
  simp only [readHeader, hdata, herr, hne, hh.magic, hh.version, false_and, if_false, ne_eq,
    not_true]

private theorem replayChunks_eq {cs : Chunks} {hdr b : Bytes} (hh : ValidHeader hdr)
    (hcs : cs.rest = hdr ++ b) (now : ℤ) (dst : Store) :
    replayChunks cs now dst =
      replayBytes (headerSize + b.length) now (headerSize + b.length + 1) b
        ⟨0, headerSize, false⟩ dst := by
  have htotal : cs.rest.length = headerSize + b.length := by
    rw [hcs, List.length_append, hh.length_eq]
  have hdel := Counting.delivers Chunks.delivers (headerSize + b.length)
  obtain ⟨c, hhead, hI, hrest⟩ := readHeader_ok hdel (s := ⟨cs, 0⟩)
    ⟨trivial, by change 0 + cs.rest.length = _; omega⟩ hh hcs
  rw [replayChunks, replay, hhead, htotal]
  dsimp only
  rw [replayLoop_spec Chunks.delivers (headerSize + b.length) now _ rfl
    (Bufio.ready_ofReader (s := c) hI)]
  change replayBytes _ _ _ (Chunks.rest c.r) _ _ = _
  rw [hrest]

/-! ## Records in a file -/

/-- Bytes that Decode accepts as one record. -/
def IsRecord (r : Record) (b : Bytes) : Prop :=
  ∃ parts, IsFrame defaultLimits parts b ∧ decodeParts parts = .ok r

theorem parseRecord_append {r : Record} {b : Bytes} (h : IsRecord r b) (x : Bytes) :
    parseRecord (b ++ x) = .ok (r, x) := by
  obtain ⟨parts, hf, hd⟩ := h
  simp only [parseRecord, parseFrame_append hf, hd]

theorem IsRecord.ne_nil {r : Record} {b : Bytes} (h : IsRecord r b) : b ≠ [] := by
  obtain ⟨parts, ⟨_, body, ⟨⟨t, rfl, -⟩, -⟩, -, -, rfl⟩, -⟩ := h
  simp

inductive IsLog : List Record → Bytes → Prop where
  | nil : IsLog [] []
  | cons {r : Record} {b : Bytes} {rs : List Record} {bs : Bytes} (hb : IsRecord r b)
      (hbs : IsLog rs bs) : IsLog (r :: rs) (b ++ bs)

def applyAll (now : ℤ) (dst : Store) (rs : List Record) : Store :=
  rs.foldl (fun s r => apply r now s) dst

private theorem replayBytes_records (total : ℕ) (now : ℤ) {tail : Bytes} {e : DecodeErr}
    (he : parseRecord tail = .error e) {rs : List Record} {body : Bytes} (h : IsLog rs body)
    (fuel : ℕ) (hfuel : rs.length < fuel) (res : Result) (dst : Store)
    (hoff : res.lastValidOffset = (total : ℤ) - (body ++ tail).length) :
    replayBytes total now fuel (body ++ tail) res dst =
      some (replayEnd
        { res with
          records := res.records + rs.length
          lastValidOffset := (total : ℤ) - tail.length }
        (applyAll now dst rs) e) := by
  induction h generalizing fuel res dst with
  | nil =>
    obtain ⟨k, rfl⟩ : ∃ k, fuel = k + 1 := ⟨fuel - 1, by simp at hfuel; omega⟩
    have hres : res = { res with lastValidOffset := (total : ℤ) - tail.length } := by
      rw [List.nil_append] at hoff
      rw [← hoff]
    simp only [List.nil_append, replayBytes, he, applyAll, List.foldl_nil, List.length_nil,
      Nat.add_zero]
    rw [← hres]
  | @cons r b rs bs hb _ ih =>
    obtain ⟨k, rfl⟩ : ∃ k, fuel = k + 1 := ⟨fuel - 1, by simp at hfuel; omega⟩
    rw [List.append_assoc, replayBytes, parseRecord_append hb]
    dsimp only
    rw [ih k (by simpa using hfuel) _ _ rfl]
    have hcount : res.records + 1 + rs.length = res.records + (rs.length + 1) := by omega
    simp only [applyAll, List.foldl_cons, List.length_cons, hcount]

theorem IsLog.length_le {rs : List Record} {body : Bytes} (h : IsLog rs body) :
    rs.length ≤ body.length := by
  induction h with
  | nil => exact le_rfl
  | cons hb _ ih =>
    have := List.length_pos_iff.mpr hb.ne_nil
    rw [List.length_cons, List.length_append]
    omega

theorem replay_tail {hdr : Bytes} (hh : ValidHeader hdr) {rs : List Record} {body : Bytes}
    (h : IsLog rs body) {tail : Bytes} {e : DecodeErr} (he : parseRecord tail = .error e)
    {src : Chunks} (hsrc : src.rest = hdr ++ (body ++ tail)) (now : ℤ) (dst : Store) :
    replayChunks src now dst =
      some (replayEnd ⟨rs.length, (headerSize + body.length : ℕ), false⟩
        (applyAll now dst rs) e) := by
  have hcount := h.length_le
  rw [replayChunks_eq hh hsrc, replayBytes_records _ now he h _ _ _ _ (by push_cast; ring)]
  · have hoff : ((headerSize + (body ++ tail).length : ℕ) : ℤ) - tail.length =
        (headerSize + body.length : ℕ) := by
      rw [List.length_append]
      push_cast
      ring
    rw [hoff, Nat.zero_add]
  · rw [List.length_append]
    omega

/-! ## Logs and their prefixes -/

private theorem decodeParts_parts {r : Record} (h : r.Writable) : decodeParts r.parts = .ok r := by
  rcases r with ⟨key, value, _ | ms⟩ | ⟨_ | ⟨k, ks⟩⟩
  · rfl
  · simp [decodeParts, Record.parts, parseInt64_formatInt]
  · exact absurd rfl h
  · have hv : verbDel ≠ verbSet := by decide
    simp [decodeParts, Record.parts, hv]

/-- A record whose frame Replay's reader takes. -/
def Record.Fits (r : Record) : Prop := FitsFrame defaultLimits r.parts

theorem isRecord_bytes {r : Record} (hw : r.Writable) (hf : r.Fits) : IsRecord r r.bytes :=
  ⟨r.parts, isFrame_writeCommand hf, decodeParts_parts hw⟩

theorem isLog_encodes {rs : List Record} (h : ∀ r ∈ rs, r.Writable ∧ r.Fits) :
    IsLog rs (encodes rs) := by
  induction rs with
  | nil => exact .nil
  | cons r rs ih =>
    obtain ⟨hr, hrs⟩ := List.forall_mem_cons.mp h
    exact .cons (isRecord_bytes hr.1 hr.2) (ih hrs)

/-- A cut leaves whole records and less than the next one. -/
theorem encodes_take_cases (rs : List Record) (d : ℕ) (hd : d ≤ (encodes rs).length) :
    ∃ m tail, m ≤ rs.length ∧ (encodes rs).take d = encodes (rs.take m) ++ tail ∧
      (m < rs.length → d < (encodes (rs.take (m + 1))).length) ∧
      (tail ≠ [] → ∃ r ∈ rs, tail <+: r.bytes ∧ tail.length < r.bytes.length) := by
  induction rs generalizing d with
  | nil => exact ⟨0, [], le_rfl, by simp, by simp, by simp⟩
  | cons r rs ih =>
    rw [encodes_cons, List.length_append] at hd
    rcases lt_or_ge d r.bytes.length with hlt | hge
    · refine ⟨0, r.bytes.take d, by simp, ?_, ?_, fun _ => ⟨r, by simp, List.take_prefix _ _, ?_⟩⟩
      · rw [encodes_cons, List.take_append_of_le_length hlt.le]
        rfl
      · intro _
        simpa using hlt
      · rw [List.length_take]
        omega
    · obtain ⟨m, tail, hm, htake, hnext, htail⟩ := ih (d - r.bytes.length) (by omega)
      refine ⟨m + 1, tail, by simpa using hm, ?_, fun h => ?_, fun hne => ?_⟩
      · rw [encodes_cons, List.take_append, List.take_of_length_le hge, htake,
          List.take_succ_cons, encodes_cons, List.append_assoc]
      · have := hnext (by simpa using h)
        rw [List.take_succ_cons, encodes_cons, List.length_append]
        omega
      · obtain ⟨t, ht, hpre⟩ := htail hne
        exact ⟨t, List.mem_cons_of_mem _ ht, hpre⟩

theorem parseRecord_nil : parseRecord [] = .error (.read (.io .eof)) := rfl

theorem parseRecord_torn {b : Bytes} (h : Torn defaultLimits b) :
    ∃ e, parseRecord b = .error e ∧ e ≠ .read (.io .eof) ∧ e.isIncomplete = true := by
  obtain ⟨msg, hmsg⟩ := parseFrame_torn h
  exact ⟨.read (incompleteErr msg), by simp only [parseRecord, hmsg], by simp [incompleteErr], rfl⟩

/-- Replay of every crash prefix of a log, in any pieces: it takes exactly the records that lie
wholly before the cut, and reports a torn tail exactly when the cut is not between records. -/
theorem replay_crash_cut (rs : List Record) (hw : ∀ r ∈ rs, r.Writable) (hf : ∀ r ∈ rs, r.Fits)
    (c : ℕ) (hlo : headerSize ≤ c) (hhi : c ≤ (encodeHeader ++ encodes rs).length) (src : Chunks)
    (hsrc : src.rest = (encodeHeader ++ encodes rs).take c) (now : ℤ) (dst : Store) :
    ∃ m ≤ rs.length,
      headerSize + (encodes (rs.take m)).length ≤ c ∧
      (m < rs.length → c < headerSize + (encodes (rs.take (m + 1))).length) ∧
      replayChunks src now dst = some
        { result :=
            { records := m
              lastValidOffset := (headerSize + (encodes (rs.take m)).length : ℕ)
              truncated := decide (c ≠ headerSize + (encodes (rs.take m)).length) }
          err := none
          dst := applyAll now dst (rs.take m) } := by
  rw [List.length_append, length_encodeHeader] at hhi
  rw [List.take_append, length_encodeHeader, List.take_of_length_le hlo] at hsrc
  obtain ⟨m, tail, hm, htake, hnext, htail⟩ := encodes_take_cases rs (c - headerSize) (by omega)
  have hlen : c - headerSize = (encodes (rs.take m)).length + tail.length := by
    have := congrArg List.length htake
    rw [List.length_take, List.length_append] at this
    omega
  refine ⟨m, hm, by omega, fun h => by have := hnext h; omega, ?_⟩
  have hrec : ∀ r ∈ rs.take m, r.Writable ∧ r.Fits :=
    fun r hr => ⟨hw r (List.mem_of_mem_take hr), hf r (List.mem_of_mem_take hr)⟩
  rw [htake] at hsrc
  have htaken : (rs.take m).length = m := by rw [List.length_take]; omega
  have hreplay := fun e (he : parseRecord tail = .error e) =>
    replay_tail validHeader_encodeHeader (isLog_encodes hrec) he hsrc now dst
  by_cases hnil : tail = []
  · subst hnil
    have hc : c = headerSize + (encodes (rs.take m)).length := by simp at hlen; omega
    rw [hreplay _ parseRecord_nil, htaken, replayEnd, if_pos rfl]
    simp [hc]
  · obtain ⟨r, hr, hpre, hlt⟩ := htail hnil
    obtain ⟨e, he, hne, hinc⟩ :=
      parseRecord_torn (torn_of_cut (isFrame_writeCommand (hf r hr)) hpre hlt hnil)
    have hpos := List.length_pos_iff.mpr hnil
    have hc : c ≠ headerSize + (encodes (rs.take m)).length := by omega
    rw [hreplay e he, htaken, replayEnd, if_neg hne, if_pos hinc]
    simp [hc]

/-- Two records of 44 and 20 bytes. -/
def tornLog : List Record := [.set [107] [118] (some 5), .del [[107]]]

theorem tornLog_fits : ∀ r ∈ tornLog, r.Fits := by
  intro r hr
  rcases List.mem_cons.mp hr with rfl | hr
  · exact ⟨by decide, by decide, by decide, by decide, by decide⟩
  · obtain rfl := List.mem_singleton.mp hr
    exact ⟨by decide, by decide, by decide, by decide, by decide⟩

/-- Cut inside the second record, only the first is replayed. -/
theorem replay_crash_cut_torn :
    (replayChunks (.whole ((encodeHeader ++ encodes tornLog).take 70)) 0 .new).map
      Replayed.result = some ⟨1, 60, true⟩ := by
  obtain ⟨m, hm, hle, hlt, h⟩ := replay_crash_cut tornLog (by decide) tornLog_fits 70 (by decide)
    (by decide) _ (Chunks.rest_whole _) 0 .new
  have hm1 : m = 1 := by
    have h0 : ¬ m = 0 := by rintro rfl; exact absurd (hlt (by decide)) (by decide)
    have h2 : ¬ m = 2 := by rintro rfl; exact absurd hle (by decide)
    have hlen : tornLog.length = 2 := rfl
    omega
  subst hm1
  rw [h]
  rfl

end GoKv.Aof
