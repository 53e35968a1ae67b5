import GoKv.Aof.Rounds
import GoKv.Aof.Tail

/-! What OpenFile makes of any file at all. Every file is of one kind; its kind says whether the
log is opened, with which records and with which bytes left in the file, or why it is refused. -/
namespace GoKv.Aof
open GoLib GoKv.Resp

def announced (hdr : Bytes) : ℕ := ofUint32BE ((hdr.take 12).drop 8)

/-- The kinds of files: the records that are kept and the bytes that stay, or the refusal. -/
inductive FileKind : Bytes → Except ReplayErr (List Record × Bytes) → Prop where
  | created : FileKind [] (.ok ([], encodeHeader))
  | shortHeader {file : Bytes} (hne : file ≠ []) (hlt : file.length < headerSize) :
      FileKind file (.error (.header .truncated))
  | foreign {hdr b : Bytes} (hlen : hdr.length = headerSize) (hm : hdr.take 8 ≠ magic) :
      FileKind (hdr ++ b) (.error (.header .notAnAOF))
  | otherVersion {hdr b : Bytes} (hlen : hdr.length = headerSize) (hm : hdr.take 8 = magic)
      (hv : announced hdr ≠ formatVersion) :
      FileKind (hdr ++ b) (.error (.header (.unsupportedVersion (announced hdr))))
  | clean {hdr body : Bytes} {rs : List Record} (hh : ValidHeader hdr) (hlog : IsLog rs body) :
      FileKind (hdr ++ body) (.ok (rs, hdr ++ body))
  | torn {hdr body tail : Bytes} {rs : List Record} (hh : ValidHeader hdr) (hlog : IsLog rs body)
      (ht : Torn defaultLimits tail) : FileKind (hdr ++ (body ++ tail)) (.ok (rs, hdr ++ body))
  | corrupt {hdr body tail : Bytes} {rs : List Record} {cause : DecodeErr} (hh : ValidHeader hdr)
      (hlog : IsLog rs body) (he : parseRecord tail = .error cause) (hne : tail ≠ [])
      (ht : ¬ Torn defaultLimits tail) :
      FileKind (hdr ++ (body ++ tail))
        (.error (.corruption (headerSize + body.length : ℕ) cause))

/-! ## Every file is of some kind -/

private theorem exists_fileKind_body {hdr : Bytes} (hh : ValidHeader hdr) (b : Bytes) :
    ∃ d, FileKind (hdr ++ b) d := by
  obtain ⟨rs, body, tail, e, rfl, hlog, he⟩ := exists_isLog b
  by_cases hnil : tail = []
  · subst hnil
    rw [List.append_nil]
    exact ⟨_, .clean hh hlog⟩
  · by_cases ht : Torn defaultLimits tail
    · exact ⟨_, .torn hh hlog ht⟩
    · exact ⟨_, .corrupt hh hlog he hnil ht⟩

private theorem exists_fileKind (file : Bytes) : ∃ d, FileKind file d := by
  by_cases hnil : file = []
  · subst hnil
    exact ⟨_, .created⟩
  rcases lt_or_ge file.length headerSize with hlt | hge
  · exact ⟨_, .shortHeader hnil hlt⟩
  have hlen : (file.take headerSize).length = headerSize := by
    rw [List.length_take]
    omega
  rw [← List.take_append_drop headerSize file]
  by_cases hm : (file.take headerSize).take 8 = magic
  · by_cases hv : announced (file.take headerSize) = formatVersion
    · exact exists_fileKind_body ⟨hlen, hm, hv⟩ _
    · exact ⟨_, .otherVersion hlen hm hv⟩
  · exact ⟨_, .foreign hlen hm⟩

/-! ## What OpenFile does with each kind -/

/-- A header ReadHeader refuses makes Replay refuse, with nothing applied. -/
theorem replayChunks_header {src : Chunks} {e : HeaderErr}
    (h : (readHeader (Counting.reader Chunks.reader) ⟨src, 0⟩).1 = .error e) (now : ℤ)
    (dst : Store) :
    replayChunks src now dst = some ⟨⟨0, 0, false⟩, some (.header e), dst⟩ := by
  rw [replayChunks, replay]
  generalize readHeader (Counting.reader Chunks.reader) ⟨src, 0⟩ = r at h
  obtain ⟨res, c⟩ := r
  cases h
  rfl

private theorem readHeader_short {σ : Type*} {R : IoReader σ} {I : σ → Prop} {src : σ → Bytes}
    (h : Delivers R I src) {s : σ} (hs : I s) (hne : src s ≠ [])
    (hlt : (src s).length < headerSize) : (readHeader R s).1 = .error .truncated := by
  obtain ⟨hdata, herr, -, -⟩ := readFull_short h hs hlt
  simp only [readHeader, hdata, herr, hne, if_false, false_and]

theorem readHeader_whole {σ : Type*} {R : IoReader σ} {I : σ → Prop} {src : σ → Bytes}
    (h : Delivers R I src) {s : σ} (hs : I s) {hdr b : Bytes} (hlen : hdr.length = headerSize)
    (hb : src s = hdr ++ b) :
    (readHeader R s).1 =
      if hdr.take 8 ≠ magic then .error .notAnAOF
      else if announced hdr ≠ formatVersion then .error (.unsupportedVersion (announced hdr))
      else .ok false := by
  have hle : headerSize ≤ (src s).length := by
    rw [hb, List.length_append, hlen]
    omega
  obtain ⟨hdata, herr, -, -⟩ := readFull_enough h hs hle
  rw [hb, List.take_left' hlen] at hdata
  have hne : hdr ≠ [] := List.ne_nil_of_length_pos (by rw [hlen]; decide)
  simp only [readHeader, hdata, herr, hne, false_and, if_false, announced]
  rfl

/-- What OpenFile returns and leaves, in terms of the kind of the file. -/
def Opened.Fits (o : Opened) (policy : Policy) (started now : ℤ) (dst : Store) (file : Bytes) :
    Except ReplayErr (List Record × Bytes) → Prop
  | .ok (rs, kept) => o.err = none ∧ o.log = some (.init policy started) ∧ o.file = kept ∧
      o.dst = applyAll now dst rs
  | .error e => o.err = some (.replay e) ∧ o.log = none ∧ o.file = file

theorem openFile_refused {src : Chunks} {now : ℤ} {dst : Store} {r : Replayed} {e : ReplayErr}
    (h : replayChunks src now dst = some r) (he : r.err = some e) (policy : Policy)
    (a : FileAnswers) :
    ∃ o, openFile policy a src now dst = some o ∧
      o.Fits policy a.started now dst src.rest (.error e) := by
  refine ⟨⟨none, r.result, some (.replay e), r.dst, src.rest⟩, ?_, rfl, rfl, rfl⟩
  rw [openFile, h, Option.map_some, he]

structure FileAnswers.Fine (a : FileAnswers) : Prop where
  write : a.writeErr = none
  truncate : a.truncateErr = none
  seek : a.seekErr = none

/-- Whole records, with or without a torn tail, are kept and the tail is cut off. -/
theorem openFile_kept {hdr body tail : Bytes} {rs : List Record} (hh : ValidHeader hdr)
    (hlog : IsLog rs body) {e : DecodeErr} (he : parseRecord tail = .error e)
    (hcases : tail = [] ∨ e ≠ .read (.io .eof) ∧ e.isIncomplete = true) {src : Chunks}
    (hsrc : src.rest = hdr ++ (body ++ tail)) (policy : Policy) {a : FileAnswers} (ha : a.Fine)
    (now : ℤ) (dst : Store) :
    ∃ o, openFile policy a src now dst = some o ∧
      o.Fits policy a.started now dst src.rest (.ok (rs, hdr ++ body)) := by
  obtain ⟨ps, hps, rfl, rfl⟩ := hlog.exists_recorded
  refine ⟨_, openFile_recorded hh hps he hcases hsrc policy a now dst, ?_⟩
  rw [openAt_ok ha.truncate ha.seek]
  refine ⟨rfl, rfl, ?_, rfl⟩
  rw [hsrc]
  exact truncate_recorded hh _ _

private theorem not_beginsRecord_of_error {t : Bytes} {e : DecodeErr}
    (he : parseRecord t = .error e) :
    ¬ BeginsRecord t := by
  rintro ⟨r, b, hb, x, rfl⟩
  rw [parseRecord_append hb] at he
  cases he

theorem openFile_fileKind {src : Chunks} {d : Except ReplayErr (List Record × Bytes)}
    (h : FileKind src.rest d) (policy : Policy) {a : FileAnswers} (ha : a.Fine) (now : ℤ)
    (dst : Store) :
    ∃ o, openFile policy a src now dst = some o ∧
      o.Fits policy a.started now dst src.rest d := by
  have hdel := Counting.delivers Chunks.delivers src.rest.length
  have hI : True ∧ 0 + src.rest.length = src.rest.length := ⟨trivial, Nat.zero_add _⟩
  generalize hfile : src.rest = file at h
  rw [← hfile]
  cases h with
  | created =>
    refine ⟨_, openFile_empty hfile ha.write now dst, ?_⟩
    rw [openAt_ok ha.truncate ha.seek]
    exact ⟨rfl, rfl, rfl, rfl⟩
  | shortHeader hne hlt =>
    rw [← hfile] at hne hlt
    have hread := readHeader_short hdel (s := ⟨src, 0⟩) hI hne hlt
    exact openFile_refused (replayChunks_header hread now dst) rfl policy a
  | foreign hlen hm =>
    have hread := readHeader_whole hdel (s := ⟨src, 0⟩) hI hlen hfile
    rw [if_pos hm] at hread
    exact openFile_refused (replayChunks_header hread now dst) rfl policy a
  | otherVersion hlen hm hv =>
    have hread := readHeader_whole hdel (s := ⟨src, 0⟩) hI hlen hfile
    rw [if_neg (not_not.mpr hm), if_pos hv] at hread
    exact openFile_refused (replayChunks_header hread now dst) rfl policy a
  | clean hh hlog =>
    exact openFile_kept hh hlog parseRecord_nil (.inl rfl) (by rw [hfile, List.append_nil]) policy
      ha now dst
  | torn hh hlog ht =>
    obtain ⟨e, he, heof, hinc⟩ := parseRecord_torn ht
    exact openFile_kept hh hlog he (.inr ⟨heof, hinc⟩) hfile policy ha now dst
  | corrupt hh hlog he hne ht =>
    obtain ⟨e, he', heof, hinc⟩ := parseRecord_rest hne (not_beginsRecord_of_error he)
    cases he.symm.trans he'
    have hreplay := replay_tail hh hlog he hfile now dst
    rw [replayEnd, if_neg heof, if_neg fun hi => ht (hinc.mp hi)] at hreplay
    exact openFile_refused hreplay rfl policy a

/-! ## A file is of one kind -/

theorem FileKind.records_eq {file kept : Bytes} {rs : List Record}
    (h : FileKind file (.ok (rs, kept))) : rs = (pieces file).map Prod.fst := by
  cases h with
  | created => rw [pieces_short (Nat.zero_le _), List.map_nil]
  | clean hh hlog =>
    obtain ⟨ps, hps, rfl, rfl⟩ := hlog.exists_recorded
    have hpieces := pieces_eq hh.length_eq hps parseRecord_nil
    rw [List.append_nil] at hpieces
    rw [hpieces]
  | torn hh hlog ht =>
    obtain ⟨ps, hps, rfl, rfl⟩ := hlog.exists_recorded
    obtain ⟨e, he, -⟩ := parseRecord_torn ht
    rw [pieces_eq hh.length_eq hps he]

theorem FileKind.unique {file : Bytes} {d d' : Except ReplayErr (List Record × Bytes)}
    (h : FileKind file d) (h' : FileKind file d') : d = d' := by
  rw [← Chunks.rest_whole file] at h h'
  obtain ⟨o, ho, hfits⟩ := openFile_fileKind h .always (a := ⟨0, none, none, none, 0⟩)
    ⟨rfl, rfl, rfl⟩ 0 .new
  obtain ⟨o', ho', hfits'⟩ := openFile_fileKind h' .always (a := ⟨0, none, none, none, 0⟩)
    ⟨rfl, rfl, rfl⟩ 0 .new
  cases ho.symm.trans ho'
  cases d with
  | error e =>
    cases d' with
    | error e' =>
      obtain ⟨herr, -⟩ := hfits
      obtain ⟨herr', -⟩ := hfits'
      cases herr.symm.trans herr'
      rfl
    | ok q => cases hfits.1.symm.trans hfits'.1
  | ok p =>
    cases d' with
    | error e' => cases hfits.1.symm.trans hfits'.1
    | ok q =>
      obtain ⟨rs, kept⟩ := p
      obtain ⟨rs', kept'⟩ := q
      obtain ⟨-, -, hfile, -⟩ := hfits
      obtain ⟨-, -, hfile', -⟩ := hfits'
      rw [h.records_eq, h'.records_eq, ← hfile, ← hfile']

theorem FileKind.kept {file kept : Bytes} {rs : List Record} (h : FileKind file (.ok (rs, kept))) :
    FileKind kept (.ok (rs, kept)) := by
  cases h with
  | created =>
    have hempty := FileKind.clean validHeader_encodeHeader .nil
    rwa [List.append_nil] at hempty
  | clean hh hlog => exact .clean hh hlog
  | torn hh hlog ht => exact .clean hh hlog

/-- Every file, whatever is in it and however it is read, is of exactly one kind, and with a file
that answers every call OpenFile does what the kind says: it refuses and leaves the file as it was,
or it opens the log, keeps the complete records and applies them. What it keeps is a log that the
next start keeps whole. -/
theorem open_any_file (src : Chunks) {a : FileAnswers} (ha : a.Fine) :
    ∃ d, FileKind src.rest d ∧ (∀ d', FileKind src.rest d' → d' = d) ∧
      (∀ policy now dst, ∃ o, openFile policy a src now dst = some o ∧
        o.Fits policy a.started now dst src.rest d) ∧
      ∀ rs kept, d = .ok (rs, kept) → FileKind kept (.ok (rs, kept)) := by
  obtain ⟨d, hd⟩ := exists_fileKind src.rest
  refine ⟨d, hd, fun d' hd' => hd'.unique hd, fun policy now dst => ?_, ?_⟩
  · exact openFile_fileKind hd policy ha now dst
  · rintro rs kept rfl
    exact hd.kept

/-- A crash that cut the header of a new log short: the next start refuses the file. -/
theorem open_any_file_short :
    ∃ o, openFile .always ⟨0, none, none, none, 0⟩ (.whole (encodeHeader.take 7)) 0 .new = some o ∧
      o.err = some (.replay (.header .truncated)) ∧ o.file = encodeHeader.take 7 := by
  have hrest := Chunks.rest_whole (encodeHeader.take 7)
  obtain ⟨d, -, huniq, hopen, -⟩ := open_any_file (.whole (encodeHeader.take 7))
    (a := ⟨0, none, none, none, 0⟩) ⟨rfl, rfl, rfl⟩
  have hshort : FileKind (encodeHeader.take 7) (.error (.header .truncated)) :=
    .shortHeader (by decide) (by decide)
  rw [hrest] at huniq hopen
  obtain ⟨o, ho, hfits⟩ := hopen .always 0 .new
  rw [← huniq _ hshort] at hfits
  exact ⟨o, ho, hfits.1, hfits.2.2⟩

end GoKv.Aof
