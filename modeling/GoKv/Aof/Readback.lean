import GoKv.Aof.Recovery

/-! Which records Replay reads back. Replay decodes under the default limits, whatever limits the
records' commands were accepted under, so it refuses a log exactly when a record is too large. -/
namespace GoKv.Aof
open GoLib GoKv.Resp

theorem IsLog.append {rs ts : List Record} {b c : Bytes} (hb : IsLog rs b) (hc : IsLog ts c) :
    IsLog (rs ++ ts) (b ++ c) := by
  induction hb with
  | nil => exact hc
  | cons hr _ ih =>
    rw [List.append_assoc]
    exact .cons hr ih

theorem parseRecord_oversize {r : Record} (h : ¬ r.Fits) (x : Bytes) :
    ∃ msg, parseRecord (r.bytes ++ x) = .error (.read (protoErr msg)) := by
  rcases parseFrame_writeCommand defaultLimits r.parts x with hf | ⟨msg, hmsg⟩
  · exact absurd (fitsFrame_of_isFrame hf) h
  · exact ⟨msg, by simp only [parseRecord, Record.bytes, hmsg]⟩

/-- A record that does not fit is reported as corruption where it starts. -/
theorem replay_oversize {hdr : Bytes} (hh : ValidHeader hdr) {rs : List Record}
    (hw : ∀ r ∈ rs, r.Writable) (hf : ¬ ∀ r ∈ rs, r.Fits) {recovered : List Record} {body : Bytes}
    (hlog : IsLog recovered body) {src : Chunks} (hsrc : src.rest = hdr ++ (body ++ encodes rs))
    (now : ℤ) (dst : Store) :
    ∃ out offset msg, replayChunks src now dst = some out ∧
      out.err = some (.corruption offset (.read (protoErr msg))) := by
  induction rs generalizing recovered body with
  | nil => exact absurd (by simp) hf
  | cons r rs ih =>
    obtain ⟨hr, hrs⟩ := List.forall_mem_cons.mp hw
    by_cases hfit : r.Fits
    · have hrest : ¬ ∀ r ∈ rs, r.Fits := fun h => hf (List.forall_mem_cons.mpr ⟨hfit, h⟩)
      refine ih hrs hrest (hlog.append (.cons (isRecord_bytes hr hfit) .nil)) ?_
      simpa using hsrc
    · obtain ⟨msg, hmsg⟩ := parseRecord_oversize hfit (encodes rs)
      have hreplay := replay_tail hh hlog hmsg hsrc now dst
      exact ⟨_, _, msg, hreplay, rfl⟩

/-- Replay accepts a log exactly when every record of it fits. -/
theorem replay_ok_iff {hdr : Bytes} (hh : ValidHeader hdr) {rs : List Record}
    (hw : ∀ r ∈ rs, r.Writable) {recovered : List Record} {body : Bytes}
    (hlog : IsLog recovered body) {src : Chunks} (hsrc : src.rest = hdr ++ (body ++ encodes rs))
    (now : ℤ) (dst : Store) :
    (∃ out, replayChunks src now dst = some out ∧ out.err = none) ↔ ∀ r ∈ rs, r.Fits := by
  constructor
  · rintro ⟨out, hout, herr⟩
    by_contra hf
    obtain ⟨out', offset, msg, hout', herr'⟩ := replay_oversize hh hw hf hlog hsrc now dst
    rw [hout] at hout'
    obtain rfl := Option.some.inj hout'
    rw [herr] at herr'
    cases herr'
  · intro hf
    have hall := hlog.append (isLog_encodes fun r hr => ⟨hw r hr, hf r hr⟩)
    have hreplay := replay_tail hh hall parseRecord_nil (by simpa using hsrc) now dst
    exact ⟨_, hreplay, rfl⟩

/-! ## Sizes -/

def expirySize : Option Int64 → ℕ
  | none => 0
  | some ms => optPXAT.length + (formatInt ms.toInt).length

def SetFits (key value : Bytes) (expireAtMS : Option Int64) : Prop :=
  key.length ≤ defaultLimits.maxBulkLength ∧ value.length ≤ defaultLimits.maxBulkLength ∧
    (verbSet.length + key.length + value.length + expirySize expireAtMS : ℕ) ≤
      defaultLimits.maxCommandBytes

def DelFits (keys : List Bytes) : Prop :=
  (keys.length + 1 : ℕ) ≤ defaultLimits.maxArrayElements ∧
    (∀ k ∈ keys, k.length ≤ defaultLimits.maxBulkLength) ∧
    (verbDel.length + keys.flatten.length : ℕ) ≤ defaultLimits.maxCommandBytes

private theorem length_formatInt_le (n : Int64) : (formatInt n.toInt).length ≤ 20 := by
  have hlo := Int64.le_toInt n
  have hhi := Int64.toInt_lt n
  have hlen := length_natText_le n.toInt.natAbs 19 (by omega) (by omega)
  unfold formatInt
  split_ifs
  · rw [List.length_cons]; omega
  · omega

theorem fits_iff (r : Record) :
    r.Fits ↔ r.parts.length ≤ defaultLimits.maxArrayElements ∧
      (∀ p ∈ r.parts, p.length ≤ defaultLimits.maxBulkLength) ∧
      r.parts.flatten.length ≤ defaultLimits.maxCommandBytes := by
  have hbulk : defaultLimits.maxBulkLength = 67108864 := rfl
  have harr : defaultLimits.maxArrayElements = 1024 := rfl
  constructor
  · intro h
    exact ⟨h.count, fun p hp => (h.each p hp).1, h.total (by decide)⟩
  · rintro ⟨hcount, heach, htotal⟩
    have hne : r.parts ≠ [] := by rcases r with ⟨_, _, _ | _⟩ | _ <;> simp [Record.parts]
    refine ⟨hne, hcount, by omega, fun p hp => ⟨heach p hp, ?_⟩, fun _ => htotal⟩
    have := heach p hp
    omega

theorem fits_set_iff (key value : Bytes) (ms : Option Int64) :
    (Record.set key value ms).Fits ↔ SetFits key value ms := by
  have hverb : verbSet.length = 3 := rfl
  have hopt : optPXAT.length = 4 := rfl
  have hbulk : defaultLimits.maxBulkLength = 67108864 := rfl
  have harr : defaultLimits.maxArrayElements = 1024 := rfl
  rw [fits_iff, SetFits]
  cases ms with
  | none =>
    simp only [Record.parts, List.forall_mem_cons, List.flatten_cons, List.flatten_nil,
      List.length_append, List.length_cons, List.length_nil, expirySize]
    constructor
    · rintro ⟨-, ⟨-, hk, hv, -⟩, ht⟩
      exact ⟨hk, hv, by omega⟩
    · rintro ⟨hk, hv, ht⟩
      exact ⟨by omega, ⟨by omega, hk, hv, List.forall_mem_nil _⟩, by omega⟩
  | some ms =>
    have hms := length_formatInt_le ms
    simp only [Record.parts, List.forall_mem_cons, List.flatten_cons, List.flatten_nil,
      List.length_append, List.length_cons, List.length_nil, expirySize]
    constructor
    · rintro ⟨-, ⟨-, hk, hv, -⟩, ht⟩
      exact ⟨hk, hv, by omega⟩
    · rintro ⟨hk, hv, ht⟩
      exact ⟨by omega, ⟨by omega, hk, hv, by omega, by omega, List.forall_mem_nil _⟩, by omega⟩

theorem fits_del_iff (keys : List Bytes) : (Record.del keys).Fits ↔ DelFits keys := by
  have hverb : verbDel.length = 3 := rfl
  have hbulk : defaultLimits.maxBulkLength = 67108864 := rfl
  rw [fits_iff, DelFits]
  simp only [Record.parts, List.forall_mem_cons, List.flatten_cons, List.length_append,
    List.length_cons]
  constructor
  · rintro ⟨hc, ⟨-, hk⟩, ht⟩
    exact ⟨hc, hk, ht⟩
  · rintro ⟨hc, hk, ht⟩
    exact ⟨hc, ⟨by omega, hk⟩, ht⟩

end GoKv.Aof
