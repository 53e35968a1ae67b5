import GoKv.Resp.Growth

/-! The decode buffer while a connection is idle. An oversized buffer is released when the next
array header has been accepted, so it is still held while that header is awaited. -/
namespace GoKv.Resp
open GoLib

variable {σ : Type*} {R : IoReader σ} {lim : Limits}

/-- A chunk that needs room up to `need` leaves a small buffer small: it fits, or the array it
moves to is small. -/
def KeepsSmall (lim : Limits) (capacity need : ℕ) : Prop :=
  need ≤ capacity ∨ need ≤ maxRetainedBuffer ∧
    (2 * capacity ≤ maxRetainedBuffer ∨
      0 < lim.maxCommandBytes ∧ lim.maxCommandBytes ≤ maxRetainedBuffer)

private theorem grownCap_le_iff {capacity need : ℕ} :
    Reader.grownCap lim capacity need ≤ maxRetainedBuffer ↔
      capacity ≤ maxRetainedBuffer ∧ KeepsSmall lim capacity need := by
  unfold Reader.grownCap KeepsSmall
  by_cases hroom : need ≤ capacity
  · rw [if_pos hroom]
    exact ⟨fun h => ⟨h, .inl hroom⟩, And.left⟩
  · rw [if_neg hroom]
    unfold Reader.growSize
    generalize maxRetainedBuffer = most
    extract_lets size
    simp only [size]
    split_ifs <;> omega

namespace Moment

/-- ReadCommand is about to read from the source, with no byte of the next frame received. -/
def Waiting (m : Moment σ) : Prop :=
  m.point = .header ∧ m.reader.br.buf = [] ∧ m.reader.br.err = none

/-- If the next step makes room in a small buffer, the buffer stays small. -/
def Kept (m : Moment σ) : Prop :=
  match m.point with
  | .chunks _ _ _ remaining => remaining = 0 ∨
      KeepsSmall m.reader.limits m.reader.buf.cap
        (m.reader.buf.len + min remaining maxPreallocation)
  | _ => True

theorem cap_step {m : Moment σ} (hm : m.point ≠ .header) :
    (step R m).reader.buf.cap = m.reader.buf.cap ∧ m.Kept ∨
      ∃ n start ln remaining, m.point = .chunks n start ln remaining ∧ remaining ≠ 0 ∧
        (step R m).reader.buf.cap = Reader.grownCap m.reader.limits m.reader.buf.cap
          (m.reader.buf.len + min remaining maxPreallocation) := by
  obtain ⟨p, r, t⟩ := m
  cases p with
  | header => exact absurd rfl hm
  | bulks n =>
    refine .inl ⟨?_, trivial⟩
    cases n with
    | zero =>
      change (endCommand _).reader.buf.cap = _
      unfold endCommand
      split <;> rfl
    | succ n =>
      change (readBulkHeader R n _).reader.buf.cap = _
      unfold readBulkHeader readLine
      dsimp only
      cases lineResult (r.br.readSlice R 10).data (r.br.readSlice R 10).err with
      | error e => rfl
      | ok line =>
        dsimp only
        cases bulkLength r.limits r.buf.len line <;> rfl
  | chunks n start ln remaining =>
    by_cases hz : remaining = 0
    · subst hz
      exact .inl ⟨(r.endBulk_frame start ln).1, .inl rfl⟩
    · refine .inr ⟨n, start, ln, remaining, rfl, hz, ?_⟩
      obtain ⟨b, b', hgrow, -, -, hcap⟩ :=
        grow_eq n start ln remaining ⟨.chunks n start ln remaining, r, t⟩
      rw [step_chunks hz, hgrow]
      exact hcap
  | fill n start ln remaining pos chunk =>
    refine .inl ⟨?_, trivial⟩
    change (fill R n start ln remaining pos chunk _).reader.buf.cap = _
    unfold fill
    dsimp only
    split <;> exact Slice.cap_store _ _ _
  | refused e => exact .inl ⟨rfl, trivial⟩
  | done res =>
    refine .inl ⟨?_, trivial⟩
    cases res <;> rfl

private theorem cap_step_le_iff {m : Moment σ} (hm : m.point ≠ .header) :
    (step R m).reader.buf.cap ≤ maxRetainedBuffer ↔
      m.reader.buf.cap ≤ maxRetainedBuffer ∧ m.Kept := by
  rcases cap_step (R := R) hm with ⟨hcap, hkept⟩ | ⟨n, start, ln, remaining, hpoint, hz, hcap⟩
  · rw [hcap]
    exact (and_iff_left hkept).symm
  · rw [hcap, grownCap_le_iff, Kept, hpoint]
    exact and_congr_right fun _ => (or_iff_right hz).symm

theorem header_step {m : Moment σ} (hm : m.point = .header) :
    (∃ e, (step R m).point = .refused e) ∨
      (step R m).reader.buf.cap ≤ maxRetainedBuffer := by
  obtain ⟨p, r, t⟩ := m
  obtain rfl : p = .header := hm
  change (∃ e, (readHeader R _).point = .refused e) ∨ (readHeader R _).reader.buf.cap ≤ _
  unfold readHeader readLine
  dsimp only
  cases lineResult (r.br.readSlice R 10).data (r.br.readSlice R 10).err with
  | error e => exact .inl ⟨e, rfl⟩
  | ok line =>
    dsimp only
    cases arrayLength r.limits line with
    | error e => exact .inl ⟨e, rfl⟩
    | ok n => exact .inr (Reader.cap_reset_le _).1

/-- The steps of the call under way, or of the call before when a new one begins, all left a
small buffer small. -/
def CallKept (R : IoReader σ) (m : Moment σ) (j : ℕ) : Prop :=
  ∀ i < j, (∀ l, i < l → l < j → ((step R)^[l] m).point ≠ .header) → ((step R)^[i] m).Kept

private theorem callKept_succ {m : Moment σ} {j : ℕ} (hj : ((step R)^[j] m).point ≠ .header) :
    CallKept R m (j + 1) ↔ CallKept R m j ∧ ((step R)^[j] m).Kept := by
  constructor
  · intro h
    refine ⟨fun i hi hno => h i (by omega) fun l hil hl => ?_, h j (by omega) fun l hjl hl => ?_⟩
    · rcases Nat.lt_succ_iff_lt_or_eq.mp hl with hlt | rfl
      · exact hno l hil hlt
      · exact hj
    · omega
  · rintro ⟨h, hkept⟩ i hi hno
    rcases Nat.lt_succ_iff_lt_or_eq.mp hi with hlt | rfl
    · exact h i hlt fun l hil hl => hno l hil (by omega)
    · exact hkept

/-- Right after a header only that header's step counts, and it makes no room. -/
theorem callKept_header {m : Moment σ} {j : ℕ} (hj : ((step R)^[j] m).point = .header) :
    CallKept R m (j + 1) := by
  intro i hi hno
  rcases Nat.lt_succ_iff_lt_or_eq.mp hi with hlt | rfl
  · exact absurd hj (hno j hlt (by omega))
  · unfold Kept
    rw [hj]
    trivial

/-- Unless a header was refused, the buffer is small exactly when the call kept it so. -/
theorem cap_le_iff_callKept (s : σ) (lim : Limits) (j : ℕ)
    (hj : ∀ e, ((step R)^[j] (start s lim)).point ≠ .refused e) :
    ((step R)^[j] (start s lim)).reader.buf.cap ≤ maxRetainedBuffer ↔
      CallKept R (start s lim) j := by
  induction j with
  | zero => exact iff_of_true (Nat.zero_le _) (fun i hi => absurd hi (Nat.not_lt_zero i))
  | succ j ih =>
    rw [Function.iterate_succ_apply'] at hj ⊢
    by_cases hh : ((step R)^[j] (start s lim)).point = .header
    · rcases header_step (R := R) hh with ⟨e, he⟩ | hcap
      · exact absurd he (hj e)
      · exact iff_of_true hcap (callKept_header hh)
    · have hprev : ∀ e, ((step R)^[j] (start s lim)).point ≠ .refused e := by
        intro e he
        have hstay : step R ((step R)^[j] (start s lim)) = (step R)^[j] (start s lim) := by
          rw [step, he]
        rw [hstay] at hj
        exact hj e he
      rw [cap_step_le_iff hh, callKept_succ hh, ih hprev]

/-- In every run, on any source and with any limits, the buffer held whenever ReadCommand waits
for the first byte of a frame is small exactly when the growth steps of the call before each
wait kept it small. -/
theorem idle_buffer_iff (R : IoReader σ) (s : σ) (lim : Limits) :
    (∀ j, ((step R)^[j] (start s lim)).Waiting →
      ((step R)^[j] (start s lim)).reader.buf.cap ≤ maxRetainedBuffer) ↔
    ∀ j, ((step R)^[j] (start s lim)).Waiting → CallKept R (start s lim) j := by
  refine forall_congr' fun j => forall_congr' fun hwait => ?_
  apply cap_le_iff_callKept
  intro e he
  rw [hwait.1] at he
  cases he

end Moment

/-! ## One large request -/

/-- A request on its own is followed by a wait, with its payloads still in the buffer. -/
theorem waiting_after_request {I : σ → Prop} {src : σ → Bytes} (h : Delivers R I src) {s : σ}
    (hs : I s) {args : List Bytes} (hfits : FitsFrame lim args)
    (hsrc : src s = writeCommand args) :
    ∃ j, ((Moment.step R)^[j] (.start s lim)).Waiting ∧
      ((Moment.step R)^[j] (.start s lim)).reader.buf.data = args.flatten := by
  obtain ⟨r, hres, hready, hrest⟩ := Reader.readCommand_written h hs hfits hsrc
  obtain ⟨p, t, ⟨k, hk⟩, hp⟩ := Moment.reaches_readCommand (R := R) (.new s lim)
  rw [hres] at hk hp
  cases p with
  | done res =>
    obtain rfl : res = .ok args := Option.some.inj hp
    have hinv := (Inv.start s lim).iterate (R := R) k
    rw [Moment.start, hk] at hinv
    refine ⟨k + 1, ?_⟩
    rw [Function.iterate_succ_apply', Moment.start, hk]
    exact ⟨⟨rfl, (List.append_eq_nil_iff.mp hrest).1, hready.2.2⟩, hinv.sound.isFrame.2⟩
  | _ => cases hp

/-- A request with one argument of a mebibyte and a byte. -/
def bigRequest : List Bytes := [List.replicate (2 ^ 20 + 1) 0]

/-- After one large request the decoder waits for the next one with the large buffer held. -/
theorem idle_buffer_held :
    ∃ j, ((Moment.step Chunks.reader)^[j]
        (.start (.whole (writeCommand bigRequest)) defaultLimits)).Waiting ∧
      maxRetainedBuffer < ((Moment.step Chunks.reader)^[j]
        (.start (.whole (writeCommand bigRequest)) defaultLimits)).reader.buf.cap := by
  have hlen : bigRequest.flatten.length = 2 ^ 20 + 1 := by
    rw [bigRequest, List.flatten_singleton, List.length_replicate]
  have heach : ∀ p ∈ bigRequest, p.length = 2 ^ 20 + 1 := by
    intro p hp
    rw [List.mem_singleton.mp hp, List.length_replicate]
  have hfits : FitsFrame defaultLimits bigRequest := by
    refine ⟨List.cons_ne_nil _ _, by decide, by decide, fun p hp => ?_, fun _ => ?_⟩
    · rw [heach p hp]
      decide
    · rw [hlen]
      decide
  obtain ⟨j, hwait, hdata⟩ := waiting_after_request Chunks.delivers trivial hfits
    (Chunks.rest_whole _)
  refine ⟨j, hwait, ?_⟩
  have hcap := (((Moment.step Chunks.reader)^[j]
    (.start (.whole (writeCommand bigRequest)) defaultLimits)).reader.buf).len_le_cap
  rw [← Slice.length_data, hdata, hlen] at hcap
  exact hcap

end GoKv.Resp
