import GoKv.Lib.Tracking
import GoKv.Resp.Reader

/-! The decoder over a source that behaves as a plainer one until it fails for good: it reads the
same commands, and hands the failure on as it is. -/
namespace GoKv.Resp.Reader
open GoLib

variable {σ τ : Type*}

def map (f : σ → τ) (r : Reader σ) : Reader τ := ⟨r.br.map f, r.limits, r.buf, r.offsets⟩

/-- The result of the decoder over the plainer source, or the failure. -/
def Same {α : Type*} (proj : σ → τ) (I Bad : σ → Prop) (code : ℕ)
    (x : Except ReadErr α × Reader σ) (x₀ : Except ReadErr α × Reader τ) : Prop :=
  (∃ res r, x = (res, r) ∧ x₀ = (res, r.map proj) ∧ I r.br.rd) ∨
  (∃ r, x = (.error (.io (.transport code)), r) ∧ Bad r.br.rd)

variable {R : IoReader σ} {R₀ : IoReader τ} {proj : σ → τ} {I Bad : σ → Prop} {code : ℕ}

theorem readLine_same (h : Tracks R R₀ proj I Bad code) {r : Reader σ} (hr : I r.br.rd) :
    Same proj I Bad code (r.readLine R) ((r.map proj).readLine R₀) := by
  unfold readLine map
  rcases Bufio.readSlice_tracks h 10 hr with ha | ⟨he, hbad⟩
  · simp only [← ha.data, ← ha.err, ← ha.next]
    exact .inl ⟨_, _, rfl, rfl, ha.2⟩
  · simp only [he]
    exact .inr ⟨_, by simp [lineResult]; rfl, hbad⟩

@[simp] theorem map_buf (f : σ → τ) (r : Reader σ) : (r.map f).buf = r.buf := rfl

@[simp] theorem map_br (f : σ → τ) (r : Reader σ) : (r.map f).br = r.br.map f := rfl

@[simp] theorem map_limits (f : σ → τ) (r : Reader σ) : (r.map f).limits = r.limits := rfl

@[simp] theorem map_offsets (f : σ → τ) (r : Reader σ) : (r.map f).offsets = r.offsets := rfl

private theorem map_reset (f : σ → τ) (r : Reader σ) : (r.map f).reset = r.reset.map f := rfl

private theorem growBuf_map (r : Reader σ) (need : ℕ) :
    (r.map proj).growBuf need = (r.growBuf need).map (map proj) := by
  unfold growBuf map
  dsimp only
  split_ifs
  · rfl
  · cases r.buf.realloc (growSize r.limits r.buf.cap need) <;> rfl

private theorem br_growBuf {r r' : Reader σ} {need : ℕ} (h : r.growBuf need = some r') :
    r'.br = r.br := by
  unfold growBuf at h
  split_ifs at h
  · rw [← Option.some.inj h]
  · obtain ⟨b, -, rfl⟩ := Option.map_eq_some_iff.mp h
    rfl

private theorem readChunks_same (h : Tracks R R₀ proj I Bad code) (fuel remaining : ℕ)
    {r : Reader σ} (hr : I r.br.rd) :
    Same proj I Bad code (readChunks R fuel remaining r)
      (readChunks R₀ fuel remaining (r.map proj)) := by
  induction fuel generalizing remaining r with
  | zero => exact .inl ⟨_, _, rfl, rfl, hr⟩
  | succ fuel ih =>
    unfold readChunks
    by_cases hz : remaining = 0
    · simp only [if_pos hz]
      exact .inl ⟨_, _, rfl, rfl, hr⟩
    simp only [if_neg hz]
    simp only [map_buf, growBuf_map]
    cases hg : r.growBuf (r.buf.len +
        if maxPreallocation < remaining then maxPreallocation else remaining) with
    | none => exact .inl ⟨_, _, rfl, rfl, hr⟩
    | some r₁ =>
      have hr₁ : I r₁.br.rd := by rw [br_growBuf hg]; exact hr
      simp only [Option.map_some, map_buf]
      cases r₁.buf.upTo (r.buf.len +
          if maxPreallocation < remaining then maxPreallocation else remaining) with
      | none => exact .inl ⟨_, _, rfl, rfl, hr₁⟩
      | some b =>
        dsimp only
        rcases readFull_tracks (Bufio.tracks h)
            (if maxPreallocation < remaining then maxPreallocation else remaining) hr₁
          with ha | ⟨he, hbad⟩
        · simp only [map_br, ← ha.data, ← ha.err, ← ha.next]
          cases (readFull (Bufio.toReader R) r₁.br
              (if maxPreallocation < remaining then maxPreallocation else remaining)).err with
          | some e => exact .inl ⟨_, _, rfl, rfl, ha.2⟩
          | none => exact ih _ ha.2
        · simp only [he]
          exact .inr ⟨_, rfl, hbad⟩

private theorem endBulk_map (f : σ → τ) (r : Reader σ) (start ln : ℕ) :
    (r.map f).endBulk start ln = ((r.endBulk start ln).1, (r.endBulk start ln).2.map f) ∧
    (r.endBulk start ln).2.br = r.br := by
  unfold endBulk
  simp only [map_buf]
  cases r.buf.index (start + ln) with
  | none => exact ⟨rfl, rfl⟩
  | some c =>
    cases r.buf.index (start + ln + 1) with
    | none => exact ⟨rfl, rfl⟩
    | some d =>
      dsimp only
      split_ifs
      · exact ⟨rfl, rfl⟩
      · cases r.buf.upTo (start + ln) <;> exact ⟨rfl, rfl⟩

private theorem readPayload_same (h : Tracks R R₀ proj I Bad code) {r : Reader σ} (hr : I r.br.rd)
    (ln : ℕ) : Same proj I Bad code (r.readPayload R ln) ((r.map proj).readPayload R₀ ln) := by
  unfold readPayload
  rcases readChunks_same h (ln + 2) (ln + 2) hr with ⟨res, r₁, hx, hx₀, hi⟩ | ⟨r₁, hx, hbad⟩
  · rw [hx, hx₀]
    cases res with
    | error e => exact .inl ⟨_, _, rfl, rfl, hi⟩
    | ok =>
      obtain ⟨hmap, hbr⟩ := endBulk_map proj r₁ r.buf.len ln
      refine .inl ⟨(r₁.endBulk r.buf.len ln).1, (r₁.endBulk r.buf.len ln).2, rfl, hmap, ?_⟩
      rw [hbr]
      exact hi
  · rw [hx]
    exact .inr ⟨_, rfl, hbad⟩

private theorem readBulk_same (h : Tracks R R₀ proj I Bad code) {r : Reader σ} (hr : I r.br.rd) :
    Same proj I Bad code (r.readBulk R) ((r.map proj).readBulk R₀) := by
  unfold readBulk
  rcases readLine_same h hr with ⟨res, r₁, hx, hx₀, hi⟩ | ⟨r₁, hx, hbad⟩
  · rw [hx, hx₀]
    cases res with
    | error e => exact .inl ⟨_, _, rfl, rfl, hi⟩
    | ok line =>
      dsimp only [map_limits, map_buf]
      cases bulkLength r₁.limits r₁.buf.len line with
      | error e => exact .inl ⟨_, _, rfl, rfl, hi⟩
      | ok ln => exact readPayload_same h hi ln
  · rw [hx]
    exact .inr ⟨_, rfl, hbad⟩

private theorem readBulks_same (h : Tracks R R₀ proj I Bad code) (n : ℕ) {r : Reader σ}
    (hr : I r.br.rd) : Same proj I Bad code (readBulks R n r) (readBulks R₀ n (r.map proj)) := by
  induction n generalizing r with
  | zero => exact .inl ⟨_, _, rfl, rfl, hr⟩
  | succ n ih =>
    unfold readBulks
    rcases readBulk_same h hr with ⟨res, r₁, hx, hx₀, hi⟩ | ⟨r₁, hx, hbad⟩
    · rw [hx, hx₀]
      cases res with
      | error e => exact .inl ⟨_, _, rfl, rfl, hi⟩
      | ok => exact ih hi
    · rw [hx]
      exact .inr ⟨_, rfl, hbad⟩

theorem readCommand_same (h : Tracks R R₀ proj I Bad code) {r : Reader σ} (hr : I r.br.rd) :
    Same proj I Bad code (r.readCommand R) ((r.map proj).readCommand R₀) := by
  unfold readCommand
  rcases readLine_same h hr with ⟨res, r₁, hx, hx₀, hi⟩ | ⟨r₁, hx, hbad⟩
  · rw [hx, hx₀]
    cases res with
    | error e => exact .inl ⟨_, _, rfl, rfl, hi⟩
    | ok line =>
      dsimp only [map_limits]
      cases arrayLength r₁.limits line with
      | error e => exact .inl ⟨_, _, rfl, rfl, hi⟩
      | ok n =>
        rcases readBulks_same h n (r := r₁.reset) hi with
          ⟨res, r₂, hx, hx₀, hi⟩ | ⟨r₂, hx, hbad⟩
        · dsimp only
          rw [map_reset, hx, hx₀]
          cases res with
          | error e => exact .inl ⟨_, _, rfl, rfl, hi⟩
          | ok =>
            dsimp only [map_offsets, map_buf]
            cases r₂.offsets.mapM fun o => r₂.buf.sub o.1 o.2 with
            | none => exact .inl ⟨_, _, rfl, rfl, hi⟩
            | some args => exact .inl ⟨_, _, rfl, rfl, hi⟩
        · dsimp only
          rw [hx]
          exact .inr ⟨_, rfl, hbad⟩
  · rw [hx]
    exact .inr ⟨_, rfl, hbad⟩

end GoKv.Resp.Reader
