import GoKv.Resp.Reader

/-! ReadCommand moment by moment: the same code cut into steps at every point where it reads from
the stream or assigns the buffer, so that what holds while a call is under way can be said. -/
namespace GoKv.Resp
open GoLib

/-- Where a call is: before the array header, with `n` bulk strings to read, at the head of the
payload loop, with the room made and the chunk at `pos` to be read, and returned, by refusing
the array header or after it. -/
inductive Point where
  | header
  | bulks (n : ℕ)
  | chunks (n start ln remaining : ℕ)
  | fill (n start ln remaining pos chunk : ℕ)
  | refused (e : ReadErr)
  | done (res : Except ReadErr (List Bytes))

namespace Point

def accepted : Point → Bool
  | header | refused _ => false
  | _ => true

def returned : Point → Option (Except ReadErr (List Bytes))
  | refused e => some (.error e)
  | done res => some res
  | _ => none

def orFail (p : Point) : Except ReadErr Unit → Point
  | .ok () => p
  | .error e => done (.error e)

end Point

/-- A moment of a call. `taken` are the bytes of the frame taken from the stream so far, which
the code does not keep. -/
structure Moment (σ : Type*) where
  point : Point
  reader : Reader σ
  taken : Bytes

namespace Moment

variable {σ : Type*}

def start (s : σ) (lim : Limits) : Moment σ := ⟨.header, .new s lim, []⟩

def goto (m : Moment σ) (p : Point) : Moment σ := { m with point := p }

def readLine (R : IoReader σ) (m : Moment σ) : Except ReadErr Bytes × Moment σ :=
  let g := m.reader.br.readSlice R 10
  (lineResult g.data g.err,
    { m with reader := { m.reader with br := g.next }, taken := m.taken ++ g.data })

/-- The array header, and the buffer made ready for its frame. -/
def readHeader (R : IoReader σ) (m : Moment σ) : Moment σ :=
  match m.readLine R with
  | (.error e, m) => m.goto (.refused e)
  | (.ok line, m) =>
    match arrayLength m.reader.limits line with
    | .error e => m.goto (.refused e)
    | .ok n => { m with point := .bulks n, reader := m.reader.reset }

def readBulkHeader (R : IoReader σ) (n : ℕ) (m : Moment σ) : Moment σ :=
  match m.readLine R with
  | (.error e, m) => m.goto (.done (.error (bulkReadErr e)))
  | (.ok line, m) =>
    match bulkLength m.reader.limits m.reader.buf.len line with
    | .error e => m.goto (.done (.error e))
    | .ok ln => m.goto (.chunks n m.reader.buf.len ln (ln + 2))

def grow (n start ln remaining : ℕ) (m : Moment σ) : Moment σ :=
  let chunk := if maxPreallocation < remaining then maxPreallocation else remaining
  let pos := m.reader.buf.len
  match m.reader.growBuf (pos + chunk) with
  | none => m.goto (.done (.error .panic))
  | some r =>
    match r.buf.upTo (pos + chunk) with
    | none => ⟨.done (.error .panic), r, m.taken⟩
    | some b => ⟨.fill n start ln remaining pos chunk, { r with buf := b }, m.taken⟩

def fill (R : IoReader σ) (n start ln remaining pos chunk : ℕ) (m : Moment σ) : Moment σ :=
  let g := readFull (Bufio.toReader R) m.reader.br chunk
  let r := { m.reader with buf := m.reader.buf.store pos g.data, br := g.next }
  match g.err with
  | some e => ⟨.done (.error (bulkReadErr (.io e))), r, m.taken ++ g.data⟩
  | none => ⟨.chunks n start ln (remaining - chunk), r, m.taken ++ g.data⟩

def endBulk (n start ln : ℕ) (m : Moment σ) : Moment σ :=
  let res := m.reader.endBulk start ln
  ⟨Point.orFail (.bulks n) res.1, res.2, m.taken⟩

def endCommand (m : Moment σ) : Moment σ :=
  match m.reader.offsets.mapM fun o => m.reader.buf.sub o.1 o.2 with
  | none => m.goto (.done (.error .panic))
  | some args => m.goto (.done (.ok args))

/-- One step. A call that returned a frame is followed by the next one; after an error the
reader is not used again. -/
def step (R : IoReader σ) (m : Moment σ) : Moment σ :=
  match m.point with
  | .header => m.readHeader R
  | .bulks 0 => m.endCommand
  | .bulks (n + 1) => m.readBulkHeader R n
  | .chunks n start ln remaining =>
    if remaining = 0 then m.endBulk n start ln else m.grow n start ln remaining
  | .fill n start ln remaining pos chunk => m.fill R n start ln remaining pos chunk
  | .done (.ok _) => ⟨.header, m.reader, []⟩
  | .refused _ | .done (.error _) => m

variable {R : IoReader σ}

theorem step_chunks {n start ln remaining : ℕ} {r : Reader σ} {t : Bytes} (h : remaining ≠ 0) :
    step R ⟨.chunks n start ln remaining, r, t⟩ =
      grow n start ln remaining ⟨.chunks n start ln remaining, r, t⟩ := if_neg h

/-! ## The steps are those of ReadCommand -/

def Reaches (R : IoReader σ) (m m' : Moment σ) : Prop := ∃ k, (step R)^[k] m = m'

theorem Reaches.refl (m : Moment σ) : Reaches R m m := ⟨0, rfl⟩

theorem Reaches.trans {m₁ m₂ m₃ : Moment σ} (h₁ : Reaches R m₁ m₂) (h₂ : Reaches R m₂ m₃) :
    Reaches R m₁ m₃ := by
  obtain ⟨j, rfl⟩ := h₁
  obtain ⟨k, rfl⟩ := h₂
  exact ⟨k + j, Function.iterate_add_apply _ _ _ _⟩

theorem reaches_step (m : Moment σ) : Reaches R m (step R m) := ⟨1, rfl⟩

theorem readLine_eq (m : Moment σ) :
    m.readLine R = ((m.reader.readLine R).1, { m with
      reader := (m.reader.readLine R).2
      taken := m.taken ++ (m.reader.br.readSlice R 10).data }) := rfl

private theorem reaches_readChunks (n start ln : ℕ) (fuel : ℕ) {remaining : ℕ} (r : Reader σ)
    (t : Bytes) (hf : remaining ≤ fuel) :
    ∃ t', Reaches R ⟨.chunks n start ln remaining, r, t⟩
      ⟨Point.orFail (.chunks n start ln 0) (Reader.readChunks R fuel remaining r).1,
        (Reader.readChunks R fuel remaining r).2, t'⟩ := by
  induction fuel generalizing remaining r t with
  | zero =>
    obtain rfl : remaining = 0 := Nat.le_zero.mp hf
    exact ⟨t, .refl _⟩
  | succ fuel ih =>
    by_cases hz : remaining = 0
    · subst hz
      refine ⟨t, ?_⟩
      rw [Reader.readChunks, if_pos rfl]
      exact .refl _
    · have hstep := reaches_step (R := R) ⟨.chunks n start ln remaining, r, t⟩
      rw [step_chunks hz] at hstep
      rw [Reader.readChunks, if_neg hz]
      unfold grow at hstep
      generalize hc : (if maxPreallocation < remaining then maxPreallocation else remaining) = chunk
        at hstep ⊢
      cases hg : r.growBuf (r.buf.len + chunk) with
      | none =>
        simp only [hg] at hstep ⊢
        exact ⟨t, hstep⟩
      | some r' =>
        simp only [hg] at hstep ⊢
        cases hu : r'.buf.upTo (r.buf.len + chunk) with
        | none =>
          simp only [hu] at hstep ⊢
          exact ⟨t, hstep⟩
        | some b =>
          simp only [hu] at hstep ⊢
          have hfill := hstep.trans (reaches_step _)
          change Reaches R _ (fill R n start ln remaining r.buf.len chunk _) at hfill
          unfold fill at hfill
          cases he : (readFull (Bufio.toReader R) r'.br chunk).err with
          | some e =>
            simp only [he] at hfill ⊢
            exact ⟨_, hfill⟩
          | none =>
            simp only [he] at hfill ⊢
            have hpos : 0 < maxPreallocation := by decide
            have hle : remaining - chunk ≤ fuel := by
              split_ifs at hc <;> omega
            obtain ⟨t', hrest⟩ := ih _ _ hle
            exact ⟨t', hfill.trans hrest⟩

private theorem reaches_readBulk (n : ℕ) (r : Reader σ) (t : Bytes) :
    ∃ t', Reaches R ⟨.bulks (n + 1), r, t⟩
      ⟨Point.orFail (.bulks n) (r.readBulk R).1, (r.readBulk R).2, t'⟩ := by
  have hstep := reaches_step (R := R) ⟨.bulks (n + 1), r, t⟩
  change Reaches R _ (readBulkHeader R n _) at hstep
  unfold readBulkHeader at hstep
  rw [readLine_eq] at hstep
  unfold Reader.readBulk
  rcases hline : r.readLine R with ⟨line, r₁⟩
  simp only [hline] at hstep
  cases line with
  | error e => exact ⟨_, hstep⟩
  | ok line =>
    dsimp only at hstep ⊢
    cases hlen : bulkLength r₁.limits r₁.buf.len line with
    | error e =>
      simp only [hlen] at hstep ⊢
      exact ⟨_, hstep⟩
    | ok ln =>
      simp only [hlen] at hstep ⊢
      obtain ⟨t', hchunks⟩ := reaches_readChunks (R := R) n r₁.buf.len ln (ln + 2) r₁
        (t ++ (r.br.readSlice R 10).data) le_rfl
      have hload := hstep.trans hchunks
      unfold Reader.readPayload
      rcases hres : Reader.readChunks R (ln + 2) (ln + 2) r₁ with ⟨res, r₂⟩
      rw [hres] at hload
      cases res with
      | error e => exact ⟨t', hload⟩
      | ok _ => exact ⟨t', hload.trans (reaches_step _)⟩

private theorem reaches_readBulks (n : ℕ) (r : Reader σ) (t : Bytes) :
    ∃ t', Reaches R ⟨.bulks n, r, t⟩
      ⟨Point.orFail (.bulks 0) (Reader.readBulks R n r).1, (Reader.readBulks R n r).2, t'⟩ := by
  induction n generalizing r t with
  | zero => exact ⟨t, .refl _⟩
  | succ n ih =>
    obtain ⟨t₁, hbulk⟩ := reaches_readBulk (R := R) n r t
    unfold Reader.readBulks
    rcases hres : r.readBulk R with ⟨res, r₁⟩
    rw [hres] at hbulk
    cases res with
    | error e => exact ⟨t₁, hbulk⟩
    | ok _ =>
      obtain ⟨t', hrest⟩ := ih r₁ t₁
      exact ⟨t', hbulk.trans hrest⟩

/-- The steps lead from the start of a call to its return, with what ReadCommand returns and the
reader it leaves. -/
theorem reaches_readCommand (r : Reader σ) :
    ∃ p t, Reaches R ⟨.header, r, []⟩ ⟨p, (r.readCommand R).2, t⟩ ∧
      p.returned = some (r.readCommand R).1 := by
  have hstep := reaches_step (R := R) ⟨.header, r, []⟩
  change Reaches R _ (readHeader R _) at hstep
  unfold readHeader at hstep
  rw [readLine_eq] at hstep
  unfold Reader.readCommand
  rcases hline : r.readLine R with ⟨line, r₁⟩
  simp only [hline] at hstep
  cases line with
  | error e => exact ⟨_, _, hstep, rfl⟩
  | ok line =>
    dsimp only at hstep ⊢
    cases hlen : arrayLength r₁.limits line with
    | error e =>
      simp only [hlen] at hstep ⊢
      exact ⟨_, _, hstep, rfl⟩
    | ok n =>
      simp only [hlen] at hstep ⊢
      obtain ⟨t', hbulks⟩ := reaches_readBulks (R := R) n r₁.reset
        ([] ++ (r.br.readSlice R 10).data)
      have hload := hstep.trans hbulks
      rcases hres : Reader.readBulks R n r₁.reset with ⟨res, r₂⟩
      rw [hres] at hload
      cases res with
      | error e => exact ⟨_, _, hload, rfl⟩
      | ok _ =>
        have hend := hload.trans (reaches_step _)
        change Reaches R _ (endCommand _) at hend
        unfold endCommand at hend
        cases hargs : r₂.offsets.mapM fun o => r₂.buf.sub o.1 o.2 with
        | none =>
          simp only [hargs] at hend ⊢
          exact ⟨_, _, hend, rfl⟩
        | some args =>
          simp only [hargs] at hend ⊢
          exact ⟨_, _, hend, rfl⟩

end Moment

end GoKv.Resp
