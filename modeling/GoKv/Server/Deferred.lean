import GoKv.Resp.Decoder
import GoKv.Resp.Tracking
import GoKv.Server.Conn

/-! Holding replies back until the reader would block is not observable: nothing is held back
while the handler waits for the client, the client receives the encoded answers in order, and
after a failed write nothing more is sent. -/
namespace GoKv.Wire
open GoLib Resp Command

universe u

/-! ## Traces -/

/-- Whenever the handler reads from the connection, every answer so far has been sent. -/
def ReadsFlushed (trace : List ConnEvent) : Prop :=
  ∀ pre pending post, trace = pre ++ .read pending :: post →
    pending = 0 ∧ delivered pre = expected pre

/-- After a failure nothing is handed to conn.Write. -/
def StopsAtFailure (trace : List ConnEvent) : Prop :=
  ∀ pre e post, trace = pre ++ e :: post → e.failed = true → ∀ x ∈ post, x.isWrite = false

def Unfailed (trace : List ConnEvent) : Prop := ∀ e ∈ trace, e.failed = false

instance (trace : List ConnEvent) : Decidable (Unfailed trace) :=
  inferInstanceAs (Decidable (∀ e ∈ trace, e.failed = false))

theorem delivered_append (t t' : List ConnEvent) :
    delivered (t ++ t') = delivered t ++ delivered t' := List.flatMap_append

theorem expected_append (t t' : List ConnEvent) :
    expected (t ++ t') = expected t ++ expected t' := List.flatMap_append

theorem answers_append (t t' : List ConnEvent) : answers (t ++ t') = answers t ++ answers t' :=
  List.filter_append ..

theorem expected_answers (t : List ConnEvent) : expected (answers t) = expected t := by
  induction t with
  | nil => rfl
  | cons e t ih =>
    rw [answers, List.filter_cons]
    cases e <;> simp_all [ConnEvent.isAnswer, expected, answers, ConnEvent.answer]

theorem snoc_eq_append_cons {t pre post : List ConnEvent} {x e : ConnEvent}
    (h : t ++ [x] = pre ++ e :: post) :
    (t = pre ∧ x = e ∧ post = []) ∨ ∃ post', post = post' ++ [x] ∧ t = pre ++ e :: post' := by
  rcases List.eq_nil_or_concat post with rfl | ⟨post', y, rfl⟩
  · obtain ⟨rfl, hx⟩ := List.append_inj' h rfl
    exact .inl ⟨rfl, by simpa using hx, rfl⟩
  · rw [List.concat_eq_append, ← List.cons_append, ← List.append_assoc] at h
    obtain ⟨rfl, hx⟩ := List.append_inj' h rfl
    rw [List.cons.inj hx |>.1]
    exact .inr ⟨post', List.concat_eq_append, rfl⟩

theorem ReadsFlushed.snoc {t : List ConnEvent} (h : ReadsFlushed t) {x : ConnEvent}
    (hx : ∀ pending, x = .read pending → pending = 0 ∧ delivered t = expected t) :
    ReadsFlushed (t ++ [x]) := by
  intro pre pending post heq
  rcases snoc_eq_append_cons heq with ⟨rfl, rfl, -⟩ | ⟨post', -, ht⟩
  · exact hx pending rfl
  · exact h pre pending post' ht

theorem StopsAtFailure.snoc {t : List ConnEvent} (h : StopsAtFailure t) {x : ConnEvent}
    (hx : x.isWrite = false) : StopsAtFailure (t ++ [x]) := by
  intro pre e post heq hf y hy
  rcases snoc_eq_append_cons heq with ⟨-, -, rfl⟩ | ⟨post', rfl, ht⟩
  · cases hy
  · rcases List.mem_append.mp hy with hy | hy
    · exact h pre e post' ht hf y hy
    · rw [List.mem_singleton.mp hy]
      exact hx

theorem Unfailed.snoc {t : List ConnEvent} (h : Unfailed t) {x : ConnEvent}
    (hx : x.failed = false) : Unfailed (t ++ [x]) := by
  intro e he
  rcases List.mem_append.mp he with he | he
  · exact h e he
  · rw [List.mem_singleton.mp he]
    exact hx

/-- A failure that comes last is followed by nothing. -/
theorem Unfailed.stops {t : List ConnEvent} (h : Unfailed t) (x : ConnEvent) :
    StopsAtFailure (t ++ [x]) := by
  intro pre e post heq hf
  rcases snoc_eq_append_cons heq with ⟨-, -, rfl⟩ | ⟨post', -, rfl⟩
  · simp
  · rw [h e (by simp)] at hf
    cases hf

/-! ## The connection as a sink -/

variable {ι : Type u}

/-- The connection after the answers `as`, with `out` delivered. -/
structure Kept (i : ι) (as : List ConnEvent) (c : Conn ι) (out : Bytes) : Prop where
  input : c.input = i
  answered : answers c.trace = as
  sent : delivered c.trace = out
  reads : ReadsFlushed c.trace

structure Sound (i : ι) (as : List ConnEvent) (c : Conn ι) (out : Bytes) : Prop where
  kept : Kept i as c out
  unfailed : Unfailed c.trace

structure Halted (i : ι) (as : List ConnEvent) (c : Conn ι) (out : Bytes) : Prop where
  kept : Kept i as c out
  stops : StopsAtFailure c.trace
  failed : ¬ Unfailed c.trace

/-- An answer is on record before its bytes are written. -/
theorem Kept.log_answer {i : ι} {as : List ConnEvent} {c : Conn ι} {out : Bytes}
    (h : Kept i as c out) {e : ConnEvent} (ha : e.isAnswer = true) :
    Kept i (as ++ [e]) (c.log e) out where
  input := h.input
  answered := by rw [Conn.log, answers_append, h.answered]; simp [answers, ha]
  sent := by
    rw [Conn.log, delivered_append, h.sent]
    cases e <;> simp_all [ConnEvent.isAnswer, delivered, ConnEvent.taken]
  reads := h.reads.snoc fun pending hp => by rw [hp] at ha; cases ha

theorem Kept.log_other {i : ι} {as : List ConnEvent} {c : Conn ι} {out : Bytes}
    (h : Kept i as c out) {e : ConnEvent} (ha : e.isAnswer = false)
    (hr : ∀ pending, e ≠ .read pending) : Kept i as (c.log e) (out ++ e.taken) where
  input := h.input
  answered := by rw [Conn.log, answers_append, h.answered]; simp [answers, ha]
  sent := by rw [Conn.log, delivered_append, h.sent]; simp [delivered]
  reads := h.reads.snoc fun pending hp => absurd hp (hr pending)

theorem sink_conn (fails : Failures) (i : ι) (as : List ConnEvent) :
    Sink (Conn.writer fails) (Sound i as) (Halted i as) where
  takes := by
    intro c out p h hok
    have hkept := h.kept.log_other (e := .write p p.length none) rfl (fun _ hc => nomatch hc)
    rw [ConnEvent.taken, List.take_length] at hkept
    unfold Conn.writer at hok ⊢
    dsimp only at hok ⊢
    cases hf : fails c.trace p with
    | some f => simp [hf] at hok
    | none => exact ⟨hkept, h.unfailed.snoc rfl⟩
  fails := by
    intro c out p h hbad
    unfold Conn.writer at hbad ⊢
    dsimp only at hbad ⊢
    cases hf : fails c.trace p with
    | none => simp [hf] at hbad
    | some f =>
      refine ⟨h.kept.log_other rfl (fun _ hc => nomatch hc), h.unfailed.stops _, fun hall => ?_⟩
      have := hall (.write p (min f.1 p.length) (some f.2)) (by simp [Conn.log])
      cases this

/-! ## The flusher -/

/-- No write has failed: what was delivered and what is buffered are the answers `as`. -/
structure Healthy (as : List ConnEvent) (fl : ConnFlusher ι) : Prop where
  up : fl.failed = false
  holds : Holds (Sound fl.conn.input as) fl.w (expected as)

/-- A write or an encoding has failed: nothing more is sent, and what was delivered is the start
of the answers `as`. -/
structure Silent (as : List ConnEvent) (fl : ConnFlusher ι) : Prop where
  latched : fl.failed = true ∨ fl.w.err ≠ none
  halted : ∃ out, Halted fl.conn.input as fl.conn out ∧ out <+: expected as

theorem Holds.input {i : ι} {as : List ConnEvent} {w : BufWriter (Conn ι)} {stream : Bytes}
    (h : Holds (Sound i as) w stream) : w.wr.input = i := by
  obtain ⟨out, hs, -⟩ := h.split
  exact hs.kept.input

theorem healthy_of_holds {i : ι} {as : List ConnEvent} {fl : ConnFlusher ι}
    (hup : fl.failed = false) (h : Holds (Sound i as) fl.w (expected as)) : Healthy as fl :=
  ⟨hup, by rw [ConnFlusher.conn, Holds.input h]; exact h⟩

theorem silent_of_broke {i : ι} {as : List ConnEvent} {fl : ConnFlusher ι}
    (h : Broke (Halted i as) fl.w (expected as)) : Silent as fl := by
  obtain ⟨out, hh, hpre⟩ := h.taken
  refine ⟨.inr h.failed, out, ?_, hpre⟩
  rw [ConnFlusher.conn, hh.kept.input]
  exact hh

theorem Healthy.sent {as : List ConnEvent} {fl : ConnFlusher ι} (h : Healthy as fl)
    (hbuf : fl.w.buf = []) : delivered fl.conn.trace = expected fl.conn.trace := by
  obtain ⟨out, hs, hout⟩ := h.holds.split
  rw [hbuf, List.append_nil] at hout
  rw [ConnFlusher.conn, hs.kept.sent, hout, ← hs.kept.answered, expected_answers]

theorem Healthy.flush {as : List ConnEvent} {fl : ConnFlusher ι} (h : Healthy as fl)
    (fails : Failures) :
    (∃ fl', fl.flush (Conn.writer fails) = (true, fl') ∧ Healthy as fl' ∧ fl'.w.buf = [] ∧
      fl'.conn.input = fl.conn.input) ∨
    (∃ fl', fl.flush (Conn.writer fails) = (false, fl') ∧ Silent as fl') := by
  unfold ConnFlusher.flush
  rw [if_neg (by rw [h.up]; decide)]
  by_cases hb : fl.w.buffered = 0
  · rw [if_pos hb]
    exact .inl ⟨fl, rfl, h, List.length_eq_zero_iff.mp hb, rfl⟩
  rw [if_neg hb]
  have hflush := emits_flush (sink_conn fails fl.conn.input as) _ _ h.holds
  have hbuf := buf_flush (W := Conn.writer fails) (w := fl.w)
  rw [List.append_nil] at hflush
  generalize fl.w.flush (Conn.writer fails) = x at hflush hbuf
  obtain ⟨res, w⟩ := x
  rcases hflush with ⟨rfl, hh⟩ | ⟨⟨e, rfl⟩, hbroke⟩
  · exact .inl ⟨_, rfl, healthy_of_holds h.up hh, hbuf rfl, Holds.input hh⟩
  · exact .inr ⟨_, rfl, silent_of_broke hbroke⟩

theorem Silent.flush {as : List ConnEvent} {fl : ConnFlusher ι} (h : Silent as fl)
    (W : IoWriter (Conn ι)) : Silent as (fl.flush W).2 := by
  unfold ConnFlusher.flush
  by_cases hf : fl.failed = true
  · rw [if_pos hf]
    exact h
  rw [if_neg hf]
  by_cases hb : fl.w.buffered = 0
  · rw [if_pos hb]
    exact h
  obtain ⟨e, he⟩ := Option.ne_none_iff_exists'.mp (h.latched.resolve_left hf)
  rw [if_neg hb, BufWriter.flush, he]
  exact ⟨.inl rfl, h.halted⟩

/-! ## The reader's source -/

structure Ready (H : ConnHandler ι) (as : List ConnEvent) (fl : ConnFlusher ι) : Prop where
  healthy : Healthy as fl
  sent : H.flushEveryReply = true → fl.w.buf = []

theorem Healthy.connRead {as : List ConnEvent} {fl : ConnFlusher ι} (h : Healthy as fl)
    (hbuf : fl.w.buf = []) (src : IoReader ι) (k : ℕ) :
    Healthy as (fl.connRead src k).next := by
  have hsent := h.sent hbuf
  obtain ⟨herr, hfits, out, hs, hout⟩ := h.holds
  refine ⟨h.up, herr, hfits, out, ⟨⟨rfl, ?_, ?_, ?_⟩, ?_⟩, hout⟩
  · change answers (fl.conn.trace ++ [.read fl.w.buffered]) = as
    rw [answers_append, ConnFlusher.conn, hs.kept.answered]
    exact List.append_nil _
  · change delivered (fl.conn.trace ++ [.read fl.w.buffered]) = out
    rw [delivered_append, ConnFlusher.conn, hs.kept.sent]
    exact List.append_nil _
  · refine hs.kept.reads.snoc fun pending hp => ⟨?_, hsent⟩
    cases hp
    rw [BufWriter.buffered, hbuf]
    rfl
  · exact hs.unfailed.snoc rfl

private theorem tracks_source (H : ConnHandler ι) (as : List ConnEvent) :
    Tracks H.source H.src (fun fl => fl.conn.input) (Ready H as) (Silent as) errFlushFailed where
  read := by
    intro fl k hr
    unfold ConnHandler.source
    by_cases hevery : H.flushEveryReply = true
    · rw [if_pos hevery]
      exact .inl ⟨rfl, hr.healthy.connRead (hr.sent hevery) H.src k, hr.sent⟩
    · rw [if_neg hevery]
      unfold flushBeforeRead
      dsimp only
      rcases hr.healthy.flush H.fails with ⟨fl', heq, hh, hbuf, hin⟩ | ⟨fl', heq, hs⟩
      · rw [ConnHandler.writer, heq, ← hin]
        exact .inl ⟨rfl, hh.connRead hbuf H.src k, fun hc => absurd hc hevery⟩
      · rw [ConnHandler.writer, heq]
        exact .inr ⟨rfl, rfl, hs⟩

/-! ## The command loop -/

namespace ConnHandler

/-- The answers the handler would give if no write failed: the commands as a decoder over the
bare socket reads them, and the protocol error the loop ends in. -/
def script (H : ConnHandler ι) : ℕ → Reader ι → List (List Bytes) → Option (List ConnEvent)
  | 0, _, _ => none
  | fuel + 1, r, cmds =>
    if H.draining cmds.length then some []
    else
      match r.readCommand H.src with
      | (.error (.io _), _) => some []
      | (.error (.protocol msg _), _) => some [.protocolError msg]
      | (.error .panic, _) => none
      | (.ok args, r) =>
        let reply := H.reply (cmds ++ [args])
        match (encode reply).2 with
        | .error _ => some [.dispatch args reply]
        | .ok () => (H.script fuel r (cmds ++ [args])).map (.dispatch args reply :: ·)

/-- What a run of the loop amounts to: the whole script, a start of it after which nothing more
is sent, or no return. -/
inductive Outcome (H : ConnHandler ι) (as : List ConnEvent) (r : Reader ι)
    (cmds : List (List Bytes)) (fuel : ℕ) : Option (ConnFlusher ι) → Prop where
  | whole {fl : ConnFlusher ι} (ev : List ConnEvent) (hs : H.script fuel r cmds = some ev)
      (hh : Healthy (as ++ ev) fl) : Outcome H as r cmds fuel (some fl)
  | broken {fl : ConnFlusher ι} (ev : List ConnEvent) (hsil : Silent (as ++ ev) fl)
      (hpre : ∀ m ev', H.script m r cmds = some ev' → ev <+: ev') :
      Outcome H as r cmds fuel (some fl)
  | stuck (hs : H.script fuel r cmds = none) : Outcome H as r cmds fuel none

end ConnHandler

open ConnHandler

theorem Healthy.log {as : List ConnEvent} {fl : ConnFlusher ι} (h : Healthy as fl)
    {e : ConnEvent} (ha : e.isAnswer = true) :
    Holds (Sound fl.conn.input (as ++ [e])) (fl.log e).w (expected as) := by
  obtain ⟨herr, hfits, out, hs, hout⟩ := h.holds
  have hok : e.failed = false := by cases e <;> first | rfl | cases ha
  exact ⟨herr, hfits, out, ⟨hs.kept.log_answer ha, hs.unfailed.snoc hok⟩, hout⟩

theorem expected_snoc (as : List ConnEvent) (e : ConnEvent) :
    expected (as ++ [e]) = expected as ++ e.answer := by
  rw [expected_append]
  simp [expected]

/-- The handler gives up after a reply that was not encoded to its end. -/
theorem silent_encodeFailed {i : ι} {as : List ConnEvent} {fl : ConnFlusher ι}
    (h : Holds (Sound i as) fl.w (expected as) ∨ Broke (Halted i as) fl.w (expected as)) :
    Silent as (fl.fail.log .encodeFailed) := by
  refine ⟨.inl rfl, ?_⟩
  have hne : ∀ pending, ConnEvent.encodeFailed ≠ .read pending := fun _ hc => nomatch hc
  have htaken : ConnEvent.encodeFailed.taken = [] := rfl
  have hlast : ¬ Unfailed (fl.conn.log .encodeFailed).trace := fun hall => by
    have := hall .encodeFailed (by simp [Conn.log])
    cases this
  rcases h with ⟨-, -, out, hs, hout⟩ | ⟨-, out, hh, hpre⟩
  · have hkept := hs.kept.log_other (e := .encodeFailed) rfl hne
    rw [htaken, List.append_nil, ← hs.kept.input] at hkept
    exact ⟨out, ⟨hkept, hs.unfailed.stops _, hlast⟩, ⟨_, hout⟩⟩
  · have hkept := hh.kept.log_other (e := .encodeFailed) rfl hne
    rw [htaken, List.append_nil, ← hh.kept.input] at hkept
    exact ⟨out, ⟨hkept, hh.stops.snoc rfl, hlast⟩, hpre⟩

theorem Healthy.report {as : List ConnEvent} {fl : ConnFlusher ι} (h : Healthy as fl)
    (H : ConnHandler ι) (msg : String) (incomplete : Bool) :
    ∃ fl', H.reportReadError fl (.protocol msg incomplete) = some fl' ∧
      (Healthy (as ++ [.protocolError msg]) fl' ∨ Silent (as ++ [.protocolError msg]) fl') := by
  refine ⟨_, rfl, ?_⟩
  have hlog := h.log (e := .protocolError msg) rfl
  rcases emits_prefixed (sink_conn H.fails _ _) 45 (text "ERR Protocol error: " ++ text msg) _ _
      hlog with ⟨-, hh⟩ | ⟨-, hb⟩
  · have hnow : Healthy (as ++ [.protocolError msg])
        { fl.log (.protocolError msg) with
          w := ((Writer.writeError H.writer (text "ERR Protocol error: " ++ text msg)).run
            (fl.log (.protocolError msg)).w).2 } :=
      healthy_of_holds h.up (by rw [expected_snoc]; exact hh)
    rcases hnow.flush H.fails with ⟨fl', heq, hfl, -⟩ | ⟨fl', heq, hs⟩
    · exact .inl (heq ▸ hfl)
    · exact .inr (heq ▸ hs)
  · refine .inr (Silent.flush (silent_of_broke (i := fl.conn.input) ?_) _)
    rw [expected_snoc]
    exact hb

theorem Healthy.reply {as : List ConnEvent} {fl : ConnFlusher ι} (h : Healthy as fl)
    (H : ConnHandler ι) (args : List Bytes) (reply : RawReply) :
    ∃ res w, (writeReply H.writer reply).run (fl.log (.dispatch args reply)).w = (res, w) ∧
      ((res = .ok () ∧ (encode reply).2 = .ok () ∧
        Healthy (as ++ [.dispatch args reply]) { fl.log (.dispatch args reply) with w := w } ∧
        w.wr.input = fl.conn.input) ∨
      (∃ e, res = .error e) ∧ Silent (as ++ [.dispatch args reply])
        (ConnFlusher.fail { fl.log (.dispatch args reply) with w := w } |>.log .encodeFailed)) := by
  have hemit := emits_writeReply (W := H.writer) (sink_conn H.fails _ _) reply _ _
    (h.log (e := .dispatch args reply) rfl)
  have hstream : expected as ++ (encode reply).1 = expected (as ++ [.dispatch args reply]) := by
    rw [expected_snoc]
    rfl
  rw [hstream] at hemit
  generalize (writeReply H.writer reply).run (fl.log (.dispatch args reply)).w = x at hemit ⊢
  obtain ⟨res, w⟩ := x
  refine ⟨res, w, rfl, ?_⟩
  rcases hemit with ⟨hres, hh⟩ | ⟨hres, hb⟩
  · dsimp only at hres hh
    subst hres
    cases hcode : (encode reply).2 with
    | ok => exact .inl ⟨rfl, rfl, healthy_of_holds h.up hh, Holds.input hh⟩
    | error e => exact .inr ⟨⟨e, rfl⟩, silent_encodeFailed (.inl hh)⟩
  · exact .inr ⟨hres, silent_encodeFailed (.inr hb)⟩

section Script

variable {H : ConnHandler ι} {r r' : Reader ι} {cmds : List (List Bytes)} {args : List Bytes}
  {as : List ConnEvent}

/-- A reply that is encoded to its end is followed by the rest of the script. -/
theorem ConnHandler.Outcome.step {d : ConnEvent} {fuel : ℕ} {x : Option (ConnFlusher ι)}
    (h : Outcome H (as ++ [d]) r' (cmds ++ [args]) fuel x)
    (hstep : ∀ m, H.script (m + 1) r cmds = (H.script m r' (cmds ++ [args])).map (d :: ·)) :
    Outcome H as r cmds (fuel + 1) x := by
  cases h with
  | whole ev hs hh =>
    refine .whole (d :: ev) (by rw [hstep, hs]; rfl) ?_
    rwa [List.append_assoc] at hh
  | broken ev hsil hpre =>
    refine .broken (d :: ev) (by rwa [List.append_assoc] at hsil) fun m ev' hm => ?_
    cases m with
    | zero => cases hm
    | succ m =>
      rw [hstep, Option.map_eq_some_iff] at hm
      obtain ⟨rest, hrest, rfl⟩ := hm
      exact List.cons_prefix_cons.mpr ⟨rfl, hpre m rest hrest⟩
  | stuck hs => exact .stuck (by rw [hstep, hs]; rfl)

/-- Once a command is read, every script starts with its answer. -/
theorem script_dispatch (hdrain : ¬ H.draining cmds.length = true)
    (hx : r.readCommand H.src = (.ok args, r')) {m : ℕ} {ev : List ConnEvent}
    (h : H.script m r cmds = some ev) :
    [.dispatch args (H.reply (cmds ++ [args]))] <+: ev := by
  cases m with
  | zero => cases h
  | succ m =>
    rw [script, if_neg hdrain, hx] at h
    cases hres : (encode (H.reply (cmds ++ [args]))).2 with
    | error e =>
      simp only [hres, Option.some.injEq] at h
      exact ⟨[], h⟩
    | ok =>
      simp only [hres, Option.map_eq_some_iff] at h
      obtain ⟨rest, -, rfl⟩ := h
      exact ⟨rest, rfl⟩

private theorem outcome_readError (hdrain : ¬ H.draining cmds.length = true) {e : ReadErr}
    (hx : r.readCommand H.src = (.error e, r')) {fl : ConnFlusher ι} (h : Healthy as fl)
    (fuel : ℕ) : Outcome H as r cmds (fuel + 1) (H.reportReadError fl e) := by
  cases e with
  | io e =>
    refine .whole [] (by rw [script, if_neg hdrain, hx]) ?_
    rw [List.append_nil]
    exact h
  | panic => exact .stuck (by rw [script, if_neg hdrain, hx])
  | protocol msg incomplete =>
    obtain ⟨fl, heq, hh | hs⟩ := h.report H msg incomplete
    · rw [heq]
      exact .whole _ (by rw [script, if_neg hdrain, hx]) hh
    · rw [heq]
      refine .broken _ hs fun m ev' hm => ?_
      cases m with
      | zero => cases hm
      | succ m =>
        rw [script, if_neg hdrain, hx] at hm
        have hev := Option.some.inj hm
        exact hev ▸ List.prefix_rfl

end Script

theorem serve_outcome (H : ConnHandler ι) (fuel : ℕ) {r : Reader (ConnFlusher ι)}
    {as : List ConnEvent} (cmds : List (List Bytes)) (hr : Ready H as r.br.rd) :
    Outcome H as (r.map fun fl => fl.conn.input) cmds fuel (H.serve fuel r cmds) := by
  induction fuel generalizing r as cmds with
  | zero => exact .stuck rfl
  | succ fuel ih =>
    unfold serve
    by_cases hdrain : H.draining cmds.length = true
    · rw [if_pos hdrain]
      refine .whole [] (by rw [script, if_pos hdrain]) ?_
      rw [List.append_nil]
      exact hr.healthy
    rw [if_neg hdrain]
    rcases Reader.readCommand_same (tracks_source H as) hr with
      ⟨res, r₁, hx, hx₀, hi⟩ | ⟨r₁, hx, hbad⟩
    · rw [hx]
      cases res with
      | error e => exact outcome_readError hdrain hx₀ hi.healthy fuel
      | ok args =>
        have hpre : ∀ m ev', H.script m (r.map fun fl => fl.conn.input) cmds = some ev' →
            [.dispatch args (H.reply (cmds ++ [args]))] <+: ev' :=
          fun m ev' hm => script_dispatch hdrain hx₀ hm
        obtain ⟨res, w, hrun, ⟨rfl, hcode, hnow, hw⟩ | ⟨⟨e, rfl⟩, hs⟩⟩ :=
          hi.healthy.reply H args (H.reply (cmds ++ [args]))
        · simp only [hrun]
          have hstep : ∀ m, H.script (m + 1) (r.map fun fl => fl.conn.input) cmds =
              (H.script m (r₁.map fun fl => fl.conn.input) (cmds ++ [args])).map
                (.dispatch args (H.reply (cmds ++ [args])) :: ·) := by
            intro m
            rw [script, if_neg hdrain, hx₀]
            simp only [hcode]
          -- the rest of the loop starts from the same place in the client's bytes
          have hrest : ∀ fl : ConnFlusher ι,
              Ready H (as ++ [.dispatch args (H.reply (cmds ++ [args]))]) fl →
              fl.conn.input = r₁.br.rd.conn.input →
              Outcome H as (r.map fun fl => fl.conn.input) cmds (fuel + 1)
                (H.serve fuel { r₁ with br := { r₁.br with rd := fl } } (cmds ++ [args])) := by
            intro fl hfl hin
            have hnext := ih (r := { r₁ with br := { r₁.br with rd := fl } }) (cmds ++ [args]) hfl
            rw [show Reader.map (fun fl : ConnFlusher ι => fl.conn.input)
              { r₁ with br := { r₁.br with rd := fl } } =
              r₁.map fun fl => fl.conn.input by simp only [Reader.map, Bufio.map, hin]] at hnext
            exact hnext.step hstep
          by_cases hevery : H.flushEveryReply = true
          · rw [if_pos hevery]
            rcases hnow.flush H.fails with ⟨fl, heq, hfl, hbuf, hin⟩ | ⟨fl, heq, hs⟩
            · rw [writer, heq]
              exact hrest fl ⟨hfl, fun _ => hbuf⟩ (hin.trans hw)
            · rw [writer, heq]
              exact .broken _ hs hpre
          · rw [if_neg hevery]
            exact hrest _ ⟨hnow, fun hc => absurd hc hevery⟩ hw
        · simp only [hrun]
          exact .broken _ hs hpre
    · rw [hx]
      refine .broken [] ?_ (fun _ _ _ => List.nil_prefix)
      rw [List.append_nil]
      exact hbad

/-! ## Whole connections -/

theorem ready_new (H : ConnHandler ι) (input : ι) :
    Ready H [] ⟨.ofWriter ⟨input, []⟩, false⟩ where
  healthy := by
    refine ⟨rfl, holds_ofWriter ⟨⟨rfl, rfl, rfl, fun pre pending post h => ?_⟩, ?_⟩⟩
    · exact absurd h (by simp)
    · exact fun e he => nomatch he
  sent _ := rfl

/-- A script does not depend on the fuel. -/
theorem script_unique {H : ConnHandler ι} {n m : ℕ} {r : Reader ι} {cmds : List (List Bytes)}
    {ev ev' : List ConnEvent} (h : H.script n r cmds = some ev)
    (h' : H.script m r cmds = some ev') : ev = ev' := by
  induction n generalizing m r cmds ev ev' with
  | zero => cases h
  | succ n ih =>
    cases m with
    | zero => cases h'
    | succ m =>
      rw [script] at h h'
      by_cases hdrain : H.draining cmds.length = true
      · rw [if_pos hdrain] at h h'
        exact Option.some.inj (h.symm.trans h')
      rw [if_neg hdrain] at h h'
      generalize r.readCommand H.src = x at h h'
      obtain ⟨res, r'⟩ := x
      cases res with
      | error e =>
        cases e with
        | io e | protocol msg incomplete => exact Option.some.inj (h.symm.trans h')
        | panic => cases h
      | ok args =>
        dsimp only at h h'
        cases hcode : (encode (H.reply (cmds ++ [args]))).2 with
        | error e =>
          simp only [hcode] at h h'
          exact Option.some.inj (h.symm.trans h')
        | ok =>
          simp only [hcode, Option.map_eq_some_iff] at h h'
          obtain ⟨rest, hrest, rfl⟩ := h
          obtain ⟨rest', hrest', rfl⟩ := h'
          rw [ih hrest hrest']

theorem Silent.trace {as : List ConnEvent} {fl : ConnFlusher ι} (h : Silent as fl) :
    ReadsFlushed fl.conn.trace ∧ StopsAtFailure fl.conn.trace ∧
    delivered fl.conn.trace <+: expected fl.conn.trace ∧ ¬ Unfailed fl.conn.trace ∧
    answers fl.conn.trace = as := by
  obtain ⟨out, hh, hpre⟩ := h.halted
  refine ⟨hh.kept.reads, hh.stops, ?_, hh.failed, hh.kept.answered⟩
  rwa [hh.kept.sent, ← expected_answers fl.conn.trace, hh.kept.answered]

theorem Healthy.trace {as : List ConnEvent} {fl : ConnFlusher ι} (h : Healthy as fl) :
    ReadsFlushed fl.conn.trace ∧ Unfailed fl.conn.trace ∧ answers fl.conn.trace = as := by
  obtain ⟨out, hs, -⟩ := h.holds.split
  exact ⟨hs.kept.reads, hs.unfailed, hs.kept.answered⟩

/-- The trace when serveConn returns: every answer is sent, or a failure silenced the handler. -/
theorem serveConn_outcome (H : ConnHandler ι) {fuel : ℕ} {input : ι} {trace : List ConnEvent}
    (h : H.serveConn fuel input = some trace) :
    ReadsFlushed trace ∧ StopsAtFailure trace ∧ delivered trace <+: expected trace ∧
    (Unfailed trace → delivered trace = expected trace ∧
      H.script fuel (.new input H.limits) [] = some (answers trace)) ∧
    ∀ m ev, H.script m (.new input H.limits) [] = some ev → answers trace <+: ev := by
  obtain ⟨fl, hserve, rfl⟩ := Option.map_eq_some_iff.mp h
  have hout := serve_outcome H fuel [] (r := .new ⟨.ofWriter ⟨input, []⟩, false⟩ H.limits)
    (ready_new H input)
  rw [hserve] at hout
  -- what a silenced handler leaves, whatever start of the script it had answered
  have hsilent : ∀ {as : List ConnEvent} {fl : ConnFlusher ι}, Silent as fl →
      (∀ m ev, H.script m (.new input H.limits) [] = some ev → as <+: ev) →
      ReadsFlushed fl.conn.trace ∧ StopsAtFailure fl.conn.trace ∧
      delivered fl.conn.trace <+: expected fl.conn.trace ∧
      (Unfailed fl.conn.trace → delivered fl.conn.trace = expected fl.conn.trace ∧
        H.script fuel (.new input H.limits) [] = some (answers fl.conn.trace)) ∧
      ∀ m ev, H.script m (.new input H.limits) [] = some ev → answers fl.conn.trace <+: ev := by
    intro as fl hs hpre
    obtain ⟨hreads, hstops, hdel, hfailed, hans⟩ := hs.trace
    exact ⟨hreads, hstops, hdel, fun hall => absurd hall hfailed, by rw [hans]; exact hpre⟩
  cases hout with
  | whole ev hs hh =>
    rcases hh.flush H.fails with ⟨fl', heq, hfl, hbuf, -⟩ | ⟨fl', heq, hsil⟩
    · rw [writer, heq]
      obtain ⟨hreads, hall, hans⟩ := hfl.trace
      have hsent := hfl.sent hbuf
      refine ⟨hreads, fun pre e post hsplit hf => ?_, hsent ▸ List.prefix_rfl,
        fun _ => ⟨hsent, ?_⟩, ?_⟩
      · rw [hall e (by rw [hsplit]; simp)] at hf
        cases hf
      · rw [hans]
        exact hs
      · intro m ev' hm
        rw [hans, script_unique hm hs]
        exact List.prefix_rfl
    · rw [writer, heq]
      exact hsilent hsil fun m ev' hm => by rw [script_unique hm hs]; exact List.prefix_rfl
  | broken ev hsil hpre => exact hsilent (hsil.flush _) hpre

/-- The same handler, with other writes failing and the other way to flush. -/
def ConnHandler.under (H : ConnHandler ι) (fails : Failures) (every : Bool) : ConnHandler ι :=
  { H with fails := fails, flushEveryReply := every }

theorem script_under (H : ConnHandler ι) (fails : Failures) (every : Bool) (n : ℕ) (r : Reader ι)
    (cmds : List (List Bytes)) : (H.under fails every).script n r cmds = H.script n r cmds := by
  induction n generalizing r cmds with
  | zero => rfl
  | succ n ih =>
    simp only [script, ih]
    rfl

/-- Over a finite stream the loop comes to an end: every pass consumes a frame. -/
theorem script_isSome (H : ConnHandler ι) {I : ι → Prop} {rest : ι → Bytes}
    (hd : Delivers H.src I rest) (n : ℕ) {r : Reader ι} (cmds : List (List Bytes))
    (hr : r.br.Ready I) (hn : (r.br.rest rest).length < n) : (H.script n r cmds).isSome := by
  induction n generalizing r cmds with
  | zero => omega
  | succ n ih =>
    rw [script]
    by_cases hdrain : H.draining cmds.length = true
    · rw [if_pos hdrain]
      rfl
    rw [if_neg hdrain]
    have hspec := Reader.readCommand_spec hd hr
    rcases parseFrame_cases r.limits (r.br.rest rest) with
      ⟨args, f, x, hf, hsplit⟩ | hnil | htorn | ⟨msg, hmsg⟩
    · rw [hsplit, parseFrame_append hf] at hspec
      obtain ⟨r', hx, -, hready, hrest⟩ := hspec
      have hpos := List.length_pos_iff.mpr (Frame.bytes_ne_nil ⟨args, f, hf⟩)
      rw [hsplit, List.length_append] at hn
      have hnext := ih (cmds ++ [args]) hready (by rw [hrest]; dsimp only at hpos; omega)
      rw [hx]
      dsimp only
      cases (encode (H.reply (cmds ++ [args]))).2 with
      | error e => rfl
      | ok => simpa using hnext
    · rw [hnil, parseFrame_nil] at hspec
      obtain ⟨r', hx⟩ := hspec
      rw [hx]
      rfl
    · obtain ⟨msg, hmsg⟩ := parseFrame_torn htorn
      rw [hmsg] at hspec
      obtain ⟨r', hx⟩ := hspec
      rw [hx]
      rfl
    · rw [hmsg] at hspec
      obtain ⟨r', hx⟩ := hspec
      rw [hx]
      rfl

/-- Whatever writes fail, the handler returns when its script ends. -/
theorem serveConn_isSome (H : ConnHandler ι) {fuel : ℕ} (input : ι)
    (h : (H.script fuel (.new input H.limits) []).isSome) : (H.serveConn fuel input).isSome := by
  have hout := serve_outcome H fuel [] (r := .new ⟨.ofWriter ⟨input, []⟩, false⟩ H.limits)
    (ready_new H input)
  rw [serveConn, Option.isSome_map]
  generalize H.serve fuel (.new ⟨.ofWriter ⟨input, []⟩, false⟩ H.limits) [] = x at hout ⊢
  cases hout with
  | whole _ _ _ | broken _ _ _ => rfl
  | stuck hs =>
    change H.script fuel (.new input H.limits) [] = none at hs
    rw [hs] at h
    cases h

def ConnHandler.dispatches (H : ConnHandler ι) (done : List (List Bytes)) :
    List (List Bytes) → List ConnEvent
  | [] => []
  | args :: cmds =>
    .dispatch args (H.reply (done ++ [args])) :: H.dispatches (done ++ [args]) cmds

/-- Commands are answered in order, and a protocol error comes last. -/
theorem script_shape (H : ConnHandler ι) {n : ℕ} {r : Reader ι} {done : List (List Bytes)}
    {ev : List ConnEvent} (h : H.script n r done = some ev) :
    ∃ (cmds : List (List Bytes)) (err : Option String),
      ev = H.dispatches done cmds ++ err.toList.map .protocolError := by
  induction n generalizing r done ev with
  | zero => cases h
  | succ n ih =>
    rw [script] at h
    by_cases hdrain : H.draining done.length = true
    · rw [if_pos hdrain] at h
      exact ⟨[], none, (Option.some.inj h).symm⟩
    rw [if_neg hdrain] at h
    generalize r.readCommand H.src = x at h
    obtain ⟨res, r'⟩ := x
    cases res with
    | error e =>
      cases e with
      | io e => exact ⟨[], none, (Option.some.inj h).symm⟩
      | protocol msg incomplete => exact ⟨[], some msg, (Option.some.inj h).symm⟩
      | panic => cases h
    | ok args =>
      dsimp only at h
      cases hcode : (encode (H.reply (done ++ [args]))).2 with
      | error e =>
        simp only [hcode] at h
        exact ⟨[args], none, (Option.some.inj h).symm⟩
      | ok =>
        simp only [hcode, Option.map_eq_some_iff] at h
        obtain ⟨rest, hrest, rfl⟩ := h
        obtain ⟨cmds, err, rfl⟩ := ih hrest
        exact ⟨args :: cmds, err, rfl⟩

/-- What the loop ends in at a tail that begins with no frame. -/
def complaint (limits : Limits) (tail : Bytes) : Option String :=
  match parseFrame limits tail with
  | .error (.protocol msg _) => some msg
  | _ => none

/-- The script of a stream of frames: each is dispatched, and what follows them is reported. -/
theorem script_frames {H : ConnHandler ι} (hdrain : ∀ n, H.draining n = false)
    (hcode : ∀ cmds, (encode (H.reply cmds)).2 = .ok ()) {I : ι → Prop} {rest : ι → Bytes}
    (hd : Delivers H.src I rest) {tail : Bytes}
    (hstops : ∀ f : Frame H.limits, ¬ f.bytes <+: tail) (frames : List (Frame H.limits))
    {r : Reader ι} (hr : r.br.Ready I) (hlim : r.limits = H.limits)
    (hrest : r.br.rest rest = Frame.stream frames ++ tail) (done : List (List Bytes)) :
    H.script (frames.length + 1) r done = some (H.dispatches done (frames.map Frame.args) ++
      (complaint H.limits tail).toList.map .protocolError) := by
  induction frames generalizing r done with
  | nil =>
    have hspec := Reader.readCommand_spec hd hr
    rw [hrest, hlim, Frame.stream_nil, List.nil_append] at hspec
    obtain ⟨e, he, heof, -, hproto⟩ := parseFrame_tail hstops
    rw [he] at hspec
    obtain ⟨r', hx⟩ := hspec
    rw [ConnHandler.script, if_neg (by simp [hdrain]), hx, complaint, he]
    by_cases hnil : tail = []
    · rw [heof.mpr hnil]
      rfl
    · obtain ⟨msg, incomplete, rfl⟩ := hproto hnil
      rfl
  | cons f frames ih =>
    have hspec := Reader.readCommand_spec hd hr
    rw [hrest, hlim, Frame.stream_cons, List.append_assoc, parseFrame_append f.valid] at hspec
    obtain ⟨r', hx, hlim', hr', hrest'⟩ := hspec
    have hnext := ih hr' hlim' hrest' (done ++ [f.args])
    rw [ConnHandler.script, if_neg (by simp [hdrain])]
    simp only [hx, hcode, List.length_cons, hnext]
    rfl

/-- Holding replies back is transparent, whatever the client sends and however the socket cuts
it, whatever is replied, whenever draining is noticed and whichever writes fail. A finite stream
is served to its end. While the handler reads from the connection nothing is held back. If
nothing fails, the handler answers as its script says: the commands that a decoder over the bare
socket reads, and the protocol error that the last read ended in. The client receives the encoded
replies in that order, the same bytes as with a flush after every reply. After a failure nothing is
handed to the connection, and the client has the start of those bytes. -/
theorem serveConn_transparent (H : ConnHandler ι) (input : ι) :
    (∀ (I : ι → Prop) (rest : ι → Bytes), Delivers H.src I rest → I input →
      (H.serveConn ((rest input).length + 1) input).isSome) ∧
    ∀ fuel trace, H.serveConn fuel input = some trace →
      (∀ pre pending post, trace = pre ++ .read pending :: post →
        pending = 0 ∧ delivered pre = expected pre) ∧
      (Unfailed trace →
        H.script fuel (.new input H.limits) [] = some (answers trace) ∧
        (∃ (cmds : List (List Bytes)) (err : Option String),
          answers trace = H.dispatches [] cmds ++ err.toList.map .protocolError) ∧
        (∀ (I : ι → Prop) (rest : ι → Bytes) (frames : List (Frame H.limits)) (tail : Bytes),
          Delivers H.src I rest → I input → Splits H.limits (rest input) frames tail →
          (∀ n, H.draining n = false) → (∀ cmds, (encode (H.reply cmds)).2 = .ok ()) →
          answers trace = H.dispatches [] (frames.map Frame.args) ++
            (complaint H.limits tail).toList.map .protocolError) ∧
        delivered trace = expected trace ∧
        ∀ fails, ∃ trace', (H.under fails true).serveConn fuel input = some trace' ∧
          (Unfailed trace' → delivered trace' = delivered trace)) ∧
      (∀ pre e post, trace = pre ++ e :: post → e.failed = true →
        ∀ x ∈ post, x.isWrite = false) ∧
      delivered trace <+: expected trace ∧
      ∀ fails every fuel' trace', (H.under fails every).serveConn fuel' input = some trace' →
        Unfailed trace' → delivered trace <+: delivered trace' := by
  refine ⟨fun I rest hd hi => ?_, fun fuel trace h => ?_⟩
  · refine serveConn_isSome H input (script_isSome H hd _ [] (Bufio.ready_ofReader hi) ?_)
    simp [Reader.new, Bufio.rest, Bufio.ofReader]
  obtain ⟨hreads, hstops, hpre, hall, hstart⟩ := serveConn_outcome H h
  refine ⟨hreads, fun hun => ?_, hstops, hpre, fun fails every fuel' trace' h' hun' => ?_⟩
  · obtain ⟨hsent, hscript⟩ := hall hun
    refine ⟨hscript, script_shape H hscript, fun I rest frames tail hd hi hs hdrain hcode => ?_,
      hsent, fun fails => ?_⟩
    · have hframes := script_frames hdrain hcode hd hs.stops frames
        (r := .new input H.limits) (Bufio.ready_ofReader hi) rfl (by rw [← hs.split]; rfl) []
      exact script_unique hscript hframes
    have hsome : ((H.under fails true).script fuel (.new input H.limits) []).isSome := by
      rw [script_under, hscript]
      rfl
    obtain ⟨trace', h'⟩ := Option.isSome_iff_exists.mp
      (serveConn_isSome (H.under fails true) input hsome)
    refine ⟨trace', h', fun hun' => ?_⟩
    obtain ⟨-, -, -, hall', -⟩ := serveConn_outcome _ h'
    obtain ⟨hsent', hscript'⟩ := hall' hun'
    rw [script_under] at hscript'
    rw [hsent, hsent', ← expected_answers trace', ← expected_answers trace,
      script_unique hscript' hscript]
  · obtain ⟨-, -, -, hall', -⟩ := serveConn_outcome _ h'
    obtain ⟨hsent', hscript'⟩ := hall' hun'
    rw [script_under] at hscript'
    obtain ⟨more, hmore⟩ := hstart _ _ hscript'
    refine hpre.trans ?_
    rw [hsent', ← expected_answers trace', ← expected_answers trace, ← hmore, expected_append]
    exact List.prefix_append _ _

/-- A client that sends a PING in two pieces and closes. -/
def pingHandler : ConnHandler Chunks where
  src := Chunks.reader
  fails _ _ := none
  reply _ := (Command.Reply.simple (text "PONG")).raw
  draining _ := false
  limits := defaultLimits
  flushEveryReply := false

def pingChunks : Chunks := ⟨[text "*1\r\n$4\r", text "\nPING\r\n"], by decide⟩

theorem serveConn_ping :
    (pingHandler.serveConn (pingChunks.rest.length + 1) pingChunks).isSome ∧
    ∃ trace, pingHandler.serveConn 2 pingChunks = some trace ∧ Unfailed trace ∧
      expected trace = text "+PONG\r\n" := by
  obtain ⟨hends, hall⟩ := serveConn_transparent pingHandler pingChunks
  have hrun : (pingHandler.serveConn 2 pingChunks).any (fun trace =>
      decide (Unfailed trace) && decide (delivered trace = text "+PONG\r\n")) = true := by
    decide +kernel
  obtain ⟨trace, htrace, hgood⟩ := (Option.any_eq_true _ _).mp hrun
  rw [Bool.and_eq_true, decide_eq_true_eq, decide_eq_true_eq] at hgood
  refine ⟨hends _ _ Chunks.delivers trivial, trace, htrace, hgood.1, ?_⟩
  rw [← ((hall 2 trace htrace).2.1 hgood.1).2.2.2.1]
  exact hgood.2

end GoKv.Wire
