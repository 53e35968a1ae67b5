import GoKv.Lib.Atomic

/-! An object behind a readers-writer lock. A call holds the lock while it looks at the guarded
state, takes one step that may use the rest of the world, and changes the guarded state, one
access at a time and with the steps of others in between. To its callers such an object is one
that performs each call at once, at some moment between the call and its answer. -/
namespace GoLib

universe u v

/-- Looks at the guarded state, one at a time, that end in a `β`. -/
inductive Looking (σ : Type u) (β : Type v) where
  | done (b : β)
  | look (next : σ → Looking σ β)

/-- Changes of the guarded state, one at a time, that end in an answer. What follows a change may
depend on the state it found. -/
inductive Changing (σ : Type u) (ρ : Type v) where
  | done (r : ρ)
  | change (f : σ → σ) (next : σ → Changing σ ρ)

def Looking.run {σ : Type u} {β : Type v} (s : σ) : Looking σ β → β
  | done b => b
  | look next => (next s).run s

def Changing.run {σ : Type u} {ρ : Type v} : Changing σ ρ → σ → ρ × σ
  | done r, s => (r, s)
  | change f next, s => (next s).run (f s)

variable {σ ε τ χ κ ρ α : Type*}

/-- Calls `κ` on a state `σ` behind a lock, beside a world `ε` with steps `α` of its own. A call
finds `χ` when it has the lock: the time, and whatever else is up to no one. Calls that are not
exclusive hold the lock together; they leave the state and the world alone. -/
structure LockedObject (σ ε τ χ κ ρ α : Type*) where
  exclusive : κ → Bool
  time : χ → τ
  fits : κ → χ → σ → Bool
  body : κ → χ → Looking σ (ε → ε × Changing σ ρ)
  shared : ∀ k x s, exclusive k = false → ∃ r, ∀ e, (body k x).run s e = (e, .done r)
  env : ε → α → Option ε

/-- Where a caller is: not calling, called and without the lock, holding it before it has looked at
the clock, looking, changing. -/
inductive Spot (σ ε χ κ ρ : Type*) where
  | out
  | waiting (k : κ)
  | entered (k : κ)
  | looking (k : κ) (x : χ) (rest : Looking σ (ε → ε × Changing σ ρ))
  | changing (k : κ) (x : χ) (rest : Changing σ ρ)

def Spot.holds : Spot σ ε χ κ ρ → Option κ
  | out | waiting _ => none
  | entered k | looking k _ _ | changing k _ _ => some k

structure Guarded (σ ε τ χ κ ρ : Type*) where
  state : σ
  world : ε
  clock : τ
  readers : List ℕ
  writer : Option ℕ
  spot : ℕ → Spot σ ε χ κ ρ
  trace : List (Visible κ ρ)

inductive GuardedEvent (χ κ α : Type*) where
  | call (c : ℕ) (k : κ)
  | acquire (c : ℕ)
  | enter (c : ℕ) (x : χ)
  | look (c : ℕ)
  | commit (c : ℕ)
  | change (c : ℕ)
  | release (c : ℕ)
  | env (a : α)

def GuardedEvent.visible : GuardedEvent χ κ α → Bool
  | .call _ _ | .release _ => true
  | _ => false

namespace Guarded

def start (s : σ) (e : ε) (clock : τ) : Guarded σ ε τ χ κ ρ :=
  ⟨s, e, clock, [], none, fun _ => .out, []⟩

def move (g : Guarded σ ε τ χ κ ρ) (c : ℕ) (p : Spot σ ε χ κ ρ) : Guarded σ ε τ χ κ ρ :=
  { g with spot := Function.update g.spot c p }

variable (O : LockedObject σ ε τ χ κ ρ α)

/-- The lock is free for the call of `c`. Which of those without it come first is left open. -/
def acquired (g : Guarded σ ε τ χ κ ρ) (c : ℕ) (k : κ) : Option (Guarded σ ε τ χ κ ρ) :=
  if O.exclusive k then
    if g.writer = none ∧ g.readers = [] then some { g.move c (.entered k) with writer := some c }
    else none
  else if g.writer = none then some { g.move c (.entered k) with readers := c :: g.readers }
  else none

def released (g : Guarded σ ε τ χ κ ρ) (c : ℕ) (k : κ) (r : ρ) : Guarded σ ε τ χ κ ρ :=
  { g.move c .out with
    readers := if O.exclusive k then g.readers else g.readers.erase c
    writer := if O.exclusive k then none else g.writer
    trace := g.trace ++ [.answer c k r] }

def step [LinearOrder τ] (g : Guarded σ ε τ χ κ ρ) :
    GuardedEvent χ κ α → Option (Guarded σ ε τ χ κ ρ)
  | .call c k =>
    match g.spot c with
    | .out => some { g.move c (.waiting k) with trace := g.trace ++ [.call c k] }
    | _ => none
  | .acquire c =>
    match g.spot c with
    | .waiting k => g.acquired O c k
    | _ => none
  | .enter c x =>
    match g.spot c with
    | .entered k =>
      if g.clock ≤ O.time x ∧ O.fits k x g.state then
        some { g.move c (.looking k x (O.body k x)) with clock := O.time x }
      else none
    | _ => none
  | .look c =>
    match g.spot c with
    | .looking k x (.look next) => some (g.move c (.looking k x (next g.state)))
    | _ => none
  | .commit c =>
    match g.spot c with
    | .looking k x (.done f) =>
      some { g.move c (.changing k x (f g.world).2) with world := (f g.world).1 }
    | _ => none
  | .change c =>
    match g.spot c with
    | .changing k x (.change f next) =>
      some { g.move c (.changing k x (next g.state)) with state := f g.state }
    | _ => none
  | .release c =>
    match g.spot c with
    | .changing k _ (.done r) => some (g.released O c k r)
    | _ => none
  | .env a => (O.env g.world a).map fun e => { g with world := e }

/-! ## What each step can do -/

inductive Moves [LinearOrder τ] (g : Guarded σ ε τ χ κ ρ) :
    GuardedEvent χ κ α → Guarded σ ε τ χ κ ρ → Prop where
  | call (c : ℕ) (k : κ) (hc : g.spot c = .out) :
      Moves g (.call c k) { g.move c (.waiting k) with trace := g.trace ++ [.call c k] }
  | acquire (c : ℕ) (k : κ) (t : Guarded σ ε τ χ κ ρ) (hc : g.spot c = .waiting k)
      (ht : g.acquired O c k = some t) : Moves g (.acquire c) t
  | enter (c : ℕ) (k : κ) (x : χ) (hc : g.spot c = .entered k) (hx : g.clock ≤ O.time x)
      (hf : O.fits k x g.state = true) :
      Moves g (.enter c x) { g.move c (.looking k x (O.body k x)) with clock := O.time x }
  | look (c : ℕ) (k : κ) (x : χ) (next : σ → Looking σ (ε → ε × Changing σ ρ))
      (hc : g.spot c = .looking k x (.look next)) :
      Moves g (.look c) (g.move c (.looking k x (next g.state)))
  | commit (c : ℕ) (k : κ) (x : χ) (f : ε → ε × Changing σ ρ)
      (hc : g.spot c = .looking k x (.done f)) :
      Moves g (.commit c)
        { g.move c (.changing k x (f g.world).2) with world := (f g.world).1 }
  | change (c : ℕ) (k : κ) (x : χ) (f : σ → σ) (next : σ → Changing σ ρ)
      (hc : g.spot c = .changing k x (.change f next)) :
      Moves g (.change c) { g.move c (.changing k x (next g.state)) with state := f g.state }
  | release (c : ℕ) (k : κ) (x : χ) (r : ρ) (hc : g.spot c = .changing k x (.done r)) :
      Moves g (.release c) (g.released O c k r)
  | env (a : α) (e : ε) (he : O.env g.world a = some e) : Moves g (.env a) { g with world := e }

theorem step_moves [LinearOrder τ] {O : LockedObject σ ε τ χ κ ρ α} {g t : Guarded σ ε τ χ κ ρ}
    {e : GuardedEvent χ κ α} (hstep : g.step O e = some t) : g.Moves O e t := by
  cases e with
  | call c k =>
    simp only [step] at hstep
    cases hc : g.spot c with
    | out =>
      simp only [hc] at hstep
      cases hstep
      exact .call c k hc
    | _ => simp [hc] at hstep
  | acquire c =>
    simp only [step] at hstep
    cases hc : g.spot c with
    | waiting k =>
      simp only [hc] at hstep
      exact .acquire c k t hc hstep
    | _ => simp [hc] at hstep
  | enter c x =>
    simp only [step] at hstep
    cases hc : g.spot c with
    | entered k =>
      simp only [hc] at hstep
      split_ifs at hstep with hguard
      cases hstep
      exact .enter c k x hc hguard.1 hguard.2
    | _ => simp [hc] at hstep
  | look c =>
    simp only [step] at hstep
    split at hstep
    · rename_i k x next hc
      cases hstep
      exact .look c k x next hc
    · cases hstep
  | commit c =>
    simp only [step] at hstep
    split at hstep
    · rename_i k x f hc
      cases hstep
      exact .commit c k x f hc
    · cases hstep
  | change c =>
    simp only [step] at hstep
    split at hstep
    · rename_i k x f next hc
      cases hstep
      exact .change c k x f next hc
    · cases hstep
  | release c =>
    simp only [step] at hstep
    split at hstep
    · rename_i k x r hc
      cases hstep
      exact .release c k x r hc
    · cases hstep
  | env a =>
    obtain ⟨e, he, rfl⟩ := Option.map_eq_some_iff.mp hstep
    exact .env a e he

/-! ## Who holds the lock -/

/-- The lock's lists are the callers that hold it; an exclusive one holds it alone. -/
structure Holds (g : Guarded σ ε τ χ κ ρ) : Prop where
  readers : ∀ c, c ∈ g.readers ↔ ∃ k, (g.spot c).holds = some k ∧ O.exclusive k = false
  writer : ∀ c, g.writer = some c ↔ ∃ k, (g.spot c).holds = some k ∧ O.exclusive k = true
  alone : g.writer ≠ none → g.readers = []
  nodup : g.readers.Nodup

variable {O} {g : Guarded σ ε τ χ κ ρ} {c d : ℕ} {k j : κ}

theorem holds_start (s : σ) (e : ε) (clock : τ) : (start s e clock).Holds O where
  readers c := by simp [start, Spot.holds]
  writer c := by simp [start, Spot.holds]
  alone := by simp [start]
  nodup := List.nodup_nil

theorem Holds.eq_of_exclusive (h : g.Holds O) (hc : (g.spot c).holds = some k)
    (hk : O.exclusive k = true) (hd : (g.spot d).holds = some j) : d = c := by
  have hw : g.writer = some c := (h.writer c).mpr ⟨k, hc, hk⟩
  cases hj : O.exclusive j with
  | true =>
    have hw' : g.writer = some d := (h.writer d).mpr ⟨j, hd, hj⟩
    exact Option.some.inj (hw'.symm.trans hw)
  | false =>
    have hr : d ∈ g.readers := (h.readers d).mpr ⟨j, hd, hj⟩
    rw [h.alone (by simp [hw])] at hr
    cases hr

theorem Holds.none_of_exclusive (h : g.Holds O) (hc : (g.spot c).holds = some k)
    (hk : O.exclusive k = true) (hd : d ≠ c) : (g.spot d).holds = none := by
  cases hj : (g.spot d).holds with
  | none => rfl
  | some j => exact absurd (h.eq_of_exclusive hc hk hj) hd

theorem Holds.writer_ne (h : g.Holds O) (hc : (g.spot c).holds = some k)
    (hk : O.exclusive k = false) : g.writer ≠ some c := by
  intro hw
  obtain ⟨j, hj, hex⟩ := (h.writer c).mp hw
  obtain rfl : k = j := Option.some.inj (hc.symm.trans hj)
  rw [hk] at hex
  cases hex

theorem Holds.move (h : g.Holds O) {p : Spot σ ε χ κ ρ} (hp : p.holds = (g.spot c).holds)
    {t : Guarded σ ε τ χ κ ρ} (hs : t.spot = Function.update g.spot c p)
    (hr : t.readers = g.readers) (hw : t.writer = g.writer) : t.Holds O := by
  have hholds : ∀ d, (t.spot d).holds = (g.spot d).holds := by
    intro d
    rw [hs]
    by_cases hd : d = c
    · subst hd
      rw [Function.update_self, hp]
    · rw [Function.update_of_ne hd]
  refine ⟨fun d => ?_, fun d => ?_, ?_, hr ▸ h.nodup⟩
  · rw [hr, h.readers, hholds]
  · rw [hw, h.writer, hholds]
  · rw [hr, hw]
    exact h.alone

theorem Holds.acquired (h : g.Holds O) (hc : (g.spot c).holds = none)
    {t : Guarded σ ε τ χ κ ρ} (ht : g.acquired O c k = some t) : t.Holds O := by
  have hother : ∀ {d}, d ≠ c → Function.update g.spot c (.entered k) d = g.spot d :=
    fun hd => Function.update_of_ne hd _ _
  unfold Guarded.acquired at ht
  split_ifs at ht with hk hfree hfree
  · obtain ⟨hwriter, hreaders⟩ := hfree
    cases ht
    refine ⟨fun d => ?_, fun d => ?_, fun _ => hreaders, h.nodup⟩
    · by_cases hd : d = c
      · subst hd
        simp [Guarded.move, hreaders, Spot.holds, hk]
      · simp only [Guarded.move, hother hd]
        exact h.readers d
    · by_cases hd : d = c
      · subst hd
        simp [Guarded.move, Spot.holds, hk]
      · have hnot : ¬ some c = some d := fun hcd => hd (Option.some.inj hcd).symm
        simp only [Guarded.move, hother hd, hnot, false_iff]
        rw [← h.writer, hwriter]
        simp
  · cases ht
    have hk' : O.exclusive k = false := by simpa using hk
    refine ⟨fun d => ?_, fun d => ?_, fun hw => absurd hfree hw, ?_⟩
    · by_cases hd : d = c
      · subst hd
        simp [Guarded.move, Spot.holds, hk']
      · simp only [Guarded.move, hother hd, List.mem_cons, hd, false_or]
        exact h.readers d
    · by_cases hd : d = c
      · subst hd
        simp [Guarded.move, Spot.holds, hk', hfree]
      · simp only [Guarded.move, hother hd]
        exact h.writer d
    · refine List.nodup_cons.mpr ⟨fun hmem => ?_, h.nodup⟩
      obtain ⟨j, hj, -⟩ := (h.readers c).mp hmem
      rw [hc] at hj
      cases hj

theorem Holds.released (h : g.Holds O) (hc : (g.spot c).holds = some k) (r : ρ) :
    (g.released O c k r).Holds O := by
  have hother : ∀ {d}, d ≠ c → Function.update g.spot c (.out : Spot σ ε χ κ ρ) d = g.spot d :=
    fun hd => Function.update_of_ne hd _ _
  cases hk : O.exclusive k with
  | true =>
    have hw : g.writer = some c := (h.writer c).mpr ⟨k, hc, hk⟩
    have hempty : g.readers = [] := h.alone (by simp [hw])
    refine ⟨fun d => ?_, fun d => ?_, fun _ => ?_, ?_⟩
    · simp only [Guarded.released, hk, if_true, Guarded.move]
      by_cases hd : d = c
      · subst hd
        simp [hempty, Spot.holds]
      · rw [hother hd]
        exact h.readers d
    · simp only [Guarded.released, hk, if_true, Guarded.move]
      by_cases hd : d = c
      · subst hd
        simp [Spot.holds]
      · rw [hother hd, ← h.writer, hw]
        simp [Ne.symm hd]
    · simp [Guarded.released, hk, hempty, Guarded.move]
    · simp [Guarded.released, hk, hempty, Guarded.move]
  | false =>
    refine ⟨fun d => ?_, fun d => ?_, fun hw => ?_, ?_⟩
    · simp only [Guarded.released, hk, Bool.false_eq_true, if_false, Guarded.move,
        h.nodup.mem_erase_iff]
      by_cases hd : d = c
      · subst hd
        simp [Spot.holds]
      · rw [hother hd, ← h.readers]
        simp [hd]
    · simp only [Guarded.released, hk, Bool.false_eq_true, if_false, Guarded.move]
      by_cases hd : d = c
      · subst hd
        rw [h.writer, Function.update_self, hc]
        constructor
        · rintro ⟨j, hj, hj'⟩
          obtain rfl : k = j := Option.some.inj hj
          rw [hk] at hj'
          cases hj'
        · rintro ⟨j, hj, -⟩
          cases hj
      · rw [hother hd]
        exact h.writer d
    · simp only [Guarded.released, hk, Bool.false_eq_true, if_false, Guarded.move] at hw ⊢
      rw [h.alone hw]
      rfl
    · simp only [Guarded.released, hk, Bool.false_eq_true, if_false, Guarded.move]
      exact h.nodup.erase c

/-! ## The simulation -/

variable (O) in
/-- What a caller behind the lock has done so far, in terms of the calls performed at once: a
shared call has its answer when it looks at the clock, an exclusive one when it commits. -/
inductive Matches (s : σ) (clock : τ) : Spot σ ε χ κ ρ → Stage κ ρ → Prop where
  | out : Matches s clock .out .out
  | waiting (k : κ) : Matches s clock (.waiting k) (.pending k)
  | entered (k : κ) : Matches s clock (.entered k) (.pending k)
  | deciding {k : κ} {x : χ} {rest : Looking σ (ε → ε × Changing σ ρ)}
      (hk : O.exclusive k = true) (ht : O.time x = clock) (hf : O.fits k x s = true)
      (hr : rest.run s = (O.body k x).run s) :
      Matches s clock (.looking k x rest) (.pending k)
  | reading {k : κ} {x : χ} {rest : Looking σ (ε → ε × Changing σ ρ)} {r : ρ}
      (hk : O.exclusive k = false) (hr : ∀ e, rest.run s e = (e, .done r)) :
      Matches s clock (.looking k x rest) (.answered k r)
  | read {k : κ} {x : χ} {r : ρ} (hk : O.exclusive k = false) :
      Matches s clock (.changing k x (.done r)) (.answered k r)
  | applying {k : κ} {x : χ} {rest : Changing σ ρ} {r : ρ} (hk : O.exclusive k = true)
      (hr : (rest.run s).1 = r) : Matches s clock (.changing k x rest) (.answered k r)

/-- A caller without the lock is not touched by who has it. -/
theorem Matches.of_not_holding {s s' : σ} {clock clock' : τ} {p : Spot σ ε χ κ ρ} {q : Stage κ ρ}
    (h : Matches O s clock p q) (hp : p.holds = none) : Matches O s' clock' p q := by
  cases h with
  | out => exact .out
  | waiting k => exact .waiting k
  | _ => cases hp

/-- Nor are the calls that share it by the clock. -/
theorem Matches.of_shared {s : σ} {clock clock' : τ} {p : Spot σ ε χ κ ρ} {q : Stage κ ρ}
    (h : Matches O s clock p q) (hp : ∀ k, p.holds = some k → O.exclusive k = false) :
    Matches O s clock' p q := by
  cases h with
  | out => exact .out
  | waiting k => exact .waiting k
  | entered k => exact .entered k
  | deciding hk =>
    rw [hp _ rfl] at hk
    cases hk
  | reading hk hr => exact .reading hk hr
  | read hk => exact .read hk
  | applying hk =>
    rw [hp _ rfl] at hk
    cases hk

theorem Matches.eq_out {s : σ} {clock : τ} {q : Stage κ ρ}
    (h : Matches O s clock (.out : Spot σ ε χ κ ρ) q) : q = .out := by
  cases h
  rfl

theorem Matches.eq_pending {s : σ} {clock : τ} {p : Spot σ ε χ κ ρ} {q : Stage κ ρ}
    (h : Matches O s clock p q) (hp : p = .waiting k ∨ p = .entered k) : q = .pending k := by
  rcases hp with rfl | rfl <;> cases h <;> rfl

/-- The guarded state once the call that is changing it is through. -/
def settled (g : Guarded σ ε τ χ κ ρ) : σ :=
  match g.writer with
  | none => g.state
  | some c =>
    match g.spot c with
    | .changing _ _ rest => (rest.run g.state).2
    | _ => g.state

end Guarded

/-- The object as its callers see it. -/
def LockedObject.atomic (O : LockedObject σ ε τ χ κ ρ α) : AtomicObject (σ × ε) τ χ κ ρ α where
  time := O.time
  fits k x s := O.fits k x s.1
  run k x s :=
    let (e, changes) := (O.body k x).run s.1 s.2
    let (r, t) := changes.run s.1
    (r, t, e)
  env s a := (O.env s.2 a).map fun e => (s.1, e)

namespace Guarded

variable {O : LockedObject σ ε τ χ κ ρ α} {g t : Guarded σ ε τ χ κ ρ} {c d : ℕ} {k j : κ}

variable (O) in
/-- The state of the calls performed at once that a state behind the lock stands for. -/
structure Simulates [LinearOrder τ] (g : Guarded σ ε τ χ κ ρ)
    (a : AtomicState (σ × ε) τ κ ρ) : Prop where
  holds : g.Holds O
  state : a.state = (g.settled, g.world)
  clock : a.clock ≤ g.clock
  stage : ∀ c, Matches O g.state g.clock (g.spot c) (a.stage c)
  trace : a.trace = g.trace

theorem simulates_start [LinearOrder τ] (s : σ) (e : ε) (clock : τ) :
    (start s e clock).Simulates O (.start (s, e) clock) :=
  ⟨holds_start s e clock, rfl, le_rfl, fun _ => .out, rfl⟩

theorem settled_eq (h : ∀ c k x rest, g.writer = some c → g.spot c ≠ .changing k x rest) :
    g.settled = g.state := by
  unfold settled
  cases hw : g.writer with
  | none => rfl
  | some c =>
    dsimp only
    cases hc : g.spot c with
    | changing k x rest => exact absurd hc (h c k x rest hw)
    | _ => rfl

theorem settled_of_free (h : g.writer = none) : g.settled = g.state :=
  settled_eq (by simp [h])

theorem settled_changing {x : χ} {rest : Changing σ ρ} (hw : g.writer = some c)
    (hc : g.spot c = .changing k x rest) : g.settled = (rest.run g.state).2 := by
  simp only [settled, hw, hc]

/-- A caller that is neither about to change the state nor changing it leaves it as settled as
it was. -/
theorem settled_congr {p : Spot σ ε χ κ ρ} (hs : t.spot = Function.update g.spot c p)
    (hw : t.writer = g.writer) (hst : t.state = g.state)
    (hc : ∀ k x rest, g.writer = some c → g.spot c ≠ .changing k x rest)
    (hp : ∀ k x rest, g.writer = some c → p ≠ .changing k x rest) : t.settled = g.settled := by
  by_cases hcw : g.writer = some c
  · rw [settled_eq, settled_eq, hst]
    · intro d k x rest hd
      obtain rfl : c = d := Option.some.inj (hcw.symm.trans hd)
      exact hc k x rest hcw
    · intro d k x rest hd
      obtain rfl : c = d := Option.some.inj (hcw.symm.trans (hw ▸ hd))
      rw [hs, Function.update_self]
      exact hp k x rest hcw
  · unfold settled
    rw [hw, hst, hs]
    cases hg : g.writer with
    | none => rfl
    | some d =>
      have hd : d ≠ c := fun h => hcw (h ▸ hg)
      simp only [Function.update_of_ne hd]

theorem matches_update {s' : σ} {clock' : τ} {spot : ℕ → Spot σ ε χ κ ρ}
    {stage : ℕ → Stage κ ρ} {p : Spot σ ε χ κ ρ} {q : Stage κ ρ}
    (hc : Matches O s' clock' p q)
    (h : ∀ d, d ≠ c → Matches O s' clock' (spot d) (stage d)) (d : ℕ) :
    Matches O s' clock' (Function.update spot c p d) (Function.update stage c q d) := by
  by_cases hd : d = c
  · subst hd
    rw [Function.update_self, Function.update_self]
    exact hc
  · rw [Function.update_of_ne hd, Function.update_of_ne hd]
    exact h d hd

section Steps

variable [LinearOrder τ] {a : AtomicState (σ × ε) τ κ ρ}

variable (O) in
/-- The callers of both objects can go on to states that match. -/
def Follows (a : AtomicState (σ × ε) τ κ ρ) (t : Guarded σ ε τ χ κ ρ) : Prop :=
  ∃ ds b, runSteps (AtomicState.step O.atomic) a ds = some b ∧ t.Simulates O b

theorem follows_stutter (h : t.Simulates O a) : Follows O a t := ⟨[], a, rfl, h⟩

theorem follows_one {b : AtomicState (σ × ε) τ κ ρ} {e : AtomicEvent χ κ α}
    (hstep : a.step O.atomic e = some b) (h : t.Simulates O b) : Follows O a t :=
  ⟨[e], b, runSteps_cons_eq_some.mpr ⟨b, hstep, rfl⟩, h⟩

theorem simulates_call (h : g.Simulates O a) (hc : g.spot c = .out) (k : κ) :
    Simulates O { g.move c (.waiting k) with trace := g.trace ++ [.call c k] }
      { a with
        stage := Function.update a.stage c (.pending k), trace := a.trace ++ [.call c k] } := by
  refine ⟨h.holds.move (by rw [hc]; rfl) rfl rfl rfl, ?_, h.clock,
    matches_update (.waiting k) fun d _ => h.stage d, congrArg (· ++ _) h.trace⟩
  rw [h.state]
  congr 1
  symm
  exact settled_congr (c := c) rfl rfl rfl (by simp [hc]) (by simp)

private theorem stage_of_out (h : g.Simulates O a) (hc : g.spot c = .out) : a.stage c = .out :=
  Matches.eq_out (O := O) (hc ▸ h.stage c)

private theorem follows_call (h : g.Simulates O a) (hc : g.spot c = .out) (k : κ) :
    Follows O a { g.move c (.waiting k) with trace := g.trace ++ [.call c k] } := by
  refine follows_one (e := .call c k) ?_ (simulates_call h hc k)
  simp only [AtomicState.step, stage_of_out h hc]

private theorem follows_acquire (h : g.Simulates O a) (hc : g.spot c = .waiting k)
    (ht : g.acquired O c k = some t) : Follows O a t := by
  have hpending : a.stage c = .pending k := (h.stage c).eq_pending (.inl hc)
  have hholds := h.holds.acquired (by rw [hc]; rfl) ht
  have hstage : ∀ d, Matches O g.state g.clock
      (Function.update g.spot c (.entered k) d) (a.stage d) := by
    intro d
    rw [← Function.update_eq_self c a.stage, hpending]
    exact matches_update (.entered k) (fun d _ => h.stage d) d
  unfold acquired at ht
  split_ifs at ht with hk hfree hfree
  · cases ht
    refine follows_stutter ⟨hholds, ?_, h.clock, hstage, h.trace⟩
    rw [h.state, settled_eq, settled_eq]
    · rfl
    · rintro d j x rest hd
      cases hd
      simp [Guarded.move]
    · simp [hfree.1]
  · cases ht
    refine follows_stutter ⟨hholds, ?_, h.clock, hstage, h.trace⟩
    rw [h.state, settled_eq, settled_eq]
    · rfl
    · simp [Guarded.move, hfree]
    · simp [hfree]

/-- A shared call is performed when it looks at the clock, an exclusive one later. -/
theorem follows_enter (h : g.Simulates O a) (hc : g.spot c = .entered k) {x : χ}
    (hx : g.clock ≤ O.time x) (hf : O.fits k x g.state = true) :
    Follows O a { g.move c (.looking k x (O.body k x)) with clock := O.time x } := by
  have hpending : a.stage c = .pending k := (h.stage c).eq_pending (.inr hc)
  have hholds : Holds O { g.move c (.looking k x (O.body k x)) with clock := O.time x } :=
    h.holds.move (by rw [hc]; rfl) rfl rfl rfl
  have hsettled : Guarded.settled { g.move c (.looking k x (O.body k x)) with clock := O.time x } =
      g.settled := settled_congr (c := c) rfl rfl rfl (by simp [hc]) (by simp)
  cases hk : O.exclusive k with
  | true =>
    refine follows_stutter ⟨hholds, ?_, h.clock.trans hx, fun d => ?_, h.trace⟩
    · rw [h.state, hsettled]
      rfl
    · rw [← Function.update_eq_self c a.stage, hpending]
      refine matches_update (.deciding hk rfl hf rfl) (fun d hd => ?_) d
      exact (h.stage d).of_not_holding (h.holds.none_of_exclusive (by rw [hc]; rfl) hk hd)
  | false =>
    obtain ⟨r, hr⟩ := O.shared k x g.state hk
    have hwriter : g.writer = none := by
      by_contra hw
      have hmem : c ∈ g.readers := (h.holds.readers c).mpr ⟨k, by rw [hc]; rfl, hk⟩
      rw [h.holds.alone hw] at hmem
      cases hmem
    have hst : a.state = (g.state, g.world) := by
      rw [h.state, settled_eq]
      simp [hwriter]
    have hrun : O.atomic.run k x a.state = (r, a.state) := by
      simp only [LockedObject.atomic, hst, hr, Changing.run]
    have hstep : a.step O.atomic (.point c x) = some { a with
        clock := O.time x, stage := Function.update a.stage c (.answered k r) } := by
      have hguard : a.clock ≤ O.atomic.time x ∧ O.atomic.fits k x a.state = true := by
        refine ⟨h.clock.trans hx, ?_⟩
        rw [hst]
        exact hf
      simp only [AtomicState.step, hpending, if_pos hguard, hrun]
      rfl
    refine follows_one hstep ⟨hholds, ?_, le_rfl, ?_, h.trace⟩
    · rw [h.state, hsettled]
      rfl
    · refine matches_update (.reading hk hr) fun d _ => (h.stage d).of_shared ?_
      intro j hj
      by_contra hex
      rw [(h.holds.writer d).mpr ⟨j, hj, by simpa using hex⟩] at hwriter
      cases hwriter

private theorem follows_look (h : g.Simulates O a) {x : χ}
    {next : σ → Looking σ (ε → ε × Changing σ ρ)} (hc : g.spot c = .looking k x (.look next)) :
    Follows O a (g.move c (.looking k x (next g.state))) := by
  refine follows_stutter ⟨h.holds.move (by rw [hc]; rfl) rfl rfl rfl, ?_, h.clock, fun d => ?_,
    h.trace⟩
  · rw [h.state]
    congr 1
    symm
    exact settled_congr (c := c) rfl rfl rfl (by simp [hc]) (by simp)
  · rw [← Function.update_eq_self c a.stage]
    refine matches_update ?_ (fun d _ => h.stage d) d
    have hm := h.stage c
    rw [hc] at hm
    generalize a.stage c = q at hm ⊢
    cases hm with
    | deciding hk ht hf hr => exact .deciding hk ht hf hr
    | reading hk hr => exact .reading hk hr

/-- An exclusive call is performed when it commits. -/
theorem follows_commit_exclusive (h : g.Simulates O a) {x : χ} {f : ε → ε × Changing σ ρ}
    (hc : g.spot c = .looking k x (.done f)) (hstage : a.stage c = .pending k)
    (hk : O.exclusive k = true) (ht : O.time x = g.clock) (hf : O.fits k x g.state = true)
    (hbody : (O.body k x).run g.state = f) :
    Follows O a { g.move c (.changing k x (f g.world).2) with world := (f g.world).1 } := by
  have hw : g.writer = some c := (h.holds.writer c).mpr ⟨k, by rw [hc]; rfl, hk⟩
  have hst : a.state = (g.state, g.world) := by
    rw [h.state, settled_eq]
    rintro d j y rest hd
    obtain rfl : c = d := Option.some.inj (hw.symm.trans hd)
    simp [hc]
  have hstep : a.step O.atomic (.point c x) = some { a with
      state := (((f g.world).2.run g.state).2, (f g.world).1), clock := O.time x
      stage := Function.update a.stage c (.answered k ((f g.world).2.run g.state).1) } := by
    have hguard : a.clock ≤ O.atomic.time x ∧ O.atomic.fits k x a.state = true := by
      refine ⟨h.clock.trans ht.ge, ?_⟩
      rw [hst]
      exact hf
    simp only [AtomicState.step, hstage, if_pos hguard]
    simp only [LockedObject.atomic, hst, hbody]
  refine follows_one hstep
    ⟨h.holds.move (by rw [hc]; rfl) rfl rfl rfl, ?_, ht.le, ?_, h.trace⟩
  · refine Prod.ext ?_ rfl
    symm
    refine settled_changing (c := c) (k := k) (x := x) ?_ ?_
    · exact hw
    · exact Function.update_self _ _ _
  · refine matches_update (.applying hk rfl) fun d hd => ?_
    exact (h.stage d).of_not_holding (h.holds.none_of_exclusive (by rw [hc]; rfl) hk hd)

private theorem follows_commit_shared (h : g.Simulates O a) {x : χ} {f : ε → ε × Changing σ ρ}
    {r : ρ} (hc : g.spot c = .looking k x (.done f)) (hstage : a.stage c = .answered k r)
    (hk : O.exclusive k = false) (hdone : f g.world = (g.world, .done r)) :
    Follows O a { g.move c (.changing k x (f g.world).2) with world := (f g.world).1 } := by
  refine follows_stutter
    ⟨h.holds.move (by rw [hc]; rfl) rfl rfl rfl, ?_, h.clock, fun d => ?_, h.trace⟩
  · rw [h.state, hdone]
    congr 1
    symm
    refine settled_congr (c := c) (p := .changing k x (.done r)) rfl rfl rfl (by simp [hc]) ?_
    exact fun j y rest hw => absurd hw (h.holds.writer_ne (by rw [hc]; rfl) hk)
  · rw [← Function.update_eq_self c a.stage, hstage, hdone]
    exact matches_update (.read hk) (fun d _ => h.stage d) d

private theorem follows_commit (h : g.Simulates O a) {x : χ} {f : ε → ε × Changing σ ρ}
    (hc : g.spot c = .looking k x (.done f)) :
    Follows O a { g.move c (.changing k x (f g.world).2) with world := (f g.world).1 } := by
  have hm := h.stage c
  rw [hc] at hm
  generalize hstage : a.stage c = q at hm
  cases hm with
  | deciding hk ht hf hr => exact follows_commit_exclusive h hc hstage hk ht hf hr.symm
  | reading hk hr => exact follows_commit_shared h hc hstage hk (hr g.world)

private theorem follows_change (h : g.Simulates O a) {x : χ} {f : σ → σ} {next : σ → Changing σ ρ}
    (hc : g.spot c = .changing k x (.change f next)) :
    Follows O a { g.move c (.changing k x (next g.state)) with state := f g.state } := by
  have hm := h.stage c
  rw [hc] at hm
  generalize hstage : a.stage c = q at hm
  cases hm with
  | @applying _ _ _ r hk hr =>
    have hw : g.writer = some c := (h.holds.writer c).mpr ⟨k, by rw [hc]; rfl, hk⟩
    refine follows_stutter ⟨h.holds.move (by rw [hc]; rfl) rfl rfl rfl, ?_, h.clock, fun d => ?_,
      h.trace⟩
    · rw [h.state, settled_changing hw hc]
      congr 1
      symm
      refine settled_changing (c := c) (k := k) (x := x) ?_ ?_
      · exact hw
      · exact Function.update_self _ _ _
    · rw [← Function.update_eq_self c a.stage, hstage]
      have hr' : ((next g.state).run (f g.state)).1 = r := hr
      refine matches_update (.applying hk hr') (fun d hd => ?_) d
      exact (h.stage d).of_not_holding (h.holds.none_of_exclusive (by rw [hc]; rfl) hk hd)

theorem stage_of_done (h : g.Simulates O a) {x : χ} {r : ρ}
    (hc : g.spot c = .changing k x (.done r)) : a.stage c = .answered k r := by
  have hm := h.stage c
  rw [hc] at hm
  generalize a.stage c = q at hm
  cases hm with
  | read hk => rfl
  | applying hk hr =>
    rw [← hr]
    rfl

theorem simulates_release (h : g.Simulates O a) {x : χ} {r : ρ}
    (hc : g.spot c = .changing k x (.done r)) :
    (g.released O c k r).Simulates O
      { a with stage := Function.update a.stage c .out, trace := a.trace ++ [.answer c k r] } := by
  have hholds := h.holds.released (c := c) (k := k) (by rw [hc]; rfl) r
  refine ⟨hholds, ?_, h.clock, matches_update .out fun d _ => h.stage d, congrArg (· ++ _) h.trace⟩
  rw [h.state]
  congr 1
  cases hk : O.exclusive k with
  | true =>
    have hw : g.writer = some c := (h.holds.writer c).mpr ⟨k, by rw [hc]; rfl, hk⟩
    rw [settled_changing hw hc, settled_eq]
    · rfl
    · simp [released, hk]
  | false =>
    symm
    refine settled_congr (c := c) (p := .out) rfl ?_ rfl ?_ (by simp)
    · simp [released, hk, Guarded.move]
    · exact fun j y rest hw => absurd hw (h.holds.writer_ne (by rw [hc]; rfl) hk)

private theorem follows_release (h : g.Simulates O a) {x : χ} {r : ρ}
    (hc : g.spot c = .changing k x (.done r)) : Follows O a (g.released O c k r) := by
  refine follows_one (e := .answer c) ?_ (simulates_release h hc)
  simp only [AtomicState.step, stage_of_done h hc]

private theorem follows_env (h : g.Simulates O a) {x : α} {e : ε} (he : O.env g.world x = some e) :
    Follows O a { g with world := e } := by
  have hstep : a.step O.atomic (.env x) = some { a with state := (g.settled, e) } := by
    simp only [AtomicState.step, LockedObject.atomic, h.state, he, Option.map_some]
  exact follows_one hstep ⟨⟨h.holds.readers, h.holds.writer, h.holds.alone, h.holds.nodup⟩, rfl,
    h.clock, h.stage, h.trace⟩

/-- Whatever happens behind the lock, the calls performed at once can follow. -/
theorem follows_moves {e : GuardedEvent χ κ α} (hm : g.Moves O e t) (h : g.Simulates O a) :
    Follows O a t := by
  cases hm with
  | call c k hc => exact follows_call h hc k
  | acquire c k t hc ht => exact follows_acquire h hc ht
  | enter c k x hc hx hf => exact follows_enter h hc hx hf
  | look c k x next hc => exact follows_look h hc
  | commit c k x f hc => exact follows_commit h hc
  | change c k x f next hc => exact follows_change h hc
  | release c k x r hc => exact follows_release h hc
  | env x e he => exact follows_env h he

theorem trace_moves {e : GuardedEvent χ κ α} (hm : g.Moves O e t) (he : e.visible = false) :
    t.trace = g.trace := by
  cases hm with
  | call | release => cases he
  | acquire c k t hc ht =>
    unfold acquired at ht
    split_ifs at ht <;> cases ht <;> rfl
  | _ => rfl

/-- Every run behind the lock has the trace of a run of calls performed at once on an object that
the guarded one refines; the states are related once the writer at work, if any, is done. -/
theorem linearizes {T : Type*} {B : AtomicObject T τ χ κ ρ α} {R : τ → σ × ε → T → Prop}
    (href : O.atomic.Refines B R) {s : σ} {e : ε} {u : T} {clock : τ} (hstart : R clock (s, e) u)
    {es : List (GuardedEvent χ κ α)} (hrun : runSteps (step O) (start s e clock) es = some t) :
    ∃ ds b, runSteps (AtomicState.step B) (.start u clock) ds = some b ∧ b.trace = t.trace ∧
      b.clock ≤ t.clock ∧ R b.clock (t.settled, t.world) b.state := by
  obtain ⟨ds, a, ha, hsim⟩ := runSteps_simulates
    (fun _ _ _ _ hstep h => follows_moves (step_moves hstep) h) hrun
    (simulates_start (O := O) s e clock)
  obtain ⟨ds', b, hb, hab⟩ := href.runs ha (b := .start u clock) ⟨hstart, rfl, rfl, rfl⟩
  refine ⟨ds', b, hb, hab.trace.trans hsim.trace, hab.clock.trans_le hsim.clock, ?_⟩
  rw [hab.clock, ← hsim.state]
  exact hab.state

end Steps

end Guarded

/-! ## Invariants -/

/-- The object in a world where calls only ever meet what `P` allows. -/
def LockedObject.within (P : χ → Prop) [DecidablePred P] (O : LockedObject σ ε τ χ κ ρ α) :
    LockedObject σ ε τ χ κ ρ α :=
  { O with fits := fun k x s => O.fits k x s && decide (P x) }

namespace Guarded

variable [LinearOrder τ] {O : LockedObject σ ε τ χ κ ρ α} {g t : Guarded σ ε τ χ κ ρ}

private theorem step_within {P : χ → Prop} [DecidablePred P] {e : GuardedEvent χ κ α}
    (h : g.step O e = some t) (hP : ∀ c x, e = .enter c x → P x) :
    g.step (O.within P) e = some t := by
  cases e with
  | enter c x =>
    simp only [step] at h ⊢
    cases hc : g.spot c with
    | entered k =>
      simp only [hc] at h
      split_ifs at h with hguard
      cases h
      have hfits : (O.within P).fits k x g.state = true := by
        simp [LockedObject.within, hguard.2, hP c x rfl]
      exact if_pos ⟨hguard.1, hfits⟩
    | _ => simp [hc] at h
  | _ => exact h

private theorem run_within {P : χ → Prop} [DecidablePred P] {es : List (GuardedEvent χ κ α)}
    (hrun : runSteps (step O) g es = some t) (hP : ∀ c x, .enter c x ∈ es → P x) :
    runSteps (step (O.within P)) g es = some t := by
  induction es generalizing g with
  | nil => exact hrun
  | cons e es ih =>
    obtain ⟨u, hu, hrest⟩ := runSteps_cons_eq_some.mp hrun
    have he : ∀ c x, e = .enter c x → P x := fun c x h => hP c x (h ▸ List.mem_cons_self)
    have hes : ∀ c x, .enter c x ∈ es → P x := fun c x h => hP c x (List.mem_cons_of_mem _ h)
    exact runSteps_cons_eq_some.mpr ⟨u, step_within hu he, ih hrest hes⟩

/-- Behind the lock, a run in which calls only ever meet what `P` allows linearizes to one of calls
that do. -/
theorem linearizes_within {T : Type*} {B : AtomicObject T τ χ κ ρ α} {R : τ → σ × ε → T → Prop}
    (href : O.atomic.Refines B R) {s : σ} {e : ε} {u : T} {clock : τ} (hstart : R clock (s, e) u)
    {P : χ → Prop} [DecidablePred P] {es : List (GuardedEvent χ κ α)}
    (hP : ∀ c x, .enter c x ∈ es → P x)
    (hrun : runSteps (step O) (start s e clock) es = some t) :
    ∃ ds b, runSteps (AtomicState.step (B.within P)) (.start u clock) ds = some b ∧
      b.trace = t.trace ∧ b.clock ≤ t.clock ∧ R b.clock (t.settled, t.world) b.state :=
  linearizes (O := O.within P) (href.within P) hstart (run_within hrun hP)

end Guarded

end GoLib
