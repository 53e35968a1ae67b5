import Mathlib.Data.List.AList
import GoKv.Lib.Decimal
import GoKv.Lib.Time

/-! Scan sessions: the snapshots SCAN continues from. A session is reached through its cursor,
which every page replaces, and is dropped when it has not been used for a while. -/
namespace GoKv
open GoLib

structure ScanRequest where
  cursor : ℕ
  pattern : Bytes
  patternSet : Bool
  count : ℕ
  deriving DecidableEq

structure ScanResult where
  cursor : ℕ
  keys : List Bytes
  deriving DecidableEq

/-- `other` is any error SCAN does not name, such as a token source that failed. -/
inductive ScanErr where
  | invalidCursor
  | sessionLimit
  | matchChanged
  | other
  deriving DecidableEq

/-! ## Sizes -/

def maxUint64 : ℕ := 2 ^ 64 - 1

def addUint64 (a b : ℕ) : ℕ := (a + b) % 2 ^ 64

def subUint64 (a b : ℕ) : ℕ := (a + (2 ^ 64 - b)) % 2 ^ 64

def scanStringBytes : ℕ := 16

def scanSessionOverhead : ℕ := 64

def scanSaturatingAdd (a b : ℕ) : ℕ :=
  if maxUint64 - a < b then maxUint64 else addUint64 a b

def scanSaturatingMultiply (a b : ℕ) : ℕ :=
  if a ≠ 0 ∧ maxUint64 / a < b then maxUint64 else a * b % 2 ^ 64

def scanSessionRetainedBytes (keyCapacity keyBytes patternBytes : ℕ) : ℕ :=
  let stringHeaders := scanSaturatingMultiply keyCapacity scanStringBytes
  let total := scanSaturatingAdd stringHeaders keyBytes
  let total := scanSaturatingAdd total patternBytes
  scanSaturatingAdd total scanSessionOverhead

/-- A slice of keys and the capacity of the array it lies in. -/
@[ext]
structure KeySlice where
  list : List Bytes
  cap : ℕ
  len_le : list.length ≤ cap

def scanSessionBytes (keys : KeySlice) (pattern : Bytes) : ℕ :=
  let keyBytes := keys.list.foldl (fun n key => scanSaturatingAdd n key.length) 0
  scanSessionRetainedBytes keys.cap keyBytes pattern.length

def scanPageEnd (start length count : ℕ) : ℕ :=
  if length - start ≤ count then length else start + count

/-! ## The manager -/

structure ScanLimits where
  ttl : Duration
  maxSessions : ℤ
  maxBytes : ℕ
  maxBytes_le : maxBytes ≤ maxUint64

def defaultScanSessionLimits : ScanLimits where
  ttl := 30000000000
  maxSessions := 16
  maxBytes := 128 * 2 ^ 20
  maxBytes_le := by decide

structure ScanSession where
  keys : KeySlice
  pattern : Bytes
  position : ℕ
  lastUsed : ℤ
  bytes : ℕ
  token : ℕ

structure ScanManager where
  sessions : AList fun _ : ℕ => ScanSession
  bytes : ℕ
  limits : ScanLimits

def ScanSession.fresh (limits : ScanLimits) (now : ℤ) (s : ScanSession) : Bool :=
  now < timeAdd s.lastUsed limits.ttl

namespace ScanManager

def new (limits : ScanLimits) : ScanManager := ⟨∅, 0, limits⟩

def clear (m : ScanManager) : ScanManager := { m with sessions := ∅, bytes := 0 }

def removeLocked (m : ScanManager) (token : ℕ) (s : ScanSession) : ScanManager :=
  { m with sessions := m.sessions.erase token, bytes := subUint64 m.bytes s.bytes }

def expireOne (now : ℤ) (m : ScanManager) (token : ℕ) : ScanManager :=
  match m.sessions.lookup token with
  | none => m
  | some s => if s.fresh m.limits now then m else m.removeLocked token s

/-- `order` is the order the table is iterated in. -/
def expireLocked (m : ScanManager) (now : ℤ) (order : List ℕ) : ScanManager :=
  order.foldl (expireOne now) m

/-- `draws` are the answers of the token source. There is no result while the loop goes on. -/
def nextTokenLocked (m : ScanManager) : List (Option ℕ) → Option (Except ScanErr ℕ)
  | [] => none
  | none :: _ => some (.error .other)
  | some token :: draws =>
    if token = 0 then m.nextTokenLocked draws
    else if token ∈ m.sessions then m.nextTokenLocked draws
    else some (.ok token)

def start (m : ScanManager) (keys : KeySlice) (pattern : Bytes) (count : ℕ) (now : ℤ)
    (order : List ℕ) (draws : List (Option ℕ)) :
    Option (ScanManager × Except ScanErr ScanResult) :=
  let m := m.expireLocked now order
  let stop := scanPageEnd 0 keys.list.length count
  let page := keys.list.take stop
  if stop = keys.list.length then some (m, .ok ⟨0, page⟩)
  else
    let retainedBytes := scanSessionBytes keys pattern
    if m.limits.maxSessions ≤ m.sessions.entries.length ∨ m.limits.maxBytes < retainedBytes ∨
        m.limits.maxBytes - retainedBytes < m.bytes then
      some (m, .error .sessionLimit)
    else
      match m.nextTokenLocked draws with
      | none => none
      | some (.error e) => some (m, .error e)
      | some (.ok token) =>
        let session : ScanSession := ⟨keys, pattern, stop, now, retainedBytes, token⟩
        some ({ m with
          sessions := m.sessions.insert token session
          bytes := addUint64 m.bytes retainedBytes }, .ok ⟨token, page⟩)

def next (m : ScanManager) (cursor : ℕ) (pattern : Bytes) (patternSet : Bool) (count : ℕ)
    (now : ℤ) (order : List ℕ) (draws : List (Option ℕ)) :
    Option (ScanManager × Except ScanErr ScanResult) :=
  let m := m.expireLocked now order
  match m.sessions.lookup cursor with
  | none => some (m, .error .invalidCursor)
  | some session =>
    if patternSet ∧ pattern ≠ session.pattern then some (m, .error .matchChanged)
    else
      let stop := scanPageEnd session.position session.keys.list.length count
      let page := (session.keys.list.take stop).drop session.position
      if stop = session.keys.list.length then
        some (m.removeLocked cursor session, .ok ⟨0, page⟩)
      else
        match m.nextTokenLocked draws with
        | none => none
        | some (.error e) => some (m, .error e)
        | some (.ok replacement) =>
          let session := { session with position := stop, lastUsed := now, token := replacement }
          some ({ m with sessions := (m.sessions.erase cursor).insert replacement session },
            .ok ⟨replacement, page⟩)

end ScanManager

/-! ## Calls -/

/-- A call, with the order the table is iterated in and the answers of the token source. -/
inductive ScanCall where
  | start (keys : KeySlice) (pattern : Bytes) (count : ℕ) (now : ℤ) (order : List ℕ)
      (draws : List (Option ℕ))
  | next (cursor : ℕ) (pattern : Bytes) (patternSet : Bool) (count : ℕ) (now : ℤ)
      (order : List ℕ) (draws : List (Option ℕ))
  | clear

/-- A call that returned; clear returns nothing. -/
structure ScanEntry where
  call : ScanCall
  result : Option (Except ScanErr ScanResult)

def ScanManager.step (m : ScanManager) : ScanCall → Option (ScanManager × ScanEntry)
  | .start keys pattern count now order draws =>
    if order.Perm m.sessions.keys then
      (m.start keys pattern count now order draws).map fun (m, res) =>
        (m, ⟨.start keys pattern count now order draws, some res⟩)
    else none
  | .next cursor pattern patternSet count now order draws =>
    if order.Perm m.sessions.keys then
      (m.next cursor pattern patternSet count now order draws).map fun (m, res) =>
        (m, ⟨.next cursor pattern patternSet count now order draws, some res⟩)
    else none
  | .clear => some (m.clear, ⟨.clear, none⟩)

/-- The calls of any number of clients, one after the other, with what they returned. -/
inductive ScanRuns : ScanManager → List ScanEntry → ScanManager → Prop where
  | nil (m : ScanManager) : ScanRuns m [] m
  | cons {m m' m'' : ScanManager} {e : ScanEntry} {log : List ScanEntry}
      (step : m.step e.call = some (m', e)) (rest : ScanRuns m' log m'') :
      ScanRuns m (e :: log) m''

/-! ## What a call does -/

namespace ScanManager

variable {m m' : ScanManager}

@[simp] theorem limits_expireOne (now : ℤ) (m : ScanManager) (token : ℕ) :
    (expireOne now m token).limits = m.limits := by
  unfold expireOne
  cases m.sessions.lookup token with
  | none => rfl
  | some s => dsimp only; split_ifs <;> rfl

@[simp] theorem limits_expireLocked (m : ScanManager) (now : ℤ) (order : List ℕ) :
    (m.expireLocked now order).limits = m.limits := by
  unfold expireLocked
  induction order generalizing m with
  | nil => rfl
  | cons token order ih => rw [List.foldl_cons, ih, limits_expireOne]

private theorem lookup_expireOne {now : ℤ} {token c : ℕ} {s : ScanSession} :
    (expireOne now m token).sessions.lookup c = some s ↔
      m.sessions.lookup c = some s ∧ (c = token → s.fresh m.limits now = true) := by
  unfold expireOne
  by_cases hc : c = token
  · subst hc
    cases hs : m.sessions.lookup c with
    | none => simp [hs]
    | some s' =>
      by_cases hf : s'.fresh m.limits now = true
      · simp only [hf, if_true, hs, Option.some.injEq, true_implies]
        constructor
        · rintro rfl; exact ⟨rfl, hf⟩
        · exact And.left
      · simp only [hf, Bool.false_eq_true, if_false, removeLocked, AList.lookup_erase,
          Option.some.injEq, true_implies, reduceCtorEq, false_iff]
        rintro ⟨rfl, hf'⟩
        exact hf hf'
  · cases m.sessions.lookup token with
    | none => simp [hc]
    | some s' =>
      dsimp only
      split_ifs
      · simp [hc]
      · simp [hc, removeLocked, AList.lookup_erase_ne hc]

/-- After the loop over `order` the sessions met on the way are fresh, and no others are gone. -/
theorem lookup_foldl_expireOne {now : ℤ} {order : List ℕ} {c : ℕ} {s : ScanSession} :
    (order.foldl (expireOne now) m).sessions.lookup c = some s ↔
      m.sessions.lookup c = some s ∧ (c ∈ order → s.fresh m.limits now = true) := by
  induction order generalizing m with
  | nil => simp
  | cons token order ih =>
    rw [List.foldl_cons, ih, lookup_expireOne, limits_expireOne, List.mem_cons, or_imp, and_assoc]

theorem lookup_expireLocked {now : ℤ} {order : List ℕ} (h : order.Perm m.sessions.keys) {c : ℕ}
    {s : ScanSession} :
    (m.expireLocked now order).sessions.lookup c = some s ↔
      m.sessions.lookup c = some s ∧ s.fresh m.limits now = true := by
  rw [expireLocked, lookup_foldl_expireOne]
  refine and_congr_right fun hs => ⟨fun hf => hf ?_, fun hf _ => hf⟩
  rw [h.mem_iff, ← AList.mem_keys, ← AList.lookup_isSome, hs]
  rfl

theorem nextTokenLocked_ok {draws : List (Option ℕ)} {token : ℕ}
    (h : m.nextTokenLocked draws = some (.ok token)) : token ≠ 0 ∧ token ∉ m.sessions := by
  induction draws with
  | nil => cases h
  | cons d draws ih =>
    cases d with
    | none => cases h
    | some t =>
      rw [nextTokenLocked] at h
      split_ifs at h with hz hmem
      · exact ih h
      · exact ih h
      · cases h
        exact ⟨hz, hmem⟩

theorem start_isSome {keys : KeySlice} {pattern : Bytes} {count : ℕ} {now : ℤ} {order : List ℕ}
    {draws : List (Option ℕ)}
    (h : ((m.expireLocked now order).nextTokenLocked draws).isSome = true) :
    (m.start keys pattern count now order draws).isSome = true := by
  obtain ⟨res, hres⟩ := Option.isSome_iff_exists.mp h
  simp only [start, hres]
  split_ifs
  · rfl
  · rfl
  · cases res <;> rfl

theorem next_isSome {cursor : ℕ} {pattern : Bytes} {patternSet : Bool} {count : ℕ} {now : ℤ}
    {order : List ℕ} {draws : List (Option ℕ)}
    (h : ((m.expireLocked now order).nextTokenLocked draws).isSome = true) :
    (m.next cursor pattern patternSet count now order draws).isSome = true := by
  obtain ⟨res, hres⟩ := Option.isSome_iff_exists.mp h
  simp only [next, hres]
  cases (m.expireLocked now order).sessions.lookup cursor with
  | none => rfl
  | some session =>
    dsimp only
    split_ifs
    · rfl
    · rfl
    · cases res <;> rfl

inductive Moves (m : ScanManager) : ScanCall → ScanManager → Option (Except ScanErr ScanResult) →
    Prop where
  /-- The first page is the whole list. -/
  | whole {keys : KeySlice} {pattern : Bytes} {count : ℕ} {now : ℤ} {order : List ℕ}
      {draws : List (Option ℕ)} (ho : order.Perm m.sessions.keys)
      (hstop : scanPageEnd 0 keys.list.length count = keys.list.length) :
      Moves m (.start keys pattern count now order draws) (m.expireLocked now order)
        (some (.ok ⟨0, keys.list⟩))
  /-- A session is refused. -/
  | refused {keys : KeySlice} {pattern : Bytes} {count : ℕ} {now : ℤ} {order : List ℕ}
      {draws : List (Option ℕ)} {e : ScanErr} (ho : order.Perm m.sessions.keys) :
      Moves m (.start keys pattern count now order draws) (m.expireLocked now order)
        (some (.error e))
  /-- A session is opened. -/
  | opened {keys : KeySlice} {pattern : Bytes} {count : ℕ} {now : ℤ} {order : List ℕ}
      {draws : List (Option ℕ)} {token : ℕ} (ho : order.Perm m.sessions.keys)
      (hstop : scanPageEnd 0 keys.list.length count ≠ keys.list.length)
      (hsize : ((m.expireLocked now order).sessions.entries.length : ℤ) < m.limits.maxSessions)
      (hbytes : scanSessionBytes keys pattern ≤ m.limits.maxBytes)
      (hroom : (m.expireLocked now order).bytes ≤
        m.limits.maxBytes - scanSessionBytes keys pattern)
      (hz : token ≠ 0) (hnew : token ∉ (m.expireLocked now order).sessions) :
      Moves m (.start keys pattern count now order draws)
        { m.expireLocked now order with
          sessions := (m.expireLocked now order).sessions.insert token
            ⟨keys, pattern, scanPageEnd 0 keys.list.length count, now,
              scanSessionBytes keys pattern, token⟩
          bytes := addUint64 (m.expireLocked now order).bytes (scanSessionBytes keys pattern) }
        (some (.ok ⟨token, keys.list.take (scanPageEnd 0 keys.list.length count)⟩))
  /-- A continuation is refused. -/
  | failed {cursor : ℕ} {pattern : Bytes} {patternSet : Bool} {count : ℕ} {now : ℤ}
      {order : List ℕ} {draws : List (Option ℕ)} {e : ScanErr}
      (ho : order.Perm m.sessions.keys)
      (hcursor : (m.expireLocked now order).sessions.lookup cursor = none →
        e = .invalidCursor) :
      Moves m (.next cursor pattern patternSet count now order draws) (m.expireLocked now order)
        (some (.error e))
  /-- The last page of a session. -/
  | finished {cursor : ℕ} {pattern : Bytes} {patternSet : Bool} {count : ℕ} {now : ℤ}
      {order : List ℕ} {draws : List (Option ℕ)} {s : ScanSession}
      (ho : order.Perm m.sessions.keys)
      (hs : (m.expireLocked now order).sessions.lookup cursor = some s)
      (hstop : scanPageEnd s.position s.keys.list.length count = s.keys.list.length) :
      Moves m (.next cursor pattern patternSet count now order draws)
        ((m.expireLocked now order).removeLocked cursor s)
        (some (.ok ⟨0, s.keys.list.drop s.position⟩))
  /-- A page of a session that goes on under a new cursor. -/
  | turned {cursor : ℕ} {pattern : Bytes} {patternSet : Bool} {count : ℕ} {now : ℤ}
      {order : List ℕ} {draws : List (Option ℕ)} {s : ScanSession} {token : ℕ}
      (ho : order.Perm m.sessions.keys)
      (hs : (m.expireLocked now order).sessions.lookup cursor = some s)
      (hstop : scanPageEnd s.position s.keys.list.length count ≠ s.keys.list.length)
      (hz : token ≠ 0) (hnew : token ∉ (m.expireLocked now order).sessions) :
      Moves m (.next cursor pattern patternSet count now order draws)
        { m.expireLocked now order with
          sessions := ((m.expireLocked now order).sessions.erase cursor).insert token
            { s with
              position := scanPageEnd s.position s.keys.list.length count
              lastUsed := now
              token := token } }
        (some (.ok ⟨token,
          (s.keys.list.take (scanPageEnd s.position s.keys.list.length count)).drop s.position⟩))
  | cleared : Moves m .clear m.clear none

theorem moves_start {keys : KeySlice} {pattern : Bytes} {count : ℕ} {now : ℤ} {order : List ℕ}
    {draws : List (Option ℕ)} {res : Except ScanErr ScanResult} (ho : order.Perm m.sessions.keys)
    (h : m.start keys pattern count now order draws = some (m', res)) :
    Moves m (.start keys pattern count now order draws) m' (some res) := by
  unfold start at h
  dsimp only at h
  split_ifs at h with hstop hlimit
  · cases h
    rw [hstop, List.take_length]
    exact .whole ho hstop
  · cases h
    exact .refused ho
  · rw [limits_expireLocked] at hlimit
    obtain ⟨hsize, hbytes, hroom⟩ := not_or.mp hlimit |>.imp_right not_or.mp
    cases htok : (m.expireLocked now order).nextTokenLocked draws with
    | none => simp [htok] at h
    | some r =>
      cases r with
      | error e =>
        simp only [htok, Option.some.injEq, Prod.mk.injEq] at h
        obtain ⟨rfl, rfl⟩ := h
        exact .refused ho
      | ok token =>
        simp only [htok, Option.some.injEq, Prod.mk.injEq] at h
        obtain ⟨rfl, rfl⟩ := h
        obtain ⟨hz, hnew⟩ := nextTokenLocked_ok htok
        exact .opened ho hstop (not_le.mp hsize) (not_lt.mp hbytes) (not_lt.mp hroom) hz hnew

private theorem moves_next {cursor : ℕ} {pattern : Bytes} {patternSet : Bool} {count : ℕ} {now : ℤ}
    {order : List ℕ} {draws : List (Option ℕ)} {res : Except ScanErr ScanResult}
    (ho : order.Perm m.sessions.keys)
    (h : m.next cursor pattern patternSet count now order draws = some (m', res)) :
    Moves m (.next cursor pattern patternSet count now order draws) m' (some res) := by
  unfold next at h
  dsimp only at h
  cases hs : (m.expireLocked now order).sessions.lookup cursor with
  | none =>
    simp only [hs, Option.some.injEq, Prod.mk.injEq] at h
    obtain ⟨rfl, rfl⟩ := h
    exact .failed ho fun _ => rfl
  | some s =>
    have hne : ∀ e : ScanErr, (m.expireLocked now order).sessions.lookup cursor = none →
        e = .invalidCursor := fun e hc => by rw [hs] at hc; cases hc
    simp only [hs] at h
    split_ifs at h with hpat hstop
    · cases h
      exact .failed ho (hne _)
    · cases h
      rw [hstop, List.take_length]
      exact .finished ho hs hstop
    · cases htok : (m.expireLocked now order).nextTokenLocked draws with
      | none => simp [htok] at h
      | some r =>
        cases r with
        | error e =>
          simp only [htok, Option.some.injEq, Prod.mk.injEq] at h
          obtain ⟨rfl, rfl⟩ := h
          exact .failed ho (hne _)
        | ok token =>
          simp only [htok, Option.some.injEq, Prod.mk.injEq] at h
          obtain ⟨rfl, rfl⟩ := h
          obtain ⟨hz, hnew⟩ := nextTokenLocked_ok htok
          exact .turned ho hs hstop hz hnew

theorem moves_of_step {c : ScanCall} {e : ScanEntry} (h : m.step c = some (m', e)) :
    Moves m c m' e.result := by
  cases c with
  | start keys pattern count now order draws =>
    rw [step] at h
    split_ifs at h with ho
    obtain ⟨⟨m₁, res⟩, hres, heq⟩ := Option.map_eq_some_iff.mp h
    cases heq
    exact moves_start ho hres
  | next cursor pattern patternSet count now order draws =>
    rw [step] at h
    split_ifs at h with ho
    obtain ⟨⟨m₁, res⟩, hres, heq⟩ := Option.map_eq_some_iff.mp h
    cases heq
    exact moves_next ho hres
  | clear =>
    cases h
    exact .cleared

end ScanManager

theorem ScanRuns.append_iff {m m' : ScanManager} {pre post : List ScanEntry} :
    ScanRuns m (pre ++ post) m' ↔ ∃ u, ScanRuns m pre u ∧ ScanRuns u post m' := by
  induction pre generalizing m with
  | nil =>
    constructor
    · intro h
      exact ⟨m, .nil m, h⟩
    · rintro ⟨u, hu, h⟩
      cases hu
      exact h
  | cons e pre ih =>
    constructor
    · rintro (_ | ⟨step, rest⟩)
      obtain ⟨u, hpre, hpost⟩ := ih.mp rest
      exact ⟨u, .cons step hpre, hpost⟩
    · rintro ⟨u, _ | ⟨step, rest⟩, hpost⟩
      exact .cons step (ih.mpr ⟨u, rest, hpost⟩)

end GoKv
