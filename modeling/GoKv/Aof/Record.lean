import GoKv.Lib.Time
import GoKv.Resp.Writer

/-! Canonical effect records and their encoding. -/
namespace GoKv.Aof
open GoLib GoKv.Resp

/-- One canonical effect. A set carries its absolute expiry in Unix milliseconds, if it has
one; a del carries every key of the originating command. -/
inductive Record where
  | set (key value : Bytes) (expireAtMS : Option Int64)
  | del (keys : List Bytes)
  deriving DecidableEq

/-- The effect of any mutation that leaves a key holding a value. -/
def deriveSet (key value : Bytes) (deadline : ℤ) (hasTTL : Bool) : Record :=
  .set key value (if hasTTL then some (unixMilli deadline) else none)

def deriveDel (keys : List Bytes) : Record := .del keys

def verbSet : Bytes := ascii ['S', 'E', 'T']
def verbDel : Bytes := ascii ['D', 'E', 'L']
def optPXAT : Bytes := ascii ['P', 'X', 'A', 'T']

def encode : Record → Except String Bytes
  | .set key value none =>
    .ok (writeArrayHeader 3 ++ writeBulk verbSet ++ writeBulk key ++ writeBulk value)
  | .set key value (some ms) =>
    .ok (writeArrayHeader 5 ++ writeBulk verbSet ++ writeBulk key ++ writeBulk value ++
      writeBulk optPXAT ++ writeBulk (formatInt ms.toInt))
  | .del [] => .error "DEL record with no keys"
  | .del keys =>
    .ok (writeArrayHeader (keys.length + 1 : ℕ) ++ writeBulk verbDel ++
      (keys.map writeBulk).flatten)

def Record.parts : Record → List Bytes
  | .set key value none => [verbSet, key, value]
  | .set key value (some ms) => [verbSet, key, value, optPXAT, formatInt ms.toInt]
  | .del keys => verbDel :: keys

/-- A record the codec writes: not a del without keys. -/
def Record.Writable (r : Record) : Prop := r ≠ .del []

instance : DecidablePred Record.Writable := fun r => inferInstanceAs (Decidable (r ≠ .del []))

def Record.bytes (r : Record) : Bytes := writeCommand r.parts

def encodes (rs : List Record) : Bytes := (rs.map Record.bytes).flatten

theorem encode_eq (r : Record) (h : r.Writable) : encode r = .ok r.bytes := by
  unfold Record.bytes writeCommand
  rcases r with ⟨key, value, _ | ms⟩ | ⟨_ | ⟨k, ks⟩⟩
  · simp [encode, Record.parts]
  · simp [encode, Record.parts]
  · exact absurd rfl h
  · simp [encode, Record.parts]

theorem writable_of_encode {r : Record} {bs : Bytes} (h : encode r = .ok bs) : r.Writable := by
  rintro rfl
  cases h

theorem Record.bytes_ne_nil (r : Record) : r.bytes ≠ [] := by
  simp [Record.bytes, writeCommand, writeArrayHeader]

theorem deriveSet_writable (key value : Bytes) (deadline : ℤ) (hasTTL : Bool) :
    (deriveSet key value deadline hasTTL).Writable := by
  simp [Record.Writable, deriveSet]

@[simp] theorem encodes_nil : encodes [] = [] := rfl

@[simp] theorem encodes_append (rs ts : List Record) :
    encodes (rs ++ ts) = encodes rs ++ encodes ts := by
  simp [encodes]

@[simp] theorem encodes_cons (r : Record) (rs : List Record) :
    encodes (r :: rs) = r.bytes ++ encodes rs := rfl

theorem prefix_encodes_take (rs : List Record) (n : ℕ) : encodes (rs.take n) <+: encodes rs :=
  ⟨encodes (rs.drop n), by rw [← encodes_append, List.take_append_drop]⟩

theorem prefix_encodes_take_take (rs : List Record) {m n : ℕ} (h : m ≤ n) :
    encodes (rs.take m) <+: encodes (rs.take n) := by
  have := prefix_encodes_take (rs.take n) m
  rwa [List.take_take, Nat.min_eq_left h] at this

end GoKv.Aof
