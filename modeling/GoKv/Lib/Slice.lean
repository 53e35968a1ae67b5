import GoKv.Lib.Decimal
import Mathlib.Tactic.Common

/-! Go byte slices: a length over an array whose size is the capacity. An operation that would
panic gives `none`. -/
namespace GoLib

structure Slice where
  arr : Bytes
  len : ℕ
  len_le : len ≤ arr.length

namespace Slice

def nil : Slice := ⟨[], 0, le_rfl⟩

def cap (s : Slice) : ℕ := s.arr.length

def data (s : Slice) : Bytes := s.arr.take s.len

/-- The slice expression s[:0]. -/
def clear (s : Slice) : Slice := ⟨s.arr, 0, Nat.zero_le _⟩

/-- The slice expression s[:n]. -/
def upTo (s : Slice) (n : ℕ) : Option Slice :=
  if h : n ≤ s.arr.length then some ⟨s.arr, n, h⟩ else none

/-- The bytes of the slice expression s[lo:hi]. -/
def sub (s : Slice) (lo hi : ℕ) : Option Bytes :=
  if lo ≤ hi ∧ hi ≤ s.cap then some ((s.arr.take hi).drop lo) else none

/-- The index expression s[i]. -/
def index (s : Slice) (i : ℕ) : Option UInt8 := s.data[i]?

/-- The contents copied into make([]byte, len(s), size). -/
def realloc (s : Slice) (size : ℕ) : Option Slice :=
  if h : s.len ≤ size then
    some ⟨s.data ++ List.replicate (size - s.len) 0, s.len, by
      have := s.len_le
      simp only [data, List.length_append, List.length_take, List.length_replicate]
      omega⟩
  else none

/-- The bytes from `i` on are overwritten, as far as the array reaches. -/
def store (s : Slice) (i : ℕ) (bs : Bytes) : Slice where
  arr := s.arr.take i ++ bs.take (s.arr.length - i) ++ s.arr.drop (i + bs.length)
  len := s.len
  len_le := by
    have := s.len_le
    simp only [List.length_append, List.length_take, List.length_drop]
    omega

@[simp] theorem data_clear (s : Slice) : s.clear.data = [] := by simp [clear, data]

@[simp] theorem length_data (s : Slice) : s.data.length = s.len := by
  simp [data, s.len_le]

theorem upTo_of_le {s : Slice} {n : ℕ} (h : n ≤ s.cap) : s.upTo n = some ⟨s.arr, n, h⟩ :=
  dif_pos h

theorem realloc_of_le (s : Slice) {size : ℕ} (h : s.len ≤ size) :
    ∃ t, s.realloc size = some t ∧ t.data = s.data ∧ t.len = s.len ∧ t.cap = size := by
  refine ⟨_, dif_pos h, ?_, rfl, ?_⟩
  · simp [data, s.len_le]
  · have := s.len_le
    simp only [cap, data, List.length_append, List.length_take, List.length_replicate]
    omega

@[simp] theorem cap_clear (s : Slice) : s.clear.cap = s.cap := rfl

@[simp] theorem cap_store (s : Slice) (i : ℕ) (bs : Bytes) : (s.store i bs).cap = s.cap := by
  simp only [cap, store, List.length_append, List.length_take, List.length_drop]
  omega

theorem cap_of_upTo {s t : Slice} {n : ℕ} (h : s.upTo n = some t) : t.cap = s.cap := by
  unfold upTo at h
  split_ifs at h
  cases h
  rfl

theorem len_le_cap (s : Slice) : s.len ≤ s.cap := s.len_le

/-- Storing at the old length of a slice that was extended by as much appends. -/
theorem data_store_upTo {s t : Slice} (bs : Bytes) (h : s.upTo (s.len + bs.length) = some t) :
    (t.store s.len bs).data = s.data ++ bs := by
  unfold upTo at h
  split_ifs at h with hle
  cases h
  have hs := s.len_le
  simp only [store, data, List.append_assoc]
  rw [List.take_append, List.take_append, List.take_take, List.take_take, List.length_take,
    List.length_take]
  have h1 : min (s.len + bs.length) s.len = s.len := by omega
  have h2 : s.len + bs.length - min s.len s.arr.length = bs.length := by omega
  have h3 : bs.length - min (s.arr.length - s.len) bs.length = 0 := by omega
  rw [h1, h2, h3, List.take_zero, List.append_nil]
  rw [List.take_of_length_le (by omega : bs.length ≤ min bs.length (s.arr.length - s.len))]

end Slice

end GoLib
