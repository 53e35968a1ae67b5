import Mathlib.Data.Int.Basic
import Mathlib.Tactic.Linarith

/-! Instants and durations of package time. An instant is an integer, its nanoseconds since the
Unix epoch; a Duration is an int64 number of nanoseconds. -/
namespace GoLib

abbrev Duration := Int64

/-- `time.Time{}`: the first instant of year 1. -/
def zeroTime : ℤ := -62135596800 * 10 ^ 9

def timeAdd (t : ℤ) (d : Duration) : ℤ := t + d.toInt

/-- The difference of two instants, saturating at the ends of Duration. -/
def timeSub (t u : ℤ) : Duration :=
  if t - u < Int64.minValue.toInt then Int64.minValue
  else if Int64.maxValue.toInt < t - u then Int64.maxValue
  else Int64.ofInt (t - u)

/-- Milliseconds since the epoch, rounded down, in int64 arithmetic. -/
def unixMilli (t : ℤ) : Int64 := Int64.ofInt (t / 10 ^ 6)

def ofUnixMilli (ms : Int64) : ℤ := ms.toInt * 10 ^ 6

def floorMilli (t : ℤ) : ℤ := t / 10 ^ 6 * 10 ^ 6

/-- A reading of the wall clock. Adding any Duration stays where UnixMilli is documented to be
exact, within 292 million years of the epoch. -/
structure Reading where
  now : ℤ
  lower : -2 ^ 63 * 10 ^ 6 + 2 ^ 63 ≤ now
  upper : now < 2 ^ 63 * 10 ^ 6 - 2 ^ 63

theorem floorMilli_le (t : ℤ) : floorMilli t ≤ t := by
  unfold floorMilli
  omega

/-- A deadline that is `d` after a reading of the clock survives UnixMilli, rounded down. -/
theorem ofUnixMilli_unixMilli_timeAdd (r : Reading) (d : Duration) :
    ofUnixMilli (unixMilli (timeAdd r.now d)) = floorMilli (timeAdd r.now d) := by
  have hl := r.lower
  have hu := r.upper
  have hlo := Int64.le_toInt d
  have hhi := Int64.toInt_lt d
  unfold ofUnixMilli unixMilli floorMilli timeAdd
  rw [Int64.toInt_ofInt_of_le (by omega) (by omega)]

/-- An instant that is a whole number of int64 milliseconds is exact. -/
theorem unixMilli_ofUnixMilli (ms : Int64) : unixMilli (ofUnixMilli ms) = ms := by
  unfold unixMilli ofUnixMilli
  rw [Int.mul_ediv_cancel _ (by norm_num), Int64.ofInt_toInt]

theorem floorMilli_ofUnixMilli (ms : Int64) : floorMilli (ofUnixMilli ms) = ofUnixMilli ms := by
  unfold floorMilli ofUnixMilli
  rw [Int.mul_ediv_cancel _ (by norm_num)]

end GoLib
