import Mathlib

/-!
# Fixed-width machine arithmetic on `Nat` and `Int`

Unsigned 64-bit subtraction and the conversions to 32-bit integers, as C++ defines them: everything
is modulo `2 ^ w`. The lemmas say when an operation is exact.
-/

namespace MachineWord

/-- `a - b` on `uint64_t` (and `size_t`). -/
def subU64 (a b : ℕ) : ℕ := (a + (2 ^ 64 - b % 2 ^ 64)) % 2 ^ 64

/-- `a--` on a `uint64_t` counter that never overflows: below 0 it wraps. -/
def decU64 (a : ℕ) : ℕ := if a = 0 then 2 ^ 64 - 1 else a - 1

/-- `a + b` on `uint64_t`. -/
def addU64 (a b : ℕ) : ℕ := (a + b) % 2 ^ 64

/-- The conversion of a 64-bit integer to `unsigned int`. -/
def toU32 (x : ℤ) : ℕ := (x % 2 ^ 32).toNat

/-- The conversion of an `unsigned int` to `__s32`. -/
def toS32 (x : ℕ) : ℤ := if x % 2 ^ 32 < 2 ^ 31 then (x % 2 ^ 32 : ℕ) else (x % 2 ^ 32 : ℕ) - 2 ^ 32

/-- `std::numeric_limits<__s32>::max()`. -/
def s32Max : ℤ := 2 ^ 31 - 1

theorem subU64_of_le {a b : ℕ} (hb : b ≤ a) (ha : a < 2 ^ 64) : subU64 a b = a - b := by
  unfold subU64
  rw [Nat.mod_eq_of_lt (by omega : b < 2 ^ 64)]
  omega

theorem decU64_of_pos {a : ℕ} (h : 0 < a) : decU64 a = a - 1 := if_neg h.ne'

theorem addU64_of_lt {a b : ℕ} (h : a + b < 2 ^ 64) : addU64 a b = a + b :=
  Nat.mod_eq_of_lt h

/-- Truncation never makes a non-negative number larger. -/
theorem toU32_le {x : ℤ} {n : ℕ} (h : x ≤ n) (h0 : 0 ≤ x) : toU32 x ≤ n := by
  unfold toU32
  omega

theorem toU32_of_lt {x : ℤ} (h0 : 0 ≤ x) (h : x < 2 ^ 32) : toU32 x = x.toNat := by
  unfold toU32
  rw [Int.emod_eq_of_lt h0 h]

end MachineWord
