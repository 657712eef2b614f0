import Mathlib

/-!
# Shift registers

A register of `w` bits, as a number below `2 ^ w`. Bits are shifted in at the low end, and what is
shifted out at the high end is lost: the register holds the last `w` bits.
-/

namespace ShiftRegister

variable {w x : ℕ} {b : Bool} {bits : List Bool}

/-- The register after a bit is shifted in. -/
def shiftIn (w x : ℕ) (b : Bool) : ℕ := (2 * x + b.toNat) % 2 ^ w

/-- The register holds the last `w` of the bits, of which the last one is the first of the list, and
zeros where there are none. -/
structure Holds (w x : ℕ) (bits : List Bool) : Prop where
  lt : x < 2 ^ w
  testBit : ∀ j < w, x.testBit j = bits[j]?.getD false

theorem holds_zero (w : ℕ) : Holds w 0 [] where
  lt := Nat.two_pow_pos w
  testBit j _ := by simp

theorem Holds.shiftIn (h : Holds w x bits) (b : Bool) : Holds w (shiftIn w x b) (b :: bits) where
  lt := Nat.mod_lt _ (Nat.two_pow_pos w)
  testBit j hj := by
    rw [ShiftRegister.shiftIn, Nat.testBit_mod_two_pow, decide_eq_true hj, Bool.true_and]
    cases j with
    | zero => cases b <;> simp [Nat.testBit_zero, Nat.add_mod]
    | succ j =>
      have hhalf : (2 * x + b.toNat) / 2 = x := by
        have := Bool.toNat_lt b
        omega
      rw [Nat.testBit_add_one, hhalf, h.testBit j (by omega)]
      rfl

/-- The number of ones in the low `k` bits. -/
def ones (x k : ℕ) : ℕ := (List.range k).countP x.testBit

theorem ones_succ (x k : ℕ) : ones x (k + 1) = x % 2 + ones (x / 2) k := by
  have hshift : (List.range k).countP (x.testBit ∘ Nat.succ) = ones (x / 2) k := by
    apply List.countP_congr
    intro j _
    rw [Function.comp_apply, Nat.testBit_succ]
  rw [ones, List.range_succ_eq_map, List.countP_cons, List.countP_map, hshift, Nat.testBit_zero,
    Nat.add_comm]
  congr 1
  by_cases h : x % 2 = 1
  · simp [h]
  · have h0 : x % 2 = 0 := by omega
    simp [h0]

@[simp] theorem ones_zero (k : ℕ) : ones 0 k = 0 := by
  simp [ones, List.countP_eq_zero]

/-- Only the low `k` bits count when the others are cut off. -/
theorem ones_mod_two_pow (x : ℕ) {k n : ℕ} (h : k ≤ n) : ones (x % 2 ^ k) n = ones x k := by
  obtain ⟨m, rfl⟩ := Nat.exists_eq_add_of_le h
  rw [ones, List.range_add, List.countP_append]
  have hlow : (List.range k).countP (x % 2 ^ k).testBit = ones x k := by
    apply List.countP_congr
    intro j hj
    rw [Nat.testBit_mod_two_pow, decide_eq_true (List.mem_range.mp hj), Bool.true_and]
  have hhigh : ((List.range m).map (k + ·)).countP (x % 2 ^ k).testBit = 0 := by
    rw [List.countP_eq_zero]
    intro j hj
    obtain ⟨i, -, rfl⟩ := List.mem_map.mp hj
    simp [Nat.testBit_mod_two_pow]
  rw [hlow, hhigh, Nat.add_zero]

/-- Among the low bits there are as many ones as among the last bits that were shifted in. -/
theorem Holds.ones_eq (h : Holds w x bits) {k : ℕ} (hk : k ≤ w) :
    ones x k = (bits.take k).count true := by
  have hcongr : ones x k = (List.range k).countP fun j => bits[j]?.getD false := by
    apply List.countP_congr
    intro j hj
    rw [h.testBit j (by have := List.mem_range.mp hj; omega)]
  rw [hcongr]
  clear h hcongr hk
  induction k generalizing bits with
  | zero => simp
  | succ k ih =>
    cases bits with
    | nil => simp
    | cons b bits =>
      rw [List.range_succ_eq_map, List.countP_cons, List.countP_map, List.take_succ_cons,
        List.count_cons, ← ih]
      cases b <;> rfl

end ShiftRegister
