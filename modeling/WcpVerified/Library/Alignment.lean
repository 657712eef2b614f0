import Mathlib

/-!
# Rounding to multiples

`alignDown a n` and `alignUp a n` are the multiples of `a` next to `n`.
-/

namespace Alignment

variable {a m n : ℕ}

/-- The largest multiple of `a` that is at most `n`. -/
def alignDown (a n : ℕ) : ℕ := n / a * a

/-- The smallest multiple of `a` that is at least `n`. -/
def alignUp (a n : ℕ) : ℕ := if n % a ≠ 0 then (n / a + 1) * a else n

theorem alignDown_le (a n : ℕ) : alignDown a n ≤ n := Nat.div_mul_le_self n a

theorem dvd_alignDown (a n : ℕ) : a ∣ alignDown a n := Nat.dvd_mul_left a (n / a)

theorem lt_alignDown_add (ha : 0 < a) (n : ℕ) : n < alignDown a n + a := by
  have := Nat.lt_mul_div_succ n ha
  rwa [Nat.mul_add, Nat.mul_one, Nat.mul_comm] at this

theorem alignDown_of_dvd (h : a ∣ n) : alignDown a n = n := Nat.div_mul_cancel h

theorem le_alignDown (h : a ∣ m) (hle : m ≤ n) : m ≤ alignDown a n := by
  rw [← alignDown_of_dvd h]
  exact Nat.mul_le_mul_right a (Nat.div_le_div_right hle)

/-- Between two multiples there is no other. -/
theorem alignDown_eq (h : a ∣ m) (hle : m ≤ n) (hlt : n < m + a) : alignDown a n = m := by
  have hge := le_alignDown h hle
  by_contra hne
  have hdvd : a ∣ alignDown a n - m := Nat.dvd_sub (dvd_alignDown a n) h
  have := Nat.le_of_dvd (by omega) hdvd
  have := alignDown_le a n
  omega

theorem alignUp_of_dvd (h : a ∣ n) : alignUp a n = n :=
  if_neg (not_not.mpr (Nat.mod_eq_zero_of_dvd h))

theorem alignUp_of_not_dvd (h : ¬ a ∣ n) : alignUp a n = alignDown a n + a := by
  rw [alignUp, if_pos fun hc => h (Nat.dvd_of_mod_eq_zero hc), Nat.add_mul, Nat.one_mul]
  rfl

theorem dvd_alignUp (a n : ℕ) : a ∣ alignUp a n := by
  by_cases h : a ∣ n
  · rw [alignUp_of_dvd h]; exact h
  · rw [alignUp_of_not_dvd h]; exact Nat.dvd_add (dvd_alignDown a n) (Nat.dvd_refl a)

theorem lt_alignUp (ha : 0 < a) (h : ¬ a ∣ n) : n < alignUp a n := by
  rw [alignUp_of_not_dvd h]
  exact lt_alignDown_add ha n

theorem le_alignUp (ha : 0 < a) (n : ℕ) : n ≤ alignUp a n := by
  by_cases h : a ∣ n
  · rw [alignUp_of_dvd h]
  · exact (lt_alignUp ha h).le

theorem alignUp_lt (ha : 0 < a) (n : ℕ) : alignUp a n < n + a := by
  by_cases h : a ∣ n
  · rw [alignUp_of_dvd h]
    omega
  · have hne : alignDown a n ≠ n := fun hc => h (hc ▸ dvd_alignDown a n)
    have := alignDown_le a n
    rw [alignUp_of_not_dvd h]
    omega

theorem alignUp_le (h : a ∣ m) (hle : n ≤ m) : alignUp a n ≤ m := by
  by_cases hn : a ∣ n
  · rw [alignUp_of_dvd hn]; exact hle
  · rw [alignUp_of_not_dvd hn]
    have hlt : alignDown a n < m := by
      refine lt_of_le_of_ne ((alignDown_le a n).trans hle) fun hc => hn ?_
      have := alignDown_le a n
      have heq : n = m := by omega
      rw [heq]
      exact h
    have := Nat.le_of_dvd (by omega) (Nat.dvd_sub h (dvd_alignDown a n))
    omega

theorem alignUp_mono (ha : 0 < a) (h : m ≤ n) : alignUp a m ≤ alignUp a n :=
  alignUp_le (dvd_alignUp a n) (h.trans (le_alignUp ha n))

/-- Rounding commutes with a shift by a multiple. -/
theorem alignUp_add (h : a ∣ m) (ha : 0 < a) (n : ℕ) : alignUp a (m + n) = m + alignUp a n := by
  refine le_antisymm (alignUp_le (Nat.dvd_add h (dvd_alignUp a n)) ?_) ?_
  · have := le_alignUp ha n
    omega
  · have hle := le_alignUp ha (m + n)
    have := alignUp_le (n := n) (Nat.dvd_sub (dvd_alignUp a (m + n)) h) (by omega)
    omega

/-- Rounding up by adding and rounding down. -/
theorem alignDown_add_pred (ha : 0 < a) (n : ℕ) : alignDown a (n + a - 1) = alignUp a n := by
  have hle := le_alignUp ha n
  have hlt := alignUp_lt ha n
  exact alignDown_eq (dvd_alignUp a n) (by omega) (by omega)

/-- Rounding down to a power of two by a mask of `w` bits. -/
theorem and_mask {w k x : ℕ} (hk : k ≤ w) (hx : x < 2 ^ w) :
    x &&& (2 ^ w - 2 ^ k) = alignDown (2 ^ k) x := by
  have hmask : 2 ^ w - 2 ^ k = (2 ^ (w - k) - 1) * 2 ^ k := by
    rw [Nat.sub_mul, Nat.one_mul, ← pow_add, Nat.sub_add_cancel hk]
  apply Nat.eq_of_testBit_eq
  intro i
  rw [hmask, alignDown, Nat.testBit_and, Nat.testBit_mul_two_pow, Nat.testBit_mul_two_pow,
    Nat.testBit_two_pow_sub_one, Nat.testBit_div_two_pow]
  by_cases hki : k ≤ i
  · rw [decide_eq_true hki, Bool.true_and, Bool.true_and, Nat.sub_add_cancel hki]
    by_cases hiw : i < w
    · rw [decide_eq_true (by omega : i - k < w - k), Bool.and_true]
    · have hzero : x.testBit i = false :=
        Nat.testBit_lt_two_pow (hx.trans_le (Nat.pow_le_pow_right (by decide) (by omega)))
      rw [hzero, Bool.false_and]
  · rw [decide_eq_false hki, Bool.false_and, Bool.false_and, Bool.and_false]

end Alignment
