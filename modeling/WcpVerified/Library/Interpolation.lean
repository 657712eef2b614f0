import Mathlib

/-!
# Piecewise-linear interpolation of a table

A table gives a value at every natural number; `lerp` is the interpolation in between. For a table
that is monotone up to `n` the interpolation is monotone up to `n`.
-/

namespace Interpolation

variable {K : Type*} [Field K] [LinearOrder K] [IsStrictOrderedRing K] [FloorSemiring K]
variable (f : ℕ → K)

/-- The value at `x` of the table's piecewise-linear interpolation. -/
def lerp (x : K) : K := (1 - (x - ⌊x⌋₊)) * f ⌊x⌋₊ + (x - ⌊x⌋₊) * f ⌈x⌉₊

variable {f} {x y : K} {n : ℕ}

@[simp] theorem lerp_natCast (k : ℕ) : lerp f (k : K) = f k := by
  simp [lerp]

theorem sub_floor_nonneg (hx : 0 ≤ x) : 0 ≤ x - ⌊x⌋₊ := sub_nonneg.mpr (Nat.floor_le hx)

theorem sub_floor_lt_one (x : K) : x - ⌊x⌋₊ < 1 := by
  have := Nat.lt_floor_add_one x
  linarith

/-- The interpolation lies between the values of the table on both sides. -/
theorem lerp_between (hx : 0 ≤ x) (h : f ⌊x⌋₊ ≤ f ⌈x⌉₊) :
    f ⌊x⌋₊ ≤ lerp f x ∧ lerp f x ≤ f ⌈x⌉₊ := by
  have h0 := sub_floor_nonneg hx
  have h1 := (sub_floor_lt_one x).le
  constructor
  · calc f ⌊x⌋₊ ≤ f ⌊x⌋₊ + (x - ⌊x⌋₊) * (f ⌈x⌉₊ - f ⌊x⌋₊) :=
        le_add_of_nonneg_right (mul_nonneg h0 (sub_nonneg.mpr h))
      _ = lerp f x := by rw [lerp]; ring
  · calc lerp f x = f ⌈x⌉₊ - (1 - (x - ⌊x⌋₊)) * (f ⌈x⌉₊ - f ⌊x⌋₊) := by rw [lerp]; ring
      _ ≤ f ⌈x⌉₊ := sub_le_self _ (mul_nonneg (sub_nonneg.mpr h1) (sub_nonneg.mpr h))

theorem lerp_mono (hf : ∀ i j, i ≤ j → j ≤ n → f i ≤ f j) (hx : 0 ≤ x) (hxy : x ≤ y)
    (hy : y ≤ n) : lerp f x ≤ lerp f y := by
  have hceil : ⌈y⌉₊ ≤ n := Nat.ceil_le.mpr hy
  have hxc : ⌈x⌉₊ ≤ n := (Nat.ceil_mono hxy).trans hceil
  have hfl : ⌊y⌋₊ ≤ n := (Nat.floor_le_ceil y).trans hceil
  by_cases hcell : ⌈x⌉₊ ≤ ⌊y⌋₊
  · -- there is a point of the table in between
    calc lerp f x ≤ f ⌈x⌉₊ := (lerp_between hx (hf _ _ (Nat.floor_le_ceil x) hxc)).2
      _ ≤ f ⌊y⌋₊ := hf _ _ hcell hfl
      _ ≤ lerp f y := (lerp_between (hx.trans hxy) (hf _ _ (Nat.floor_le_ceil y) hceil)).1
  · -- both lie in the same piece
    have hlt : ⌊y⌋₊ < ⌈x⌉₊ := not_le.mp hcell
    have hfloor : ⌊x⌋₊ = ⌊y⌋₊ := by
      have hle := Nat.floor_mono hxy
      have hub := Nat.ceil_le_floor_add_one x
      omega
    have hcc : ⌈x⌉₊ = ⌈y⌉₊ := by
      have hle := Nat.ceil_mono hxy
      have hub := Nat.ceil_le_floor_add_one y
      omega
    have hd : f ⌊y⌋₊ ≤ f ⌈y⌉₊ := hf _ _ (Nat.floor_le_ceil y) hceil
    rw [lerp, lerp, hfloor, hcc]
    nlinarith [mul_nonneg (sub_nonneg.mpr hxy) (sub_nonneg.mpr hd)]

/-- Exchanging the two weights changes the value unless they are equal or the values are. -/
theorem lerp_exchanged_iff :
    f ⌊x⌋₊ * (x - ⌊x⌋₊) + f ⌈x⌉₊ * (1 - (x - ⌊x⌋₊)) = lerp f x ↔
      x - ⌊x⌋₊ = 1 / 2 ∨ f ⌊x⌋₊ = f ⌈x⌉₊ := by
  rw [lerp]
  constructor
  · intro h
    have hprod : (2 * (x - ⌊x⌋₊) - 1) * (f ⌊x⌋₊ - f ⌈x⌉₊) = 0 := by linear_combination h
    rcases mul_eq_zero.mp hprod with ha | hf
    · left
      linarith
    · right
      linarith
  · rintro (ha | hf)
    · rw [ha]
      ring
    · rw [hf]
      ring

/-- In a monotone table the interpolation has reached a later value only if the value before `x`
has. -/
theorem lerp_eq_top_iff (hx : 0 ≤ x) (hlow : f ⌊x⌋₊ ≤ f ⌈x⌉₊) (hhigh : f ⌈x⌉₊ ≤ f n) :
    lerp f x = f n ↔ f ⌊x⌋₊ = f n := by
  have h1 := sub_floor_lt_one x
  have h0 := sub_floor_nonneg hx
  constructor
  · intro h
    rw [lerp] at h
    refine le_antisymm (hlow.trans hhigh) ?_
    by_contra hlt
    have hgap : 0 < (1 - (x - ⌊x⌋₊)) * (f n - f ⌊x⌋₊) :=
      mul_pos (sub_pos.mpr h1) (sub_pos.mpr (not_le.mp hlt))
    have hrest : 0 ≤ (x - ⌊x⌋₊) * (f n - f ⌈x⌉₊) := mul_nonneg h0 (sub_nonneg.mpr hhigh)
    linarith
  · intro h
    have hc : f ⌈x⌉₊ = f n := le_antisymm hhigh (h ▸ hlow)
    rw [lerp, h, hc]
    ring

end Interpolation
