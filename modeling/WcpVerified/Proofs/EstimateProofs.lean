import WcpVerified.ETACalculator
import WcpVerified.Library.Interpolation

/-!
# Proofs: the speed estimate against the bucket table

`getEta` blends the two buckets next to eight times the ratio, but gives each the weight of the other.
Its result is compared with the piecewise-linear interpolation of the table, which is monotone, lies
between the neighbours and meets the table at its points.
-/

namespace Wcp

namespace ETACalculator

open MachineWord Interpolation

variable {c c₁ c₂ : ETACalculator}

/-- The table of speeds. -/
def speed (c : ETACalculator) (k : ℕ) : ℚ :=
  if h : k < 9 then c.copySpeedBuckets[k].bytesPerSecond else 0

/-- Eight times the share of big copies. -/
def position (c : ETACalculator) : ℚ :=
  (c.bigCopiesRemaining : ℚ) / (c.bigCopiesRemaining + c.smallCopiesRemaining) * 8

/-- Every bucket has enough samples, and the speeds do not fall. -/
structure Filled (c : ETACalculator) : Prop where
  samples : ∀ k (h : k < 9), 20 < c.copySpeedBuckets[k].sampleCount
  mono : ∀ i j, i ≤ j → j ≤ 8 → c.speed i ≤ c.speed j

/-- There are copies left, and the counters are `size_t`. -/
structure Remaining (c : ETACalculator) : Prop where
  some_left : ¬ (c.bigCopiesRemaining = 0 ∧ c.smallCopiesRemaining = 0)
  big_lt : c.bigCopiesRemaining < 2 ^ 64
  small_lt : c.smallCopiesRemaining < 2 ^ 64

/-! ## The ratio -/

theorem Remaining.sum_pos (h : Remaining c) :
    (0 : ℚ) < c.bigCopiesRemaining + c.smallCopiesRemaining := by
  have hpos : 0 < c.bigCopiesRemaining + c.smallCopiesRemaining := by
    have := h.some_left
    omega
  exact_mod_cast hpos

theorem Remaining.position_nonneg (h : Remaining c) : 0 ≤ c.position :=
  mul_nonneg (div_nonneg (Nat.cast_nonneg _) h.sum_pos.le) (by norm_num)

theorem Remaining.ratio_le_one (h : Remaining c) :
    (c.bigCopiesRemaining : ℚ) / (c.bigCopiesRemaining + c.smallCopiesRemaining) ≤ 1 := by
  rw [div_le_one h.sum_pos]
  have : (0 : ℚ) ≤ c.smallCopiesRemaining := Nat.cast_nonneg _
  linarith

theorem Remaining.position_le (h : Remaining c) : c.position ≤ (8 : ℕ) := by
  have := h.ratio_le_one
  rw [position]
  push_cast
  linarith

/-- Without overflow the clamp does nothing. -/
theorem Remaining.val_eq (h : Remaining c)
    (hsum : c.bigCopiesRemaining + c.smallCopiesRemaining < 2 ^ 64) : c.val = c.position := by
  have hne : ¬ c.bigCopiesRemaining + c.smallCopiesRemaining = 0 := by
    have := h.some_left
    omega
  have h0 : (0 : ℚ) ≤ (c.bigCopiesRemaining : ℚ) / (c.bigCopiesRemaining + c.smallCopiesRemaining) :=
    div_nonneg (Nat.cast_nonneg _) h.sum_pos.le
  simp only [val, addU64_of_lt hsum, if_neg hne, Nat.cast_add]
  rw [min_eq_right h.ratio_le_one, max_eq_right h0, position]
  rfl

/-- A sum that has wrapped is smaller than the number of big copies, so that the clamp cuts the ratio
to 1. -/
theorem Remaining.val_of_overflow (h : Remaining c)
    (hsum : ¬ c.bigCopiesRemaining + c.smallCopiesRemaining < 2 ^ 64) : c.val = (8 : ℕ) := by
  have hwrap : addU64 c.bigCopiesRemaining c.smallCopiesRemaining ≤ c.bigCopiesRemaining := by
    have := h.small_lt
    have := h.big_lt
    unfold addU64
    omega
  rw [val]
  by_cases h0 : addU64 c.bigCopiesRemaining c.smallCopiesRemaining = 0
  · simp only [if_pos h0, one_mul]
    rfl
  · have hpos : (0 : ℚ) < addU64 c.bigCopiesRemaining c.smallCopiesRemaining := by
      exact_mod_cast Nat.pos_of_ne_zero h0
    have hge : (1 : ℚ) ≤
        c.bigCopiesRemaining / addU64 c.bigCopiesRemaining c.smallCopiesRemaining := by
      rw [one_le_div hpos]
      exact_mod_cast hwrap
    simp only [if_neg h0]
    rw [min_eq_left hge, max_eq_right zero_le_one, one_mul]
    rfl

theorem Remaining.val_bounds (h : Remaining c) : 0 ≤ c.val ∧ c.val ≤ (8 : ℕ) := by
  by_cases hsum : c.bigCopiesRemaining + c.smallCopiesRemaining < 2 ^ 64
  · rw [h.val_eq hsum]
    exact ⟨h.position_nonneg, h.position_le⟩
  · rw [h.val_of_overflow hsum]
    exact ⟨Nat.cast_nonneg 8, le_refl _⟩

/-! ## What is computed -/

theorem bucket_natCast {k : ℕ} (h : k < 9) : c.bucket k = some c.copySpeedBuckets[k] := by
  rw [bucket, if_pos (Int.natCast_nonneg k), Int.toNat_natCast]
  exact Vector.getElem?_eq_getElem h

theorem speed_eq {k : ℕ} (h : k < 9) : c.speed k = c.copySpeedBuckets[k].bytesPerSecond := dif_pos h

/-- `calculate` with enough samples: the lower bucket has the weight of the upper one, and the upper
one that of the lower. -/
theorem calculate_eq (hf : Filled c) (hr : Remaining c) {threshold : ℕ} (ht : threshold ≤ 20) :
    c.calculate threshold = some (c.speed ⌊c.val⌋₊ * (c.val - ⌊c.val⌋₊) +
      c.speed ⌈c.val⌉₊ * (1 - (c.val - ⌊c.val⌋₊))) := by
  obtain ⟨h0, h8⟩ := hr.val_bounds
  have hhigh : ⌈c.val⌉₊ < 9 := Nat.lt_succ_of_le (Nat.ceil_le.mpr h8)
  have hlow : ⌊c.val⌋₊ < 9 := (Nat.floor_le_ceil _).trans_lt hhigh
  have hs1 := hf.samples _ hlow
  have hs2 := hf.samples _ hhigh
  rw [calculate, ← Int.natCast_floor_eq_floor h0, ← Int.natCast_ceil_eq_ceil h0,
    bucket_natCast hlow, bucket_natCast hhigh, speed_eq hlow, speed_eq hhigh]
  simp only [Option.bind_eq_bind, Option.bind_some, gt_iff_lt]
  rw [if_pos ⟨by omega, by omega⟩]
  simp

theorem getEta_eq (hf : Filled c) (hr : Remaining c) :
    c.getEta = some (c.speed ⌊c.val⌋₊ * (c.val - ⌊c.val⌋₊) +
      c.speed ⌈c.val⌉₊ * (1 - (c.val - ⌊c.val⌋₊))) := by
  rw [getEta, if_neg hr.some_left, calculate_eq hf hr (Nat.le_refl 20),
    calculate_eq hf hr (by decide : 1 ≤ 20)]
  simp

/-! ## The table -/

/-- Two estimates over one table follow it: in the order of the ratios, each between the speeds of
its neighbours, equal to a bucket's speed at that bucket, and each the interpolation of the table. -/
def FollowTable (c₁ c₂ : ETACalculator) : Prop :=
  ∃ e₁ e₂, c₁.getEta = some e₁ ∧ c₂.getEta = some e₂ ∧ (c₁.position ≤ c₂.position → e₁ ≤ e₂) ∧
    (c₁.speed ⌊c₁.position⌋₊ ≤ e₁ ∧ e₁ ≤ c₁.speed ⌈c₁.position⌉₊) ∧
    (c₂.speed ⌊c₂.position⌋₊ ≤ e₂ ∧ e₂ ≤ c₂.speed ⌈c₂.position⌉₊) ∧
    (∀ k : ℕ, c₁.position = k → e₁ = c₁.speed k) ∧ (∀ k : ℕ, c₂.position = k → e₂ = c₂.speed k) ∧
    e₁ = lerp c₁.speed c₁.position ∧ e₂ = lerp c₂.speed c₂.position

/-- The weights do not matter: they are equal, or the two speeds are. When the sum of the counters
overflows, the speed is already that of the last bucket. -/
def WeightsDoNotMatter (c : ETACalculator) : Prop :=
  if c.bigCopiesRemaining + c.smallCopiesRemaining < 2 ^ 64 then
    c.position - ⌊c.position⌋₊ = 1 / 2 ∨ c.speed ⌊c.position⌋₊ = c.speed ⌈c.position⌉₊
  else c.speed ⌊c.position⌋₊ = c.speed 8

theorem ceil_position_le (hr : Remaining c) : ⌈c.position⌉₊ ≤ 8 := Nat.ceil_le.mpr hr.position_le

theorem neighbours_le (hf : Filled c) (hr : Remaining c) :
    c.speed ⌊c.position⌋₊ ≤ c.speed ⌈c.position⌉₊ :=
  hf.mono _ _ (Nat.floor_le_ceil _) (ceil_position_le hr)

/-- The estimate is the interpolation exactly when the weights do not matter. -/
theorem getEta_eq_lerp_iff (hf : Filled c) (hr : Remaining c) :
    c.getEta = some (lerp c.speed c.position) ↔ c.WeightsDoNotMatter := by
  rw [getEta_eq hf hr, Option.some.injEq, WeightsDoNotMatter]
  by_cases hsum : c.bigCopiesRemaining + c.smallCopiesRemaining < 2 ^ 64
  · rw [if_pos hsum, hr.val_eq hsum]
    exact lerp_exchanged_iff
  · have htop : c.speed ⌈c.position⌉₊ ≤ c.speed 8 := hf.mono _ _ (ceil_position_le hr) (le_refl 8)
    rw [if_neg hsum, hr.val_of_overflow hsum, ← lerp_eq_top_iff hr.position_nonneg
      (neighbours_le hf hr) htop, Nat.floor_natCast, Nat.ceil_natCast, sub_self, mul_zero, sub_zero,
      mul_one, zero_add]
    exact eq_comm

/-- The interpolation follows the table. -/
theorem followTable_of_lerp (hf : Filled c₁) (hr₁ : Remaining c₁) (hr₂ : Remaining c₂)
    (htable : c₁.copySpeedBuckets = c₂.copySpeedBuckets)
    (h₁ : c₁.getEta = some (lerp c₁.speed c₁.position))
    (h₂ : c₂.getEta = some (lerp c₂.speed c₂.position)) : FollowTable c₁ c₂ := by
  have hspeed : c₂.speed = c₁.speed := by
    funext k
    rw [speed, speed, htable]
  refine ⟨_, _, h₁, h₂, fun hle => ?_, lerp_between hr₁.position_nonneg (neighbours_le hf hr₁), ?_,
    fun k hk => ?_, fun k hk => ?_, rfl, rfl⟩
  · rw [hspeed]
    exact lerp_mono hf.mono hr₁.position_nonneg hle hr₂.position_le
  · rw [hspeed]
    exact lerp_between hr₂.position_nonneg (hf.mono _ _ (Nat.floor_le_ceil _) (ceil_position_le hr₂))
  · rw [hk, lerp_natCast]
  · rw [hk, lerp_natCast]

/-- Two estimates over one table follow it exactly when for neither the weights matter. -/
theorem follow_table_iff (hf₁ : Filled c₁) (hf₂ : Filled c₂)
    (htable : c₁.copySpeedBuckets = c₂.copySpeedBuckets) (hr₁ : Remaining c₁) (hr₂ : Remaining c₂) :
    FollowTable c₁ c₂ ↔ c₁.WeightsDoNotMatter ∧ c₂.WeightsDoNotMatter := by
  rw [← getEta_eq_lerp_iff hf₁ hr₁, ← getEta_eq_lerp_iff hf₂ hr₂]
  constructor
  · rintro ⟨e₁, e₂, he₁, he₂, -, -, -, -, -, hl₁, hl₂⟩
    exact ⟨hl₁ ▸ he₁, hl₂ ▸ he₂⟩
  · rintro ⟨h₁, h₂⟩
    exact followTable_of_lerp hf₁ hr₁ hr₂ htable h₁ h₂

/-- A table whose speeds grow by 100, with `big` and `small` copies left. -/
def evenTable (big small : ℕ) : ETACalculator where
  copySpeedBuckets := Vector.ofFn fun i => ⟨100 * (i.val : ℚ), 21⟩
  bigCopiesRemaining := big
  smallCopiesRemaining := small

theorem evenTable_filled (big small : ℕ) : Filled (evenTable big small) where
  samples k h := by simp [evenTable]
  mono i j hij hj := by
    rw [speed_eq (by omega), speed_eq (by omega)]
    simp only [evenTable, Vector.getElem_ofFn]
    have : (i : ℚ) ≤ j := by exact_mod_cast hij
    linarith

/-- At bucket 1 and in the middle between buckets 1 and 2. -/
theorem follow_table_midpoint : FollowTable (evenTable 2 14) (evenTable 3 13) := by
  refine (follow_table_iff (evenTable_filled 2 14) (evenTable_filled 3 13) rfl
    ⟨by decide, by decide, by decide⟩ ⟨by decide, by decide, by decide⟩).mpr ⟨?_, ?_⟩
  · right
    decide +kernel
  · left
    decide +kernel

/-- One copy in 32 is big, then two are: the estimate falls from 75 to 50, where the interpolation
rises from 25 to 50. -/
theorem estimate_falls : Filled (evenTable 1 31) ∧ Filled (evenTable 2 30) ∧
    (evenTable 1 31).position ≤ (evenTable 2 30).position ∧
    (evenTable 1 31).getEta = some 75 ∧ (evenTable 2 30).getEta = some 50 ∧
    ¬ FollowTable (evenTable 1 31) (evenTable 2 30) := by
  have h₁ : (evenTable 1 31).getEta = some 75 := by decide +kernel
  have h₂ : (evenTable 2 30).getEta = some 50 := by decide +kernel
  have hpos : (evenTable 1 31).position ≤ (evenTable 2 30).position := by decide +kernel
  refine ⟨evenTable_filled 1 31, evenTable_filled 2 30, hpos, h₁, h₂, ?_⟩
  rintro ⟨e₁, e₂, he₁, he₂, hmono, -⟩
  rw [h₁] at he₁
  rw [h₂] at he₂
  cases he₁
  cases he₂
  exact absurd (hmono hpos) (by norm_num)

end ETACalculator

end Wcp
