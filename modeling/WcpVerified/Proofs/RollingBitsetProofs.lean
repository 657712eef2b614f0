import WcpVerified.ETACalculator
import WcpVerified.Library.ShiftRegister

/-!
# Proofs: `RollingBitset` is a history of 56 bits

The word is a count in the top byte and a shift register of 56 bits below it (`Represents`). What
`addToBuff` puts in place of a word represents one bit more, whichever thread's exchange succeeds.
-/

namespace Wcp

namespace RollingBitset

open ShiftRegister

/-- The word is made of how many bits there are, 56 at most, and of the last 56 of them. -/
def Represents (val : ℕ) (added : List Bool) : Prop :=
  ∃ x, Holds 56 x added ∧ val = min added.length 56 * 2 ^ 56 + x

variable {val c x : ℕ} {added : List Bool}

theorem getCount_word (hc : c < 256) (hx : x < 2 ^ 56) : getCount (c * 2 ^ 56 + x) = c := by
  have hshift : (c * 2 ^ 56 + x) >>> 56 = c := by
    rw [Nat.shiftRight_eq_div_pow]
    omega
  show ((c * 2 ^ 56 + x) &&& 0xFF00000000000000) >>> 56 = c
  rw [Nat.shiftRight_and_distrib, hshift]
  show c &&& (2 ^ 8 - 1) = c
  rw [Nat.and_two_pow_sub_one_eq_mod, Nat.mod_eq_of_lt hc]

theorem getSet_default (hx : x < 2 ^ 56) : getSet (c * 2 ^ 56 + x) defaultMask = x := by
  have hmask : defaultMask = 2 ^ 56 - 1 := rfl
  rw [getSet, hmask, Nat.and_two_pow_sub_one_eq_mod]
  omega

/-- The low part of the new word: the register after one more bit, without what was shifted out. -/
theorem low_part (c x : ℕ) (b : Bool) :
    (((c * 2 ^ 56 + x) <<< 1) % 2 ^ 64 ||| b.toNat) &&& 0x00FFFFFFFFFFFFFF = shiftIn 56 x b := by
  have hb : b.toNat < 2 ^ 1 := Bool.toNat_lt b
  have heven : ((c * 2 ^ 56 + x) <<< 1) % 2 ^ 64 = ((c * 2 ^ 56 + x) % 2 ^ 63) <<< 1 := by
    rw [Nat.shiftLeft_eq, Nat.shiftLeft_eq]
    omega
  rw [heven, ← Nat.shiftLeft_add_eq_or_of_lt hb, Nat.shiftLeft_eq]
  show _ &&& (2 ^ 56 - 1) = _
  rw [Nat.and_two_pow_sub_one_eq_mod, shiftIn]
  omega

theorem newVal_word (hc : c ≤ 56) (hx : x < 2 ^ 56) (b : Bool) :
    newVal (c * 2 ^ 56 + x) b = min (c + 1) 56 * 2 ^ 56 + shiftIn 56 x b := by
  have hcount : ((c * 2 ^ 56 + x) &&& 0xFF00000000000000) >>> (8 * 7) = c :=
    getCount_word (by omega) hx
  have hlow : shiftIn 56 x b < 2 ^ 56 := Nat.mod_lt _ (by decide)
  have hcap : (if c + 1 > 8 * 7 then 8 * 7 else c + 1) = min (c + 1) 56 := by
    split <;> omega
  have hhigh : (min (c + 1) 56 <<< (8 * 7)) % 2 ^ 64 = min (c + 1) 56 <<< 56 := by
    rw [Nat.shiftLeft_eq]
    omega
  rw [newVal, hcount, low_part c x b, hcap, hhigh, Nat.or_comm,
    ← Nat.shiftLeft_add_eq_or_of_lt hlow, Nat.shiftLeft_eq]

/-- One bit more. -/
theorem Represents.newVal (h : Represents val added) (b : Bool) :
    Represents (newVal val b) (b :: added) := by
  obtain ⟨x, hx, rfl⟩ := h
  refine ⟨_, hx.shiftIn b, ?_⟩
  rw [newVal_word (Nat.min_le_right _ _) hx.lt]
  congr 2
  rw [List.length_cons]
  omega

theorem represents_zero : Represents 0 [] := ⟨0, holds_zero 56, rfl⟩

/-! ## Runs of the threads -/

/-- What a step can do: a thread moves on, or its exchange succeeds. -/
theorem step_cases {s s' : State} {l : Label} (h : step s l = some s') :
    (s'.atomicBuffer = s.atomicBuffer ∧ s'.added = s.added) ∨
      ∃ b, s'.atomicBuffer = newVal s.atomicBuffer b ∧ s'.added = b :: s.added := by
  cases l with
  | call thread b =>
    rw [step] at h
    split at h
    · cases h
      exact .inl ⟨rfl, rfl⟩
    · cases h
  | step thread =>
    rw [step] at h
    split at h
    · cases h
    · cases h
      exact .inl ⟨rfl, rfl⟩
    · rename_i b oldVal _
      by_cases heq : s.atomicBuffer = oldVal
      · rw [if_pos heq] at h
        cases h
        exact .inr ⟨b, heq ▸ rfl, rfl⟩
      · rw [if_neg heq] at h
        cases h
        exact .inl ⟨rfl, rfl⟩

/-- The word represents the bits whose exchanges have succeeded, in that order. -/
theorem reachable_represents {s : State} (h : system.Reachable s) :
    Represents s.atomicBuffer s.added := by
  apply h.invariant
  · intro s hs
    rw [show s = fresh from hs]
    exact represents_zero
  · intro s l s' _ hrep _ hstep
    rcases step_cases hstep with ⟨hbuf, hadd⟩ | ⟨b, hbuf, hadd⟩
    · rw [hbuf, hadd]
      exact hrep
    · rw [hbuf, hadd]
      exact hrep.newVal b

/-! ## What is read -/

theorem Represents.lt (h : Represents val added) : val < 2 ^ 64 := by
  obtain ⟨x, hx, rfl⟩ := h
  have := hx.lt
  omega

theorem Represents.getCount (h : Represents val added) : getCount val = min added.length 56 := by
  obtain ⟨x, hx, rfl⟩ := h
  exact getCount_word (by omega) hx.lt

theorem Represents.getSet (h : Represents val added) : Holds 56 (getSet val defaultMask) added := by
  obtain ⟨x, hx, rfl⟩ := h
  rw [getSet_default hx.lt]
  exact hx

/-- The loop of `getBitsOnCount` counts the ones. -/
theorem countLoop (n count tmp : ℕ) (h : tmp < 2 ^ n) :
    WhileLoop.run (fun p : ℕ × ℕ => p.2 != 0) (fun p => (p.1 + (p.2 &&& 1), p.2 >>> 1)) (n + 1)
      (count, tmp) = some (count + ones tmp n, 0) := by
  induction n generalizing count tmp with
  | zero =>
    have h0 : tmp = 0 := by simpa using h
    rw [WhileLoop.run, h0]
    simp
  | succ n ih =>
    rw [WhileLoop.run]
    by_cases h0 : tmp = 0
    · rw [h0]
      simp
    · have hcond : ((count, tmp).2 != 0) = true := by simpa using h0
      have hhalf : tmp / 2 < 2 ^ n := by
        rw [pow_succ] at h
        omega
      rw [if_pos hcond, Nat.and_one_is_mod, Nat.shiftRight_one, ih _ _ hhalf, ones_succ,
        Nat.add_assoc]

theorem getBitsOnCount_ones {val : ℕ} (h : val < 2 ^ 64) (mask : ℕ) :
    getBitsOnCount val mask = some (ones (RollingBitset.getSet val mask) 64) := by
  have hlt : RollingBitset.getSet val mask < 2 ^ 64 := Nat.and_le_left.trans_lt h
  rw [getBitsOnCount, countLoop 64 0 _ hlt, Nat.zero_add]
  rfl

/-- For every mask, the ones of the word that the mask selects are counted. -/
theorem getBitsOnCount_eq {val : ℕ} (h : val < 2 ^ 64) (mask : ℕ) :
    getBitsOnCount val mask =
      some ((List.range 64).countP fun p => val.testBit p && mask.testBit p) := by
  rw [getBitsOnCount_ones h]
  congr 1
  apply List.countP_congr
  intro p _
  rw [RollingBitset.getSet, Nat.testBit_and]

/-- With the mask of `updateSpeedEstimate` these are the last eight bits. -/
theorem Represents.getBitsOnCount_mask (h : Represents val added) :
    getBitsOnCount val ETACalculator.BITSET_MASK = some ((added.take 8).count true) := by
  have hset : RollingBitset.getSet val ETACalculator.BITSET_MASK = val % 2 ^ 8 :=
    Nat.and_two_pow_sub_one_eq_mod val 8
  rw [getBitsOnCount_ones h.lt, hset, ones_mod_two_pow _ (by decide)]
  obtain ⟨x, hx, rfl⟩ := h
  -- the count does not reach down to the last eight bits
  have hlow : ones (min added.length 56 * 2 ^ 56 + x) 8 = ones x 8 := by
    rw [← ones_mod_two_pow _ (Nat.le_refl 8), ← ones_mod_two_pow x (Nat.le_refl 8)]
    congr 1
    omega
  rw [hlow, hx.ones_eq (by decide)]

/-- The bucket that `updateSpeedEstimate` changes is in the array. -/
theorem Represents.updateSpeedEstimate (h : Represents val added) {c : ETACalculator}
    (hc : c.bigSmallBuff = val) (hcount : 8 ≤ RollingBitset.getCount val) (estimate : ℚ) :
    ∃ (idx : Fin 9), getBitsOnCount val ETACalculator.BITSET_MASK = some idx.val ∧
      idx.val = (added.take 8).count true ∧
      c.updateSpeedEstimate estimate = some { c with
        copySpeedBuckets := c.copySpeedBuckets.set idx.val
          (ETACalculator.addSample estimate c.copySpeedBuckets[idx]) } := by
  have hidx := h.getBitsOnCount_mask
  have hlt : (added.take 8).count true < 9 := by
    have hle := List.count_le_length (a := true) (l := added.take 8)
    have hlen := List.length_take_le 8 added
    omega
  have hfull : RollingBitset.getCount c.bigSmallBuff ≥ ETACalculator.BUCKET_COUNT - 1 := hc ▸ hcount
  refine ⟨⟨_, hlt⟩, hidx, rfl, ?_⟩
  rw [ETACalculator.updateSpeedEstimate, if_pos hfull, hc, hidx, Option.bind_some, dif_pos hlt]
  rfl

/-- In every run, whatever the threads add and however they are interleaved: the count is the number
of bits added, 56 at most; the set holds the last 56 of them, the last one at position 0 and zeros
where there are none; a mask selects the ones that are counted; and once there are eight bits,
`updateSpeedEstimate` changes the bucket of the number of ones among the last eight. -/
theorem rolling_bitset_history {s : State} (h : system.Reachable s) :
    RollingBitset.getCount s.atomicBuffer = min s.added.length 56 ∧
    (RollingBitset.getSet s.atomicBuffer defaultMask < 2 ^ 56 ∧ ∀ j < 56,
      (RollingBitset.getSet s.atomicBuffer defaultMask).testBit j = s.added[j]?.getD false) ∧
    (∀ mask, getBitsOnCount s.atomicBuffer mask =
      some ((List.range 64).countP fun p => s.atomicBuffer.testBit p && mask.testBit p)) ∧
    (8 ≤ RollingBitset.getCount s.atomicBuffer → ∀ (c : ETACalculator) (estimate : ℚ),
      c.bigSmallBuff = s.atomicBuffer →
      ∃ (idx : Fin 9), getBitsOnCount s.atomicBuffer ETACalculator.BITSET_MASK = some idx.val ∧
        idx.val = (s.added.take 8).count true ∧
        c.updateSpeedEstimate estimate = some { c with
          copySpeedBuckets := c.copySpeedBuckets.set idx.val
            (ETACalculator.addSample estimate c.copySpeedBuckets[idx]) }) := by
  have hrep := reachable_represents h
  refine ⟨hrep.getCount, ⟨hrep.getSet.lt, hrep.getSet.testBit⟩, getBitsOnCount_eq hrep.lt, ?_⟩
  intro hcount c estimate hc
  exact hrep.updateSpeedEstimate hc hcount estimate

/-- Two threads of which one has to try again. -/
def twoThreads : List Label :=
  [.call 0 true, .call 1 false, .step 0, .step 1, .step 0, .step 1, .step 1, .step 1]

theorem twoThreads_history : ∃ s, system.run fresh twoThreads = some s ∧ s.added = [false, true] ∧
    RollingBitset.getCount s.atomicBuffer = 2 := by
  have hs : ∃ s, system.run fresh twoThreads = some s ∧ s.added = [false, true] := ⟨_, rfl, rfl⟩
  obtain ⟨s, hrun, hadded⟩ := hs
  have hreach : system.Reachable s :=
    Transition.System.ReachIn.of_runIn (fun _ _ _ => trivial) (.init rfl) hrun
  refine ⟨s, hrun, hadded, ?_⟩
  rw [(rolling_bitset_history hreach).1, hadded]
  rfl

end RollingBitset

end Wcp
