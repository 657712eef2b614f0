import WcpVerified.Library.MachineWord
import WcpVerified.Library.Transition
import WcpVerified.Library.WhileLoop
import Mathlib

/-!
# `ETACalculator` and `RollingBitset`

Words are numbers below `2 ^ 64`. The speeds, which the program computes with in `double`, are
rational numbers.
-/

namespace Wcp

open MachineWord

/-! ## `RollingBitset` -/

namespace RollingBitset

/-- The word `addToBuff` puts in place of `oldVal`. -/
def newVal (oldVal : ℕ) (b : Bool) : ℕ :=
  let countPart := ((oldVal &&& 0xFF00000000000000) >>> (8 * 7)) + 1
  let countPart := if countPart > 8 * 7 then 8 * 7 else countPart
  let countPart := (countPart <<< (8 * 7)) % 2 ^ 64
  let newVal := (oldVal <<< 1) % 2 ^ 64 ||| b.toNat
  let newVal := newVal &&& 0x00FFFFFFFFFFFFFF
  newVal ||| countPart

/-- `getCount`. -/
def getCount (val : ℕ) : ℕ := (val &&& 0xFF00000000000000) >>> (8 * 7)

/-- The mask that `getSet` and `getBitsOnCount` have by default. -/
def defaultMask : ℕ := 0x00FFFFFFFFFFFFFF

/-- `getSet`. -/
def getSet (val mask : ℕ) : ℕ := val &&& mask

/-- `getBitsOnCount`. The loop has a round for every bit of a word at most. -/
def getBitsOnCount (val mask : ℕ) : Option ℕ :=
  (WhileLoop.run (fun p : ℕ × ℕ => p.2 != 0) (fun p => (p.1 + (p.2 &&& 1), p.2 >>> 1)) (64 + 1)
    (0, getSet val mask)).map (·.1)

/-- Where a thread is in `addToBuff`. -/
inductive AddPc where
  | outside
  /-- At the head of the loop. -/
  | load (b : Bool)
  /-- About to compare and exchange. -/
  | exchange (b : Bool) (oldVal : ℕ)
deriving DecidableEq

/-- A `RollingBitset` and the threads that use it. `added` are the bits whose exchange succeeded, the
last one first. -/
structure State where
  atomicBuffer : ℕ
  threads : ℕ → AddPc
  added : List Bool

/-- The steps of the threads. -/
inductive Label where
  /-- A thread calls `addToBuff(b)`. -/
  | call (thread : ℕ) (b : Bool)
  /-- A thread that is in `addToBuff` goes on. -/
  | step (thread : ℕ)

/-- A thread gets to a program point. -/
def State.goto (s : State) (thread : ℕ) (pc : AddPc) : State :=
  { s with threads := Function.update s.threads thread pc }

/-- A step of a thread. -/
def step (s : State) : Label → Option State
  | .call thread b =>
    match s.threads thread with
    | .outside => some (s.goto thread (.load b))
    | _ => none
  | .step thread =>
    match s.threads thread with
    | .outside => none
    | .load b => some (s.goto thread (.exchange b s.atomicBuffer))
    | .exchange b oldVal =>
      if s.atomicBuffer = oldVal then
        some { s.goto thread .outside with
          atomicBuffer := newVal oldVal b
          added := b :: s.added }
      else some (s.goto thread (.load b))

/-- A fresh `RollingBitset`. -/
def fresh : State where
  atomicBuffer := 0
  threads _ := .outside
  added := []

/-- The transition system of a `RollingBitset`. -/
def system : Transition.System State Label where
  init s := s = fresh
  step := step

end RollingBitset

/-! ## `ETACalculator` -/

/-- `CopySpeedBucket`. -/
structure CopySpeedBucket where
  bytesPerSecond : ℚ := 0
  sampleCount : ℕ := 0
deriving DecidableEq

/-- `ETACalculator`; `bigSmallBuff` is the word of its `RollingBitset`. -/
structure ETACalculator where
  copySpeedBuckets : Vector CopySpeedBucket 9 := Vector.replicate 9 {}
  bigCopiesRemaining : ℕ := 0
  smallCopiesRemaining : ℕ := 0
  bigSmallBuff : ℕ := 0

namespace ETACalculator

def BUCKET_COUNT : ℕ := 8 + 1

def BITSET_MASK : ℕ := 0xFF

/-- A bucket; there is none outside the array. -/
def bucket (c : ETACalculator) (i : ℤ) : Option CopySpeedBucket :=
  if 0 ≤ i then c.copySpeedBuckets[i.toNat]? else none

/-- A bucket after a sample. -/
def addSample (currentBytesPerSecondEstimate : ℚ) (old : CopySpeedBucket) : CopySpeedBucket where
  bytesPerSecond :=
    if old.sampleCount = 0 then currentBytesPerSecondEstimate
    else (1 - 1 / 100) * old.bytesPerSecond + 1 / 100 * currentBytesPerSecondEstimate
  sampleCount := addU64 old.sampleCount 1

/-- `updateSpeedEstimate`; an index outside the array has no meaning. -/
def updateSpeedEstimate (c : ETACalculator) (currentBytesPerSecondEstimate : ℚ) :
    Option ETACalculator :=
  if RollingBitset.getCount c.bigSmallBuff ≥ BUCKET_COUNT - 1 then
    (RollingBitset.getBitsOnCount c.bigSmallBuff BITSET_MASK).bind fun idx =>
      if h : idx < 9 then
        some { c with
          copySpeedBuckets := c.copySpeedBuckets.set idx
            (addSample currentBytesPerSecondEstimate c.copySpeedBuckets[idx]) }
      else none
  else some c

/-- `val`: eight times the clamped ratio. A sum that has wrapped to 0 makes it infinite before it is
clamped. -/
def val (c : ETACalculator) : ℚ :=
  let sum := addU64 c.bigCopiesRemaining c.smallCopiesRemaining
  let ratio := if sum = 0 then 1 else max 0 (min 1 ((c.bigCopiesRemaining : ℚ) / sum))
  ratio * (BUCKET_COUNT - 1 : ℕ)

/-- The loop that looks for the bucket next to `idealIndex` with enough samples. -/
def nearestBucket (c : ETACalculator) (sampleCountThreshold : ℕ) (idealIndex : ℤ) : ℤ :=
  ((List.range BUCKET_COUNT).foldl
    (fun (best : ℤ × ℤ) (i : ℕ) =>
      let thisDiff := |idealIndex - i|
      if thisDiff < best.2 ∧ (c.bucket i).any (sampleCountThreshold < ·.sampleCount)
      then (i, thisDiff) else best)
    (-1, s32Max)).1

/-- `calculate`. -/
def calculate (c : ETACalculator) (sampleCountThreshold : ℕ) : Option ℚ := do
  let low ← c.bucket ⌊c.val⌋
  let high ← c.bucket ⌈c.val⌉
  if low.sampleCount > sampleCountThreshold ∧ high.sampleCount > sampleCountThreshold then
    let alpha := c.val - ⌊c.val⌋
    return low.bytesPerSecond * alpha + high.bytesPerSecond * (1 - alpha)
  else
    let bestIndex := c.nearestBucket sampleCountThreshold ⌊c.val + 1 / 2⌋
    if bestIndex ≠ -1 then (c.bucket bestIndex).map (·.bytesPerSecond) else return -1

/-- `getEta`: the speed that the remaining time is estimated with, or -1. -/
def getEta (c : ETACalculator) : Option ℚ :=
  if c.bigCopiesRemaining = 0 ∧ c.smallCopiesRemaining = 0 then some 0
  else do
    let retval ← c.calculate 20
    if retval = -1 then c.calculate 1 else return retval

end ETACalculator

end Wcp
