import WcpVerified.Util
import WcpVerified.Library.WhileLoop
import Mathlib

/-!
# `showProgressLoop`: the layout of the lines and the wait between them

Strings are lists of bytes. The loops of the layout are run with a bound on their rounds, as nothing
but the unlimited growth of a string stops one that does not end.
-/

namespace Wcp

open MachineWord

/-! ## Layout -/

/-- `a - b` on `int32_t`; there is no value on overflow. -/
def subS32 (a b : ℤ) : Option ℤ := if -2 ^ 31 ≤ a - b ∧ a - b < 2 ^ 31 then some (a - b) else none

/-- `for (int32_t i = int32_t(pad.size()); i < bound; i++) pad += padChar`. -/
def padLoop (bound : ℤ) (padChar : Char) (fuel : ℕ) (pad : List Char) : Option (List Char) :=
  (WhileLoop.run (fun p : List Char × ℤ => decide (p.2 < bound))
    (fun p => (p.1 ++ [padChar], p.2 + 1)) fuel (pad, toS32 pad.length)).map (·.1)

/-- `leftPad`. -/
def leftPad (left str : List Char) (targetLength : ℤ) (padChar : Char) (fuel : ℕ) :
    Option (List Char) := do
  let bound ← subS32 targetLength (toS32 str.length)
  let pad ← padLoop bound padChar fuel left
  return pad ++ str

/-- `rightPad`. -/
def rightPad (left str : List Char) (targetLength : ℤ) (fuel : ℕ) : Option (List Char) := do
  let bound ← subS32 targetLength (toS32 str.length)
  let pad ← padLoop bound ' ' fuel left
  return str ++ pad

/-- `centreAlign`: the counter is a `uint32_t`, its bound a `size_t`. -/
def centreAlign (left centre : List Char) (lineWidth : ℕ) (fuel : ℕ) : Option (List Char) := do
  let bound := subU64 (lineWidth / 2) (centre.length / 2)
  let p ← WhileLoop.run (fun p : List Char × ℕ => decide (p.2 < bound))
    (fun p => (p.1 ++ [' '], (p.2 + 1) % 2 ^ 32)) fuel (left, left.length % 2 ^ 32)
  return p.1 ++ centre

/-! ## The wait -/

def ETIMEDOUT : Errno := 110

/-- `timespec`. (`tv_sec` has 64 bits; a clock is far from where one more second would overflow.) -/
structure Timespec where
  tvSec : ℤ
  tvNsec : ℤ
deriving DecidableEq

/-- `updateIntervalSeconds`; a quarter is a `float`. -/
def updateIntervalSeconds : ℚ := 1 / 4

/-- `timeoutTime`, from a reading of the clock. (The product of the fraction with `1000000000.0f` is
exact.) -/
def timeoutTime (reading : Timespec) : Timespec :=
  let tvSec := reading.tvSec + ⌊updateIntervalSeconds⌋
  let tvNsec := reading.tvNsec + ⌊(updateIntervalSeconds - ⌊updateIntervalSeconds⌋) * 1000000000⌋
  if tvNsec > 1000000000 then ⟨tvSec + 1, tvNsec - 1000000000⟩ else ⟨tvSec, tvNsec⟩

/-- How far the loop of the progress thread has come. -/
inductive LoopStage where
  | looping
  | left
  /-- The assertion on the result of `pthread_mutex_timedlock` has failed. -/
  | aborted
deriving DecidableEq

/-- A turn of the loop: `isDone()` is asked, the clock read and `progressEndMutex` waited for. -/
def loopTurn (isDone : Bool) (reading : Timespec) (timedlock : Timespec → Errno) : LoopStage :=
  if isDone then .left
  else
    let err := timedlock (timeoutTime reading)
    if err = 0 ∨ err = ETIMEDOUT then if err = 0 then .left else .looping
    else .aborted

/-- The loop after `n` turns. -/
def loopAfter (isDone : ℕ → Bool) (clock : ℕ → Timespec) (timedlock : ℕ → Timespec → Errno) :
    ℕ → LoopStage
  | 0 => .looping
  | n + 1 =>
    match loopAfter isDone clock timedlock n with
    | .looping => loopTurn (isDone n) (clock n) (timedlock n)
    | stage => stage

end Wcp
