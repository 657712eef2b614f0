import WcpVerified.Heap
import WcpVerified.Library.Transition

/-!
# `Heap` used by several threads

`getBlock` scans `usedList` from the front; each compare-exchange of the scan is a step of its own, so
that the scans of other threads and their calls of `returnBlock` come in between. A thread returns only
blocks that it holds.
-/

namespace Wcp

namespace HeapClients

/-- Where a thread is. -/
inductive ClientPc where
  /-- Outside the heap; `result` is what its last `getBlock` returned. -/
  | outside (result : Option ℕ)
  /-- In `getBlock`, at block `i`. -/
  | scan (i : ℕ)
deriving DecidableEq

/-- The flags of a heap and its clients. `held` are the blocks that clients hold, each with its thread
and its address. -/
structure State where
  usedList : List Bool
  threads : ℕ → ClientPc
  held : List (ℕ × ℕ)

/-- The steps of the threads. -/
inductive Label where
  /-- A thread calls `getBlock`. -/
  | getBlock (thread : ℕ)
  /-- A thread that is in `getBlock` goes on. -/
  | scan (thread : ℕ)
  /-- A thread calls `returnBlock`. -/
  | returnBlock (thread block : ℕ)

/-- A thread gets to a program point. -/
def State.goto (s : State) (thread : ℕ) (pc : ClientPc) : State :=
  { s with threads := Function.update s.threads thread pc }

variable (h : Heap)

/-- A step of a thread. -/
def step (s : State) : Label → Option State
  | .getBlock thread =>
    match s.threads thread with
    | .outside _ => some (s.goto thread (.scan 0))
    | .scan _ => none
  | .scan thread =>
    match s.threads thread with
    | .outside _ => none
    | .scan i =>
      match s.usedList[i]? with
      -- the end of the list
      | none => some (s.goto thread (.outside none))
      | some true => some (s.goto thread (.scan (i + 1)))
      | some false =>
        some { s.goto thread (.outside (some (h.blockAddr i))) with
          usedList := s.usedList.set i true
          held := (thread, h.blockAddr i) :: s.held }
  | .returnBlock thread block =>
    match s.threads thread with
    | .outside _ =>
      if (thread, block) ∈ s.held then
        some { s with
          usedList := h.returnBlock s.usedList block
          held := s.held.erase (thread, block) }
      else none
    | .scan _ => none

/-- A heap as its constructor leaves it, with no clients yet. -/
def fresh : State where
  usedList := List.replicate h.blocks false
  threads _ := .outside none
  held := []

/-- The transition system of a heap and its clients. -/
def system : Transition.System State Label where
  init s := s = fresh h
  step := step h

end HeapClients

end Wcp
