import WcpVerified.CopyQueue

/-!
# `showProgress`: what the progress thread reads

While its loop runs, and once after it, the progress thread calls `showProgress`. The reads of
`state`, `totalBytesToCopy` and `totalBytesCopied` are three steps, with any number of steps of the
other threads in between. What is drawn is left out; the differences it is drawn from are taken when
all three have been read. The thread leaves its loop, ends the process or returns only outside
`showProgress`.
-/

namespace Wcp

/-- Where the progress thread is in `showProgress`. -/
inductive ShowStage where
  | outside
  /-- About to read `totalBytesToCopy`. -/
  | readToCopy (haveTotal : Bool)
  /-- About to read `totalBytesCopied`. -/
  | readCopied (haveTotal : Bool) (toCopy : ℕ)
  /-- All three have been read. -/
  | draw (haveTotal : Bool) (toCopy copied : ℕ)
deriving DecidableEq

/-- The local variables of the progress thread: where it is, and the sizes in `startQueue`. -/
structure Display where
  stage : ShowStage := .outside
  startQueue : List ℕ := [0]
deriving DecidableEq

/-- The steps of a queue whose progress is shown. -/
inductive WatchedLabel where
  | queue (l : Label)
  /-- The progress thread goes on in `showProgress`; `expired` is whether the oldest measurement is
  more than 45 seconds old. -/
  | showing (expired : Bool)

namespace CopyQueue

/-- A step of `showProgress`. -/
def showStep (expired : Bool) (s : State) (d : Display) : Option Display :=
  match d.stage with
  | .outside =>
    if s.progress = .looping ∨ s.progress = .ended then
      some { d with stage := .readToCopy (s.state == .additionComplete) }
    else none
  | .readToCopy haveTotal => some { d with stage := .readCopied haveTotal s.totalBytesToCopy }
  | .readCopied haveTotal toCopy =>
    some { d with stage := .draw haveTotal toCopy s.totalBytesCopied }
  | .draw _ _ copied =>
    let pushed := if 0 < copied then d.startQueue ++ [copied] else d.startQueue
    some { stage := .outside, startQueue := if 0 < copied ∧ expired then pushed.tail else pushed }

variable (cfg : Config)

/-- A step of the queue and of the display. -/
def watchedStep (w : State × Display) : WatchedLabel → Option (State × Display)
  | .queue .start => (step cfg w.1 .start).map (·, {})
  | .queue .progress =>
    if w.2.stage = .outside then (step cfg w.1 .progress).map (·, w.2) else none
  | .queue l => (step cfg w.1 l).map (·, w.2)
  | .showing expired =>
    if w.1.halted.isSome then none else (showStep expired w.1 w.2).map (w.1, ·)

/-- The transition system of a queue whose progress is shown. -/
def watched : Transition.System (State × Display) WatchedLabel where
  init w := ∃ storage, w = (initial cfg storage, {})
  step := watchedStep cfg

end CopyQueue

end Wcp
