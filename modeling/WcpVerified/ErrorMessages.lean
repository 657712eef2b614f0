import WcpVerified.CopyQueue

/-!
# `onError` and `showProgress`: the messages

`onError` sets `errored` first, and passes its message on after that: to the vector `errorMessages`
if the progress is shown, and to `stderr` otherwise. `showProgress` takes the vector, and writes the
messages it held. Between these steps the other threads may take any number of theirs, so a message
can be in the hand of the thread that found the error, in the vector, or taken and not yet written.
`start` creates the submit thread before it sets `showingProgress`, and the progress thread after.
-/

namespace Wcp

/-- A message for the user. -/
abbrev Message := List Char

/-- Who takes a step. -/
inductive Thread where
  | main
  | submit
  | progress
  | environment
deriving DecidableEq

def Label.thread : Label → Thread
  | .start | .addCopyJob _ | .walkError _ | .join _ | .main _ => .main
  | .submit _ => .submit
  | .progress => .progress
  | .kernel _ _ | .otherProcess _ _ => .environment

/-- Whether a step is a call of `start`. -/
def Label.isStart : Label → Bool
  | .start => true
  | _ => false

/-- A queue with its messages. The last three fields are history. -/
structure Reporting where
  queue : State
  /-- The field `showingProgress`. -/
  showingProgress : Bool := false
  /-- The main thread is in `start`, and has created the submit thread. -/
  starting : Bool := false
  /-- The message of an `onError` of the main thread that has set `errored`. -/
  mainHand : Option Message := none
  /-- The same for the submit thread. -/
  submitHand : Option Message := none
  errorMessages : List Message := []
  /-- `localErrorMessages` of a `showProgress` that has taken the vector. -/
  localErrorMessages : Option (List Message) := none
  /-- The last `showProgress`, behind the loop, has taken the vector. -/
  lastTaken : Bool := false
  /-- The messages written by `onError` itself. -/
  printed : List Message := []
  /-- The messages put into the vector. -/
  pushed : List Message := []
  /-- The messages written by `showProgress`. -/
  shown : List Message := []

/-- The steps of a queue with its messages. -/
inductive ReportLabel where
  | queue (l : Label)
  /-- `start` sets `showingProgress`. -/
  | setShowing
  /-- A thread passes its message on. -/
  | passMain
  | passSubmit
  /-- `showProgress` takes the vector. -/
  | take
  /-- `showProgress` writes what it has taken. -/
  | write

namespace Reporting

variable (cfg : Config)

/-- Whether a thread is free to go on with the queue. The progress thread leaves its loop, returns or
ends the process only outside `showProgress`, and the last two only after a last call of it. -/
def free (w : Reporting) : Thread → Bool
  | .main => w.mainHand.isNone && !w.starting
  | .submit => w.submitHand.isNone
  | .progress => w.localErrorMessages.isNone && !w.starting
      && (w.queue.progress != .ended || w.lastTaken)
  | .environment => true

/-- The message that a thread is left with after a step, if the step was that of an `onError`. -/
def found (s : State) : Label → Option Message
  | .walkError e => some e.humanFriendlyErrorMessage
  | .submit .tick =>
    match s.submit with
    | .recording e _ => some e.humanFriendlyErrorMessage
    | _ => none
  | _ => none

/-- `onError`, once `errored` is set. -/
def passOn (m : Message) (w : Reporting) : Reporting :=
  if w.showingProgress then
    { w with errorMessages := w.errorMessages ++ [m], pushed := w.pushed ++ [m] }
  else { w with printed := w.printed ++ [m] }

/-- A step of the queue. -/
def queueStep (l : Label) (w : Reporting) : Option Reporting :=
  if w.free l.thread then
    (CopyQueue.step cfg w.queue l).map fun q => { w with
      queue := q
      mainHand := if l.thread = .main then found w.queue l else w.mainHand
      submitHand := if l.thread = .submit then found w.queue l else w.submitHand
      starting := if l.thread = .main then l.isStart else w.starting
      lastTaken := w.lastTaken && !l.isStart }
  else none

/-- A step of the system. -/
def step (w : Reporting) (l : ReportLabel) : Option Reporting :=
  if w.queue.halted.isSome then none
  else match l with
    | .queue l => queueStep cfg l w
    | .setShowing =>
      if w.starting then some { w with showingProgress := cfg.showingProgress, starting := false }
      else none
    | .passMain => w.mainHand.map fun m => passOn m { w with mainHand := none }
    | .passSubmit => w.submitHand.map fun m => passOn m { w with submitHand := none }
    | .take =>
      if (w.queue.progress = .looping ∨ w.queue.progress = .ended ∧ ¬ w.lastTaken) ∧ ¬ w.starting ∧
          w.localErrorMessages.isNone then
        some { w with
          localErrorMessages := some w.errorMessages
          errorMessages := []
          lastTaken := decide (w.queue.progress = .ended) }
      else none
    | .write =>
      w.localErrorMessages.map fun ms => { w with shown := w.shown ++ ms, localErrorMessages := none }

/-- The transition system of a queue with its messages. -/
def system : Transition.System Reporting ReportLabel where
  init w := ∃ storage, w = { queue := CopyQueue.initial cfg storage }
  step := step cfg

/-- The messages that were found and are not yet written. -/
def unwritten (w : Reporting) : List Message :=
  w.localErrorMessages.getD [] ++ w.errorMessages ++ w.mainHand.toList ++ w.submitHand.toList

end Reporting

end Wcp
