import WcpVerified.Heap
import WcpVerified.IoUring
import WcpVerified.QueueFileDescriptor
import WcpVerified.Library.Store
import WcpVerified.Library.Transition
import WcpVerified.Library.WhileLoop

/-!
# `CopyQueue`: the adding thread, the submit thread and the progress thread

The queue is a transition system. A step is one action of one thread, or of the kernel: each access
to a variable that two threads share is a step of its own, and what lies between two of them and
touches only the thread's own data belongs to one of these steps. What the environment answers to a
step (the result of a system call, of `rand()`, the completion that is peeked) is in its label.

The main thread runs `start`, `addCopyJob`, `onError` (for the failures of the directory walk) and
`join`, in any order its caller wants; the submit thread runs `submitLoop`; the progress thread only
reads, and may end the process. A `release_assert` that fails, or an access to an object that has
been destroyed, halts the machine.
-/

namespace Wcp

open MachineWord

/-- `RESERVED_FD_COUNT`. -/
def RESERVED_FD_COUNT : ℕ := 2

/-- `RESERVED_HIGH_PRIORITY_FD_COUNT`. -/
def RESERVED_HIGH_PRIORITY_FD_COUNT : ℕ := 2

/-- `minimumFileDescriptorCap`. -/
def minimumFileDescriptorCap : ℕ := RESERVED_FD_COUNT + RESERVED_HIGH_PRIORITY_FD_COUNT

/-- `ETACalculator::BIG_FILE_SIZE`. -/
def BIG_FILE_SIZE : ℕ := 1024 * 5

/-- What a queue is constructed with. `ringSize` is `params.sq_entries`, a 32-bit number, and the
constructor asserts the minimum of the descriptor cap, a 64-bit one. -/
structure Config where
  ringSize : ℕ
  fileDescriptorCap : ℕ
  heap : Heap
  modes : DebugModes := {}
  showingProgress : Bool := false
  strerror : Errno → List Char := fun _ => []
  ringSize_lt : ringSize < 2 ^ 32
  cap_ge : minimumFileDescriptorCap ≤ fileDescriptorCap
  cap_lt : fileDescriptorCap < 2 ^ 64

/-! ## Chunks -/

/-- The `chunkSize` that `addCopyJob` computes. -/
def chunkSize (heap : Heap) (requiredAlignment : ℕ) : ℕ :=
  if heap.alignment < requiredAlignment then
    let bytesRemaining := subU64 heap.blockSize (requiredAlignment - 1)
    let alignmentBlocks := bytesRemaining / requiredAlignment
    alignmentBlocks * requiredAlignment
  else heap.blockSize

/-- The `chunkCount` that `addCopyJob` computes, before the conversion to `int32_t`. -/
def chunkCount (size chunk : ℕ) : ℕ :=
  if size % chunk ≠ 0 then size / chunk + 1 else size / chunk

/-- The arguments of `addCopyJobPart` that differ between the parts of a job. -/
structure Part where
  offset : ℕ
  size : ℕ
  alignment : ℕ
deriving DecidableEq

/-- The part `addCopyJob` adds at `offset`: the body of its loop, or the only part of an empty
file. -/
def partAt (heap : Heap) (job : Job) (offset : ℕ) : Part :=
  if job.stxSize = 0 then ⟨0, 0, 0⟩
  else ⟨offset, min (chunkSize heap job.stxBlksize) (job.stxSize - offset), job.stxBlksize⟩

/-- The loop of `addCopyJob` by itself: the offsets and sizes of the parts it adds. `fuel` bounds its
rounds. -/
def partLoop (stxSize chunkSize fuel : ℕ) : Option (List (ℕ × ℕ)) :=
  (WhileLoop.run (fun p : ℕ × List (ℕ × ℕ) => p.1 != stxSize)
    (fun p =>
      let count := min chunkSize (subU64 stxSize p.1)
      (addU64 p.1 count, p.2 ++ [(p.1, count)]))
    fuel (0, [])).map (·.2)

/-! ## Program points -/

/-- `CopyQueue::State`. -/
inductive QueueState where
  | idle
  | running
  | additionComplete
deriving DecidableEq

/-- `OnCompletionAction`. -/
inductive OnCompletionAction where
  | exitProcessNoCleanup
  | return
deriving DecidableEq

/-- Where a thread is in `reserveFileDescriptor` and `doOpen`: about to load the counter, about to
compare and exchange it, or with a reservation made and the file not yet opened. -/
inductive ReserveStage where
  | load
  | cas (expected : ℕ)
  | opening
  /-- `doOpen` has returned, or there was nothing to open. -/
  | done
deriving DecidableEq

/-- Where the main thread is in `addCopyJobPart`. -/
inductive PartStage where
  | total
  | eta
  | push
deriving DecidableEq

/-- The program points of the main thread. -/
inductive MainPc where
  /-- Outside the queue's functions. -/
  | ready
  /-- In the constructor of a `QueueFileDescriptor` of the objects `f` of a job. -/
  | ctor (f : ℕ) (job : Job) (side : Side) (stage : ReserveStage)
  /-- In `addCopyJobPart` for a part of a job. -/
  | part (f : ℕ) (job : Job) (p : Part) (stage : PartStage)
  /-- In `join`, before `completionAction` is set. -/
  | joinAction (action : OnCompletionAction)
  /-- In `join`, waiting for the submit thread. -/
  | joinSubmit
  /-- In `join`, waiting for the progress thread. -/
  | joinProgress
deriving DecidableEq

/-- Where the submit thread is in `ensureOpened`. -/
inductive EnsureStage where
  | check
  | reserve (stage : ReserveStage)
  /-- `doOpen` has failed. -/
  | failed (e : Error)
deriving DecidableEq

/-- Where the submit thread is in `handleFileClose`. -/
inductive CloseStage where
  | enter
  | close (side : Side)
  | notify (side : Side)
  /-- Past the branch of one side. -/
  | next (side : Side)
deriving DecidableEq

/-- From where `handleFileClose` was called; `n` is `runnersAdded`. -/
inductive CloseCaller where
  /-- A runner returned `FinishedTag`. -/
  | finished
  /-- `saveError`, inside `onCompletionEvent`. -/
  | saveError
  /-- `submitReadWriteCommands`, when a file could not be opened. -/
  | addFailed (n : ℕ) (e : Error)
  /-- The branch of `submitLoop` for empty files. -/
  | emptyFile (n : ℕ)
deriving DecidableEq

/-- From where `onError` was called. -/
inductive ErrorCaller where
  /-- `handleFileClose` failed for a finished runner. -/
  | finished (r : ℕ)
  /-- A runner returned an error from `onCompletionEvent`. -/
  | completion (r : ℕ)
  /-- `addToBatch` failed; the runner has been deleted already. -/
  | addFailed (n : ℕ)
  /-- The branch of `submitLoop` for empty files. -/
  | emptyFile (n r : ℕ)
deriving DecidableEq

/-- From where a runner is deleted. -/
inductive DeleteCaller where
  | completion
  | addFailed (n : ℕ) (e : Error)
  | emptyFile (n : ℕ)
deriving DecidableEq

/-- The program points of the submit thread. `n` is `runnersAdded` and `r` the runner at hand. -/
inductive SubmitPc where
  | notStarted
  /-- The head of `while (true)`. -/
  | top
  /-- The head of `while (!doneAdding)`. -/
  | adding (n : ℕ)
  /-- At `if (!nextBuffer)`. -/
  | fetching (n : ℕ)
  /-- At `CopyRunner* toAdd = nullptr`. -/
  | picking (n : ℕ)
  /-- At the critical section that takes a runner from `copiesPendingStart`. -/
  | taking (n : ℕ)
  /-- `toAdd` is set. -/
  | starting (n r : ℕ)
  /-- In `ensureOpened`. -/
  | ensure (n r : ℕ) (side : Side) (stage : EnsureStage)
  /-- In `submitReadWriteCommands`, with both files open. -/
  | batch (n r : ℕ)
  /-- In `getSqe`, with no free slot: the busy loop never ends. -/
  | spinning
  /-- In `handleFileClose`; `result` is the error to be returned. -/
  | closing (caller : CloseCaller) (r : ℕ) (stage : CloseStage) (result : Option Error)
  /-- In `onError`. -/
  | recording (e : Error) (caller : ErrorCaller)
  /-- At `etaCalulator.onCopyCompleted`. -/
  | finishing (r : ℕ)
  /-- In the destructor of a runner. -/
  | deleting (r : ℕ) (caller : DeleteCaller)
  /-- At `io_uring_submit`, or past it when nothing was added. -/
  | submitting (n : ℕ)
  /-- The head of `while (submissionsRunning)`. -/
  | completing
  /-- `onCompletionEvent` has returned. -/
  | event (r : ℕ)
  /-- At `io_uring_cqe_seen`. -/
  | seen
  /-- At `if (isDone())`. -/
  | checkDone
  | returned
deriving DecidableEq

/-- The program points of the progress thread. -/
inductive ProgressPc where
  | notStarted
  /-- In `while (!isDone())`. -/
  | looping
  /-- Past the loop. -/
  | ended
  | returned
deriving DecidableEq

/-- The assertions whose failure ends the process here, and the accesses that are undefined. Those that
only check that a system call has not failed are left out, `io_uring_submit` apart: of
`io_uring_queue_init_params` in the constructor, `pthread_create` in `start`, `io_uring_peek_cqe` in
`submitLoop` and `pthread_mutex_timedlock` in `showProgressLoop` (`loopTurn` has this one). Where one of
these fails the run of the program is over, and the run of the model up to there is one of its runs. -/
inductive Fault where
  /-- `release_assert(chunkSize > 0)`. -/
  | chunkSizeZero
  /-- `release_assert(state == State::Idle)` in `start`. -/
  | startNotIdle
  /-- `release_assert(jobsRunning == 0)` in `~CopyRunner`. -/
  | dtorJobsRunning
  /-- `release_assert(jobsRunning == 0)` in `submitReadWriteCommands`. -/
  | submitJobsRunning
  /-- The first `release_assert` of `giveBuffer`. -/
  | bufferMisaligned
  /-- The second `release_assert` of `giveBuffer`. -/
  | bufferOverrun
  /-- `giveBuffer(nullptr)`. -/
  | bufferNull
  /-- `release_assert(ret > 0)` after `io_uring_submit`. -/
  | submitFailed
  /-- `front()` of an empty `copiesPendingStart`. -/
  | startEmpty
  /-- A runner, a descriptor or a counter is used after it was deleted. -/
  | useAfterFree
deriving DecidableEq

/-- How the process ended. -/
inductive Halt where
  /-- `_exit(int(errored))`. -/
  | exit (errored : Bool)
  | abort (fault : Fault)
deriving DecidableEq

/-- The debug assertions about descriptors; a release build runs past them. -/
inductive DebugAssert where
  /-- `fd != CLOSED_VAL` in `ensureOpened`. -/
  | ensureOpenedClosed
  /-- `fd == CLOSED_VAL || fd == NEVER_OPENED_VAL` in `~QueueFileDescriptor`. -/
  | destroyedOpen
deriving DecidableEq

/-! ## The state -/

/-- The state of a queue and of its threads. The counters are natural numbers. In the source
`copiesPendingStartCount`, `keepAliveCount` and `submissionsRunning` have 32 bits, and the totals, the
remaining counts and `fileDescriptorsUsed` have 64: they agree with these as long as fewer than `2 ^ 32`
runners are alive and fewer than `2 ^ 64` bytes are to be copied. A subtraction that could go below zero
wraps as in the source (`subU64`, `decU64`); the other decrements each undo an increment. -/
structure State where
  state : QueueState := .idle
  completionAction : OnCompletionAction := .return
  errored : Bool := false
  copiesPendingStart : List ℕ := []
  copiesPendingStartCount : ℕ := 0
  keepAliveCount : ℕ := 0
  submissionsRunning : ℕ := 0
  totalBytesToCopy : ℕ := 0
  totalBytesCopied : ℕ := 0
  totalBytesFailed : ℕ := 0
  bigCopiesRemaining : ℕ := 0
  smallCopiesRemaining : ℕ := 0
  fileDescriptorsUsed : ℕ := RESERVED_FD_COUNT
  usedList : List Bool
  /-- The runners constructed and not yet destroyed. -/
  runners : Store CopyRunner := .empty
  /-- The descriptors and counters shared by the runners of each job. -/
  files : Store JobFiles := .empty
  /-- Entries queued in the submission ring and not yet consumed by the kernel. -/
  sq : List Sqe := []
  /-- Entries the kernel has consumed and not completed. -/
  chains : List Chain := []
  /-- Completions posted and not yet seen. -/
  cq : List Cqe := []
  storage : Storage
  main : MainPc := .ready
  submit : SubmitPc := .notStarted
  /-- The local variable `nextBuffer` of `submitLoop`. -/
  nextBuffer : Option ℕ := none
  /-- The local variable `copiesPendingContinue` of `submitLoop`. -/
  copiesPendingContinue : List ℕ := []
  progress : ProgressPc := .notStarted
  /-- Whether `join` has unlocked `progressEndMutex`. -/
  progressEnd : Bool := false
  halted : Option Halt := none
  /-- History: the jobs added, in order. -/
  jobs : List Job := []
  /-- History: the runners destroyed since the last `join`, as they were. -/
  destroyed : List CopyRunner := []
  /-- History: the errors passed to `onError`. -/
  recorded : List Error := []
  /-- History: whether an operation has failed since the last `join`. -/
  failed : Bool := false
  /-- History: the values returned by `join`. -/
  joined : List Bool := []
  /-- History: the entries consumed by each call of `io_uring_submit`. -/
  submitCalls : List (List Sqe) := []
  /-- History: the debug assertions that failed. -/
  debugFailures : List DebugAssert := []

/-- The answers of the environment to a step. -/
inductive Answer where
  /-- The step asks nothing. -/
  | tick
  /-- The answers to the attempts of `myOpen`. -/
  | opened (answers : ℕ → Except Errno Ino)
  | closed (answer : Except Errno Unit)
  /-- The results of `rand()` for the read and for the write of a round. -/
  | rand (read write : ℕ)
  /-- The result of `io_uring_submit`. -/
  | submitted (ret : ℤ)
  /-- The completion found by `io_uring_peek_cqe`, if any. -/
  | peeked (i : Option ℕ)

/-- The steps of the system. -/
inductive Label where
  /-- The main thread calls `start`. -/
  | start
  /-- The main thread calls `addCopyJob`. -/
  | addCopyJob (job : Job)
  /-- The main thread calls `onError`: a step of the directory walk has failed. -/
  | walkError (e : Error)
  /-- The main thread calls `join`. -/
  | join (action : OnCompletionAction)
  /-- The main thread goes on inside the function it called. -/
  | main (a : Answer)
  | submit (a : Answer)
  | progress
  /-- The kernel completes the first request of a chain. -/
  | kernel (chain : ℕ) (res : ℤ)
  /-- Another process changes a file. -/
  | otherProcess (ino : Ino) (content : List UInt8)

namespace CopyQueue

variable (cfg : Config)

/-- `isDone`. The two loads are one step: once the first is seen to be `AdditionComplete` it stays
so until the thread that asks has been joined. -/
def isDone (s : State) : Bool := s.state == .additionComplete && s.keepAliveCount == 0

/-- The process aborts. -/
def abort (fault : Fault) (s : State) : State := { s with halted := some (.abort fault) }

/-- Continue with a runner and the objects it shares, if they still exist. -/
def withRunner (s : State) (r : ℕ) (k : CopyRunner → JobFiles → State) : State :=
  match s.runners.get? r with
  | none => abort .useAfterFree s
  | some x =>
    match s.files.get? x.file with
    | none => abort .useAfterFree s
    | some f => k x f

/-- Open the file of descriptor `d`: the disk is truncated when the flags say so. -/
def truncateOnOpen (d : QueueFileDescriptor) (ino : Ino) (st : Storage) : Storage :=
  if d.oflag.trunc then { st with disk := Function.update st.disk ino [] } else st

/-- `doOpen` for one side of job `f`, the reservation being made: the state after a success, or the
state and the error after a failure. -/
def doOpen (low : Bool) (f : ℕ) (x : JobFiles) (side : Side)
    (answers : ℕ → Except Errno Ino) (s : State) : State × Option Error :=
  match myOpen cfg.strerror (x.fd side).path (x.fd side).oflag answers with
  | .ok ino =>
    ({ s with
       files := s.files.modify f fun y => y.modifyFd (·.openedAs low ino) side
       storage := truncateOnOpen (x.fd side) ino s.storage }, none)
  | .error e =>
    ({ s with files := s.files.modify f fun y => y.modifyFd (·.failedOpen) side }, some e)

/-! ## The main thread -/

/-- `addCopyJob` up to the first constructor. -/
def beginCopyJob (job : Job) (s : State) : State :=
  { s with
    files := s.files.push (.create job)
    jobs := s.jobs ++ [job]
    main := .ctor s.files.next job .source .load }

/-- `chunkCount`; an empty file has one part. -/
def partCount (job : Job) : ℕ :=
  if job.stxSize = 0 then 1 else chunkCount job.stxSize (chunkSize cfg.heap job.stxBlksize)

/-- `addCopyJob` once both constructors have returned. The loop of `addCopyJob` counts the parts in
an `int32_t` and asserts that it agrees with `chunkCount`: a job with more parts than that is outside
what the code handles, and the step is not enabled. -/
def beginParts (f : ℕ) (job : Job) (s : State) : Option State :=
  if job.stxSize ≠ 0 ∧ chunkSize cfg.heap job.stxBlksize = 0 then
    some (abort .chunkSizeZero s)
  else if partCount cfg job < 2 ^ 31 then
    some { s with
      files := s.files.modify f fun y => { y with chunksRemaining := partCount cfg job }
      main := .part f job (partAt cfg.heap job 0) .total }
  else none

/-- A step of the constructor of a descriptor: one `Low` reservation, and the open. -/
def ctorStep (f : ℕ) (job : Job) (side : Side) (stage : ReserveStage) (a : Answer) (s : State) :
    Option State :=
  match stage, a with
  | .load, .tick => some { s with main := .ctor f job side (.cas s.fileDescriptorsUsed) }
  | .cas expected, .tick =>
    if expected ≥ cfg.fileDescriptorCap - RESERVED_HIGH_PRIORITY_FD_COUNT
        ∨ s.fileDescriptorsUsed ≠ expected then
      some { s with main := .ctor f job side .done }
    else
      some { s with fileDescriptorsUsed := expected + 1, main := .ctor f job side .opening }
  | .opening, .opened answers =>
    match s.files.get? f with
    | none => some (abort .useAfterFree s)
    -- an error is ignored here, `ensureOpened` tries again
    | some x => some { (doOpen cfg true f x side answers s).1 with main := .ctor f job side .done }
  | .done, .tick =>
    match side with
    | .source => some { s with main := .ctor f job .dest .load }
    | .dest => beginParts cfg f job s
  | _, _ => none

/-- A step of `addCopyJobPart`, and of the loop around it. The critical section is one step. Of what it
writes, `copiesPendingStart` is only read under the mutex, the new runner is found there only, and
`keepAliveCount` is not looked at by `isDone` while jobs are added. The submit thread does read
`copiesPendingStartCount` without the mutex, but that is the last write of the section: until then it
reads what it would have read before it. -/
def partStep (f : ℕ) (job : Job) (p : Part) (stage : PartStage) (s : State) : State :=
  match stage with
  | .total => { s with
      totalBytesToCopy := s.totalBytesToCopy + p.size
      main := .part f job p .eta }
  | .eta => { s with
      bigCopiesRemaining := if BIG_FILE_SIZE < p.size then s.bigCopiesRemaining + 1
        else s.bigCopiesRemaining
      smallCopiesRemaining := if BIG_FILE_SIZE < p.size then s.smallCopiesRemaining
        else s.smallCopiesRemaining + 1
      main := .part f job p .push }
  | .push => { s with
      runners := s.runners.push (.create f p.offset p.size p.alignment)
      keepAliveCount := s.keepAliveCount + 1
      copiesPendingStart := s.copiesPendingStart ++ [s.runners.next]
      copiesPendingStartCount := s.copiesPendingStartCount + 1
      main := if p.offset + p.size = job.stxSize then .ready
        else .part f job (partAt cfg.heap job (p.offset + p.size)) .total }

/-- The end of `join`. -/
def finishJoin (s : State) : State :=
  { s with
    state := .idle
    totalBytesToCopy := 0
    totalBytesCopied := 0
    totalBytesFailed := 0
    joined := s.joined ++ [!s.errored]
    destroyed := []
    errored := false
    failed := false
    progressEnd := false
    main := .ready }

/-- A step of the main thread inside a function of the queue. -/
def mainStep (a : Answer) (s : State) : Option State :=
  match s.main, a with
  | .ctor f job side stage, a => ctorStep cfg f job side stage a s
  | .part f job p stage, .tick => some (partStep cfg f job p stage s)
  | .joinAction action, .tick =>
    some { s with completionAction := action, main := .joinSubmit }
  | .joinSubmit, .tick =>
    if s.submit = .returned then
      if cfg.showingProgress then some { s with progressEnd := true, main := .joinProgress }
      else some (finishJoin s)
    else none
  | .joinProgress, .tick => if s.progress = .returned then some (finishJoin s) else none
  | _, _ => none

/-- `start`. -/
def start (s : State) : State :=
  if s.state = .idle then
    { s with
      state := .running
      submit := .top
      nextBuffer := none
      copiesPendingContinue := []
      progress := if cfg.showingProgress then .looping else .notStarted }
  else abort .startNotIdle s

/-! ## The SUBMIT phase -/

/-- The condition of the `break` at the head of the inner loop. -/
def mustWait (s : State) : Bool :=
  let waitingForStart := s.copiesPendingStartCount + s.copiesPendingContinue.length
  let rateLimited := decide (subU64 cfg.ringSize s.submissionsRunning < MAX_JOBS_PER_RUNNER)
  let waitForDirectoryIteration :=
    s.state == .running && decide (s.totalBytesCopied ≥ s.totalBytesToCopy / 8)
  waitingForStart == 0 || rateLimited || waitForDirectoryIteration

/-- The head of the inner loop. The loads of the counters are one step: only this thread lowers
`copiesPendingStartCount` or changes `totalBytesCopied`, and `totalBytesToCopy` only grows. -/
def addingStep (n : ℕ) (s : State) : State :=
  if mustWait cfg s then { s with submit := .submitting n } else { s with submit := .fetching n }

/-- `if (!nextBuffer) nextBuffer = copyBufferHeap.getBlock()`. -/
def fetchingStep (n : ℕ) (s : State) : State :=
  if s.nextBuffer.isSome then { s with submit := .picking n }
  else { s with
    nextBuffer := (cfg.heap.getBlock s.usedList).1
    usedList := (cfg.heap.getBlock s.usedList).2
    submit := .picking n }

/-- The choice of `toAdd`: a rescheduled runner first. -/
def pickingStep (n : ℕ) (s : State) : State :=
  match s.copiesPendingContinue with
  | r :: rest => { s with copiesPendingContinue := rest, submit := .starting n r }
  | [] =>
    if s.nextBuffer.isSome ∧ 0 < s.copiesPendingStartCount then { s with submit := .taking n }
    else { s with submit := .submitting n }

/-- The assertions of `giveBuffer`, if the runner needs a buffer. -/
def giveBufferFault (x : CopyRunner) (nextBuffer : Option ℕ) : Option Fault :=
  if x.needsBuffer then
    match nextBuffer with
    | none => some .bufferNull
    | some b =>
      if (x.giveBuffer b).bufferAligned % x.alignment ≠ 0 then some .bufferMisaligned
      else if b + cfg.heap.blockSize < (x.giveBuffer b).bufferAligned + x.size then
        some .bufferOverrun
      else none
  else none

/-- `outOfFds`. -/
def outOfFds (s : State) : Bool :=
  subU64 cfg.fileDescriptorCap s.fileDescriptorsUsed < RESERVED_HIGH_PRIORITY_FD_COUNT

/-- The critical section that takes a runner from `copiesPendingStart`. -/
def takingStep (n : ℕ) (s : State) : State :=
  match s.copiesPendingStart with
  | [] => abort .startEmpty s
  | r :: rest => withRunner s r fun x f =>
    if outOfFds cfg s && f.needsFileDescriptors then { s with submit := .submitting n }
    else match giveBufferFault cfg x s.nextBuffer with
      | some fault => abort fault s
      | none => { s with
          runners := if x.needsBuffer then
              s.runners.modify r fun x => x.giveBuffer (s.nextBuffer.getD 0)
            else s.runners
          nextBuffer := if x.needsBuffer then none else s.nextBuffer
          copiesPendingStart := rest
          copiesPendingStartCount := s.copiesPendingStartCount - 1
          submit := .starting n r }

/-- `toAdd` is set: the empty-file branch opens only the destination. -/
def startingStep (n r : ℕ) (s : State) : State :=
  withRunner s r fun x _ =>
    { s with submit := .ensure n r (if x.size = 0 then .dest else .source) .check }

/-- What follows a successful `ensureOpened`. -/
def afterEnsure (n r : ℕ) (side : Side) (x : CopyRunner) : SubmitPc :=
  match side with
  | .source => .ensure n r .dest .check
  | .dest => if x.size = 0 then .closing (.emptyFile n) r .enter none else .batch n r

/-- What follows an `ensureOpened` that returned an error. -/
def afterEnsureFailed (n r : ℕ) (x : CopyRunner) (e : Error) : SubmitPc :=
  if x.size = 0 then .recording e (.emptyFile n r) else .closing (.addFailed n e) r .enter none

/-- A step of `ensureOpened`. -/
def ensureStep (n r : ℕ) (side : Side) (stage : EnsureStage) (a : Answer) (s : State) :
    Option State :=
  match stage, a with
  | .check, .tick => some <| withRunner s r fun _ f =>
    match (f.fd side).fd with
    | .neverOpened => { s with submit := .ensure n r side (.reserve .load) }
    | .opened _ => { s with submit := .ensure n r side (.reserve .done) }
    | .closed => { s with
        debugFailures := s.debugFailures ++ [.ensureOpenedClosed]
        submit := .ensure n r side (.reserve .done) }
  | .reserve .load, .tick =>
    some { s with submit := .ensure n r side (.reserve (.cas s.fileDescriptorsUsed)) }
  | .reserve (.cas expected), .tick =>
    -- a reservation that fails is tried again, without limit
    if expected ≥ cfg.fileDescriptorCap ∨ s.fileDescriptorsUsed ≠ expected then
      some { s with submit := .ensure n r side (.reserve .load) }
    else
      some { s with
        fileDescriptorsUsed := expected + 1
        submit := .ensure n r side (.reserve .opening) }
  | .reserve .opening, .opened answers => some <| withRunner s r fun x f =>
    match doOpen cfg false x.file f side answers s with
    | (s', none) => { s' with submit := .ensure n r side (.reserve .done) }
    | (s', some e) => { s' with failed := true, submit := .ensure n r side (.failed e) }
  | .reserve .done, .tick => some <| withRunner s r fun x _ =>
    { s with submit := afterEnsure n r side x }
  | .failed e, .tick => some <| withRunner s r fun x _ =>
    { s with
      totalBytesFailed := s.totalBytesFailed + x.size
      submit := afterEnsureFailed n r x e }
  | _, _ => none

/-- `submitReadWriteCommands`, with both files open. -/
def batchStep (n r : ℕ) (randRead randWrite : ℕ) (s : State) : State :=
  withRunner s r fun x f =>
    if x.jobsRunning ≠ 0 then abort .submitJobsRunning s
    else
      let sqes := x.requests cfg.modes randRead randWrite f.sourceFd.getFd f.destFd.getFd r
      if cfg.ringSize < s.sq.length + sqes.length then { s with submit := .spinning }
      else { s with
        sq := s.sq ++ sqes
        submissionsRunning := s.submissionsRunning + sqes.length
        runners := s.runners.modify r fun x => x.submitted cfg.modes randRead sqes.length
        submit := .adding (n + 1) }

/-- `io_uring_submit`, when a runner was added. The kernel consumes the first `ret` entries. -/
def submittingStep (n : ℕ) (a : Answer) (s : State) : Option State :=
  match a with
  | .tick => if n = 0 then some { s with submit := .completing } else none
  | .submitted ret =>
    if n = 0 then none
    else if ret = -EAGAIN ∨ ret = -EINTR then some s
    else if 0 < ret then
      if ret ≤ s.sq.length then
        let batch := s.sq.take ret.toNat
        some { s with
          sq := s.sq.drop ret.toNat
          chains := s.chains ++ (splitChains batch).map fun reqs => { reqs }
          submitCalls := s.submitCalls ++ [batch]
          submit := .completing }
      else none
    else some (abort .submitFailed s)
  | _ => none

/-! ## `handleFileClose`, `onError` and `~CopyRunner` -/

/-- What follows a `handleFileClose` that returned `result`. -/
def afterClose : CloseCaller → ℕ → Option Error → SubmitPc
  | .finished, r, none => .finishing r
  | .finished, r, some e => .recording e (.finished r)
  | .saveError, r, _ => .event r
  | .addFailed n e, r, _ => .deleting r (.addFailed n e)
  | .emptyFile n, r, none => .deleting r (.emptyFile n)
  | .emptyFile n, r, some e => .recording e (.emptyFile n r)

/-- What follows the branch of one side. -/
def closeNext (caller : CloseCaller) (r : ℕ) (side : Side) (result : Option Error) : SubmitPc :=
  match side with
  | .source => .closing caller r (.close .dest) result
  | .dest => afterClose caller r result

/-- A step of `handleFileClose`. -/
def closingStep (caller : CloseCaller) (r : ℕ) (stage : CloseStage) (result : Option Error)
    (a : Answer) (s : State) : Option State :=
  match stage, a with
  | .enter, .tick => some <| withRunner s r fun _ f =>
    { s with submit := if f.chunksRemaining = 1 then .closing caller r (.close .source) result
        else afterClose caller r result }
  | .close side, .closed answer => some <| withRunner s r fun x f =>
    if (f.fd side).isOpen then
      { s with
        files := s.files.modify x.file fun y => y.modifyFd (·.closedByKernel) side
        failed := s.failed || (myClose cfg.strerror answer).isSome
        submit := .closing caller r (.notify side) (result <|> myClose cfg.strerror answer) }
    else { s with submit := .closing caller r (.next side) result }
  | .notify side, .tick => some <| withRunner s r fun x _ =>
    { s with
      files := s.files.modify x.file fun y => y.modifyFd (·.notifyClosed) side
      fileDescriptorsUsed := s.fileDescriptorsUsed - 1
      submit := .closing caller r (.next side) result }
  | .next side, .tick => some { s with submit := closeNext caller r side result }
  | _, _ => none

/-- `onError`. -/
def recordError (e : Error) (s : State) : State :=
  { s with errored := true, recorded := s.recorded ++ [e] }

/-- What follows `onError` on the submit thread. After a failed `addToBatch`, `doneAdding` is still
set. -/
def afterError : ErrorCaller → SubmitPc
  | .finished r => .finishing r
  | .completion r => .deleting r .completion
  | .addFailed n => .submitting n
  | .emptyFile n r => .deleting r (.emptyFile n)

/-- `onCopyCompleted`, as far as it counts. -/
def finishingStep (r : ℕ) (s : State) : State :=
  withRunner s r fun x _ =>
    { s with
      bigCopiesRemaining := if BIG_FILE_SIZE < x.size then decU64 s.bigCopiesRemaining
        else s.bigCopiesRemaining
      smallCopiesRemaining := if BIG_FILE_SIZE < x.size then s.smallCopiesRemaining
        else decU64 s.smallCopiesRemaining
      submit := .deleting r .completion }

/-- The debug assertion of `~QueueFileDescriptor`. -/
def destroyedFailures (f : JobFiles) : List DebugAssert :=
  (if f.sourceFd.isOpen then [.destroyedOpen] else [])
    ++ (if f.destFd.isOpen then [.destroyedOpen] else [])

/-- `(*chunksRemaining)--`, and the deletion of the shared objects by the last runner. A descriptor
whose last open failed is a failure that its job has suffered. -/
def releaseFiles (id : ℕ) (f : JobFiles) (s : State) : State :=
  if f.chunksRemaining = 1 then
    { s with
      files := s.files.erase id
      failed := s.failed || f.sourceFd.openFailed || f.destFd.openFailed
      debugFailures := s.debugFailures ++ destroyedFailures f }
  else
    { s with files := s.files.modify id fun y => { y with chunksRemaining := y.chunksRemaining - 1 } }

/-- What follows the deletion of a runner. -/
def afterDelete : DeleteCaller → SubmitPc
  | .completion => .seen
  | .addFailed n e => .recording e (.addFailed n)
  | .emptyFile n => .adding n

/-- `~CopyRunner`. -/
def deletingStep (r : ℕ) (caller : DeleteCaller) (s : State) : State :=
  withRunner s r fun x f =>
    if x.jobsRunning ≠ 0 then abort .dtorJobsRunning s
    else
      releaseFiles x.file f { s with
        usedList := match x.buffer with
          | some b => cfg.heap.returnBlock s.usedList b
          | none => s.usedList
        keepAliveCount := s.keepAliveCount - 1
        runners := s.runners.erase r
        destroyed := s.destroyed ++ [x]
        submit := afterDelete caller }

/-! ## The COMPLETE phase -/

/-- Whether a completion makes a runner save its first error. -/
def savesError (before after : CopyRunner) : Bool :=
  before.savedError.isNone && after.savedError.isSome

/-- Whether a completion reports a failed transfer: an error other than the cancellation of a write,
or the end of the file where more was expected. -/
def Cqe.isFailure (c : Cqe) : Bool :=
  match c.event with
  | .read => decide (c.res ≤ 0)
  | .write => decide (c.res < 0) && decide (c.res ≠ -ECANCELED)

/-- `onCompletionEvent` for the completion that was peeked, at position `i`. -/
def completionStep (i : ℕ) (c : Cqe) (s : State) : State :=
  withRunner s c.runner fun x f =>
    let y := x.onCompletionEvent cfg.strerror cfg.modes f.sourceFd.path f.destFd.path c.event c.res
    { s with
      cq := s.cq.eraseIdx i
      runners := s.runners.modify c.runner fun x =>
        x.onCompletionEvent cfg.strerror cfg.modes f.sourceFd.path f.destFd.path c.event c.res
      totalBytesCopied := s.totalBytesCopied + (y.writeOffset - x.writeOffset)
      failed := s.failed || Cqe.isFailure c
      submit := if savesError x y then .closing .saveError c.runner .enter none
        else .event c.runner }

/-- The head of the loop over the completions. -/
def completingStep (a : Answer) (s : State) : Option State :=
  match a with
  | .tick => if s.submissionsRunning = 0 then some { s with submit := .checkDone } else none
  | .peeked none => if s.submissionsRunning = 0 then none else some { s with submit := .checkDone }
  | .peeked (some i) =>
    if s.submissionsRunning = 0 then none
    else match s.cq[i]? with
      | none => none
      | some c => some (completionStep cfg i c s)
  | _ => none

/-- The dispatch on the result of `onCompletionEvent`. -/
def afterEvent (r : ℕ) : CopyRunner.RunnerResult → SubmitPc
  | .finished => .closing .finished r .enter none
  | .error e => .recording e (.completion r)
  | .reschedule => .seen
  | .continue => .seen

/-- `onCompletionEvent` has returned. -/
def eventStep (r : ℕ) (s : State) : State :=
  withRunner s r fun x _ =>
    { s with
      copiesPendingContinue := if x.runnerResult = .reschedule then s.copiesPendingContinue ++ [r]
        else s.copiesPendingContinue
      submit := afterEvent r x.runnerResult }

/-- The end of the outer loop. -/
def checkDoneStep (s : State) : State :=
  if isDone s then
    if s.completionAction = .exitProcessNoCleanup ∧ ¬ cfg.showingProgress then
      { s with halted := some (.exit s.errored) }
    else { s with
      usedList := match s.nextBuffer with
        | some b => cfg.heap.returnBlock s.usedList b
        | none => s.usedList
      nextBuffer := none
      submit := .returned }
  else { s with submit := .top }

/-- A step of the submit thread. -/
def submitStep (a : Answer) (s : State) : Option State :=
  match s.submit, a with
  | .top, .tick => some { s with submit := .adding 0 }
  | .adding n, .tick => some (addingStep cfg n s)
  | .fetching n, .tick => some (fetchingStep cfg n s)
  | .picking n, .tick => some (pickingStep n s)
  | .taking n, .tick => some (takingStep cfg n s)
  | .starting n r, .tick => some (startingStep n r s)
  | .ensure n r side stage, a => ensureStep cfg n r side stage a s
  | .batch n r, .rand randRead randWrite => some (batchStep cfg n r randRead randWrite s)
  | .closing caller r stage result, a => closingStep cfg caller r stage result a s
  | .recording e caller, .tick => some { recordError e s with submit := afterError caller }
  | .finishing r, .tick => some (finishingStep r s)
  | .deleting r caller, .tick => some (deletingStep cfg r caller s)
  | .submitting n, a => submittingStep n a s
  | .completing, a => completingStep cfg a s
  | .event r, .tick => some (eventStep r s)
  | .seen, .tick => some { s with
      submissionsRunning := s.submissionsRunning - 1
      submit := .completing }
  | .checkDone, .tick => some (checkDoneStep cfg s)
  | _, _ => none

/-! ## The progress thread and the kernel -/

/-- A step of the progress thread. -/
def progressStep (s : State) : Option State :=
  match s.progress with
  | .looping => if isDone s || s.progressEnd then some { s with progress := .ended } else none
  | .ended =>
    if s.completionAction = .exitProcessNoCleanup then
      some { s with halted := some (.exit s.errored) }
    else some { s with progress := .returned }
  | _ => none

/-- The kernel completes the first request of chain `i` with the result `res`. -/
def kernelStep (i : ℕ) (res : ℤ) (s : State) : Option State :=
  match s.chains[i]? with
  | none => none
  | some chain =>
    match chain.complete s.storage res with
    | none => none
    | some (chain', storage, cqe) => some { s with
        chains := s.chains.set i chain'
        storage
        cq := s.cq ++ [cqe] }

/-- A step of the system. -/
def step (s : State) (l : Label) : Option State :=
  if s.halted.isSome then none
  else match l with
    | .start => if s.main = .ready then some (start cfg s) else none
    | .addCopyJob job =>
      if s.main = .ready ∧ s.state ≠ .additionComplete then some (beginCopyJob job s) else none
    | .walkError e =>
      if s.main = .ready then some { recordError e s with failed := true } else none
    | .join action =>
      if s.main = .ready ∧ s.state = .running then
        some { s with state := .additionComplete, main := .joinAction action }
      else none
    | .main a => mainStep cfg a s
    | .submit a => submitStep cfg a s
    | .progress => progressStep s
    | .kernel i res => kernelStep i res s
    | .otherProcess ino content => some { s with
        storage := { s.storage with disk := Function.update s.storage.disk ino content } }

/-- A queue as its constructor makes it, with any memory and any disk. -/
def initial (storage : Storage) : State :=
  { usedList := List.replicate cfg.heap.blocks false, storage }

/-- The transition system of a queue. -/
def system : Transition.System State Label where
  init s := ∃ storage, s = initial cfg storage
  step := step cfg

end CopyQueue

end Wcp
