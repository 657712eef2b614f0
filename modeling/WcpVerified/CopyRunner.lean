import WcpVerified.Util

/-!
# `CopyRunner`: one chunk of a file

The part of a runner that concerns only the runner itself: which requests
`submitReadWriteCommands` prepares, and what `onCompletionEvent` makes of a result. The state shared
between the runners of a file and the queue is in `WcpVerified.CopyQueue`.
-/

namespace Wcp

open MachineWord

/-- `EventData::Type`. -/
inductive EventType where
  | read
  | write
deriving DecidableEq

/-- `CopyRunner`. The pointers `sourceFd`, `destFd` and `chunksRemaining` are shared by all the
runners of a file: `file` is where they live. -/
structure CopyRunner where
  file : ℕ
  offset : ℕ
  size : ℕ
  alignment : ℕ
  buffer : Option ℕ := none
  bufferAligned : ℕ := 0
  readOffset : ℕ
  writeOffset : ℕ
  jobsRunning : ℕ := 0
  savedError : Option Error := none
  /-- `eventDataBuffers[0].resultOverride`. -/
  readOverride : ℤ := s32Max
  /-- `eventDataBuffers[1].resultOverride`. -/
  writeOverride : ℤ := s32Max

/-- What a submission queue entry asks for. -/
inductive SqeOp where
  | read
  | write
  | nop
deriving DecidableEq

/-- A submission queue entry. `fd` is the open file (`none` is a descriptor that is not open), and
the runner and the event type stand for the pointer `user_data`. -/
structure Sqe where
  op : SqeOp
  fd : Option Ino := none
  addr : ℕ := 0
  len : ℕ := 0
  off : ℕ := 0
  /-- `IOSQE_IO_LINK`. -/
  link : Bool := false
  runner : ℕ
  event : EventType
deriving DecidableEq

/-- The configuration flags that make transfers artificially short. -/
structure DebugModes where
  /-- `Config::DEBUG_FORCE_PARTIAL_READS`. -/
  forcePartialReads : Bool := false
  /-- `Config::DEBUG_FORCE_PARTIAL_WRITES`. -/
  forcePartialWrites : Bool := false
deriving DecidableEq

/-- `MAX_JOBS_PER_RUNNER`. -/
def MAX_JOBS_PER_RUNNER : ℕ := 2

namespace CopyRunner

/-- The end of the chunk in the file. -/
def chunkEnd (r : CopyRunner) : ℕ := r.offset + r.size

/-- A runner as its constructor makes it. -/
def create (file offset size alignment : ℕ) : CopyRunner :=
  { file, offset, size, alignment, readOffset := offset, writeOffset := offset }

/-- `needsBuffer`. -/
def needsBuffer (r : CopyRunner) : Bool := r.buffer.isNone && decide (0 < r.size)

/-- `(uintptr_t(buffer) - 1u + alignment) & -alignment`. -/
def alignBuffer (buffer alignment : ℕ) : ℕ :=
  addU64 (subU64 buffer 1) alignment &&& subU64 0 alignment

/-- `giveBuffer`, up to its assertions. -/
def giveBuffer (r : CopyRunner) (buffer : ℕ) : CopyRunner :=
  { r with buffer := some buffer, bufferAligned := alignBuffer buffer r.alignment }

/-! ## `submitReadWriteCommands` -/

/-- `bytesToRead` before alignment, and `readForcedPartial`. `rand` is what `rand()` returned. -/
def plannedRead (modes : DebugModes) (rand : ℕ) (r : CopyRunner) : ℕ × Bool :=
  let bytesToRead := toU32 ((r.chunkEnd : ℤ) - r.readOffset)
  let bytesToRead :=
    if modes.forcePartialReads && decide (0 < bytesToRead) then rand % bytesToRead + 1
    else bytesToRead
  (bytesToRead, decide ((bytesToRead : ℤ) < (r.chunkEnd : ℤ) - r.readOffset))

/-- `bytesToRead` rounded up to a multiple of the alignment, as `O_DIRECT` wants it. -/
def alignReadSize (alignment bytesToRead : ℕ) : ℕ :=
  if bytesToRead % alignment ≠ 0 then (bytesToRead / alignment + 1) * alignment % 2 ^ 32
  else bytesToRead

/-- The read request of a round, if there is anything left to read. -/
def readSqe (modes : DebugModes) (rand : ℕ) (sourceFd : Option Ino) (self : ℕ) (r : CopyRunner) :
    List Sqe :=
  let bytesToRead := (plannedRead modes rand r).1
  if bytesToRead ≠ 0 then
    [{ op := .read, fd := sourceFd, addr := r.bufferAligned + r.readOffset - r.offset,
       len := alignReadSize r.alignment bytesToRead, off := r.readOffset, link := true,
       runner := self, event := .read }]
  else []

/-- `bytesToWrite`. -/
def plannedWrite (modes : DebugModes) (rand : ℕ) (r : CopyRunner) : ℕ :=
  let bytesToWrite := toU32 ((r.chunkEnd : ℤ) - r.writeOffset)
  if modes.forcePartialWrites then rand % (bytesToWrite + 1) else bytesToWrite

/-- The write request of a round. In the mode of forced partial reads, a read that is to be reported
short has a nop in the place of the write that the kernel would cancel. -/
def writeSqe (modes : DebugModes) (randRead randWrite : ℕ) (destFd : Option Ino) (self : ℕ)
    (r : CopyRunner) : List Sqe :=
  if r.writeOffset < r.chunkEnd then
    if modes.forcePartialReads && (plannedRead modes randRead r).2 then
      [{ op := .nop, runner := self, event := .write }]
    else
      [{ op := .write, fd := destFd, addr := r.bufferAligned + r.writeOffset - r.offset,
         len := plannedWrite modes randWrite r, off := r.writeOffset,
         runner := self, event := .write }]
  else []

/-- The requests `submitReadWriteCommands` queues, in order, once both files are open. -/
def requests (modes : DebugModes) (randRead randWrite : ℕ) (sourceFd destFd : Option Ino)
    (self : ℕ) (r : CopyRunner) : List Sqe :=
  readSqe modes randRead sourceFd self r ++ writeSqe modes randRead randWrite destFd self r

/-- The runner after `submitReadWriteCommands` queued its requests: `getSqe` counted each of them,
and the results to be reported in a debug mode are set. -/
def submitted (modes : DebugModes) (randRead : ℕ) (count : ℕ) (r : CopyRunner) : CopyRunner :=
  let plan := plannedRead modes randRead r
  { r with
    jobsRunning := r.jobsRunning + count
    readOverride := if modes.forcePartialReads && decide (plan.1 ≠ 0) && plan.2
      then toS32 plan.1 else r.readOverride
    writeOverride := if modes.forcePartialReads && decide (r.writeOffset < r.chunkEnd) && plan.2
      then -ECANCELED else r.writeOverride }

/-! ## `onCompletionEvent` -/

/-- The result after the debug override: an error or a shorter transfer may be reported in place of
a success, nothing in place of an error. -/
def spoof (modes : DebugModes) (override result : ℤ) : ℤ :=
  if modes.forcePartialReads && decide (override ≠ s32Max) && decide (0 ≤ result)
      && (decide (override < 0) || decide (override ≤ result)) then override
  else result

/-- The error a read result makes the runner save. -/
def readError (strerror : Errno → List Char) (sourcePath : Path) (result : ℤ) : Option Error :=
  if result = 0 then
    some ⟨"File shrank while copying: \"".toList ++ sourcePath ++ "\"".toList⟩
  else if result < 0 then
    some ⟨"Error reading file \"".toList ++ sourcePath ++ "\": \"".toList
      ++ strerror result.natAbs ++ "\"".toList⟩
  else none

/-- The error a write result makes the runner save. A cancelled write only means that the read
before it was short. -/
def writeError (strerror : Errno → List Char) (destPath : Path) (result : ℤ) : Option Error :=
  if result < 0 ∧ result ≠ -ECANCELED then
    some ⟨"Error writing file \"".toList ++ destPath ++ "\": \"".toList
      ++ strerror result.natAbs ++ "\"".toList⟩
  else none

/-- `readOffset` after a read that returned `result` bytes: back to an aligned offset unless the
whole chunk has been read. -/
def advanceRead (r : CopyRunner) (result : ℕ) : ℕ :=
  let readOffset := r.readOffset + result
  if toU32 ((r.chunkEnd : ℤ) - readOffset) ≠ 0 then readOffset / r.alignment * r.alignment
  else readOffset

/-- The runner after a completed read. -/
def onRead (strerror : Errno → List Char) (modes : DebugModes) (sourcePath : Path) (result : ℤ)
    (r : CopyRunner) : CopyRunner :=
  let result := spoof modes r.readOverride result
  { r with
    readOverride := if modes.forcePartialReads then s32Max else r.readOverride
    savedError := readError strerror sourcePath result
    readOffset := if result < 0 then r.readOffset else r.advanceRead result.toNat }

/-- The runner after a completed write. -/
def onWrite (strerror : Errno → List Char) (modes : DebugModes) (destPath : Path) (result : ℤ)
    (r : CopyRunner) : CopyRunner :=
  let result := spoof modes r.writeOverride result
  { r with
    writeOverride := if modes.forcePartialReads then s32Max else r.writeOverride
    savedError := writeError strerror destPath result
    writeOffset := if result < 0 then r.writeOffset else r.writeOffset + result.toNat }

/-- The body of `onCompletionEvent` up to the choice of its result. A runner that has already saved
an error only counts the completion. -/
def onCompletionEvent (strerror : Errno → List Char) (modes : DebugModes)
    (sourcePath destPath : Path) (event : EventType) (result : ℤ) (r : CopyRunner) : CopyRunner :=
  let r := { r with jobsRunning := r.jobsRunning - 1 }
  if r.savedError.isSome then r
  else match event with
    | .read => r.onRead strerror modes sourcePath result
    | .write => r.onWrite strerror modes destPath result

/-- `RunnerResult`. -/
inductive RunnerResult where
  | error (e : Error)
  | reschedule
  | finished
  | continue
deriving DecidableEq

/-- The result of `onCompletionEvent`, chosen by the runner's state after the event. -/
def runnerResult (r : CopyRunner) : RunnerResult :=
  if r.jobsRunning = 0 then
    match r.savedError with
    | some e => .error e
    | none => if r.writeOffset = r.chunkEnd then .finished else .reschedule
  else .continue

end CopyRunner

end Wcp
