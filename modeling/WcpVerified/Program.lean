import WcpVerified.CopyQueue
import WcpVerified.WcpMain

/-!
# The program: `wcpMain` and its queue

`wcpMain` starts the queue before it looks at its arguments, so the threads of the queue run beside
the directory walk. A step is a turn of the walk, the next call that the walk makes, the call of
`join`, or a step of the queue inside a call, of its threads or of the kernel.
-/

namespace Wcp

/-- The job of an operation. -/
def WalkOp.job? : WalkOp → Option Job
  | .addCopyJob job => some job
  | _ => none

/-- What an operation of the walk calls on the queue. -/
def WalkOp.call? : WalkOp → Option Label
  | .addCopyJob job => some (.addCopyJob job)
  | .onError _ e => some (.walkError e)
  | _ => none

/-- Whether a step is a call of the main thread, made from outside the queue. -/
def Label.isCall : Label → Bool
  | .start | .addCopyJob _ | .walkError _ | .join _ => true
  | _ => false

/-! ## The queue of the program -/

/-- `getPhysicalRamSize`; `none` is a failed assertion. -/
def getPhysicalRamSize (pages pageSize : ℤ) : Option ℕ :=
  if pages ≠ -1 ∧ pageSize ≠ -1 then
    some ((pages % 2 ^ 64).toNat * (pageSize % 2 ^ 64).toNat % 2 ^ 64)
  else none

/-- `ramQuota`, for a machine with `ram` bytes. -/
def ramQuota (ram : ℕ) : ℕ := max (ram / 10) (1024 * 1024 * 1024)

/-- The block size of the queue's heap. -/
def wcpBlockSize : ℕ := 128 * 1024 * 1024

/-- The number of blocks, and the ring size that is asked for. -/
def wcpBlocks (ram : ℕ) : ℕ := ramQuota ram / wcpBlockSize

/-- What `wcpMain` finds when it makes its queue: the size of the memory, the address that
`aligned_alloc` returned, and the size of the ring, which the kernel may make larger than asked. The two
calls have succeeded: an arena that cannot be allocated is not noticed by the code, and without a ring
the assertion of the constructor fails. -/
structure Machine where
  ram : ℕ
  data : ℕ
  sqEntries : ℕ
  data_aligned : 4096 ∣ data
  arena_le : data + wcpBlocks ram * wcpBlockSize ≤ 2 ^ 64
  sqEntries_ge : wcpBlocks ram ≤ sqEntries
  sqEntries_lt : sqEntries < 2 ^ 32

namespace Machine

theorem wcpAlignment_pow : ∃ k, 4096 = 2 ^ k := ⟨12, rfl⟩

/-- `Heap(ramQuota / blockSize, blockSize)`, with the default alignment. -/
def heap (m : Machine) : Heap where
  blocks := wcpBlocks m.ram
  blockSize := wcpBlockSize
  alignment := 4096
  data := m.data
  alignment_pow := wcpAlignment_pow
  data_aligned := m.data_aligned
  arena_le := m.arena_le

/-- The queue of `wcpMain`. -/
def config (m : Machine) (showingProgress : Bool) (strerror : Errno → List Char) : Config where
  ringSize := m.sqEntries
  fileDescriptorCap := 900
  heap := m.heap
  showingProgress := showingProgress
  strerror := strerror
  ringSize_lt := m.sqEntries_lt
  cap_ge := by decide
  cap_lt := by decide

end Machine

/-! ## The copy -/

section Plans

variable (fs : FileSystem) (strerror : Errno → List Char)

/-- `addFileCopy`: what it does, with or without the caller's `fromStatBuffer`. -/
def addFileCopy (src dest : Path) (fromStatBuffer : Option Statx) : List WalkOp :=
  match fromStatBuffer with
  | some sb => [.addCopyJob (Walk.jobOf src dest sb)]
  | none =>
    match myStatx strerror src (fs.statx src) with
    | .error e => [.onError src e]
    | .ok sb => [.addCopyJob (Walk.jobOf src dest sb)]

/-- What is done for a plan, as it begins. A file is a walk that is over. -/
def Plan.begin : Plan → Option WalkState
  | .fail _ => none
  | .aborted => none
  | .addRecursiveCopy src dest => some (Walk.start fs (Walk.withSlash src) (Walk.withSlash dest))
  | .addFileCopy src dest sb => some ⟨Wcp.addFileCopy fs strerror src dest (some sb), [], .done⟩

/-- A turn of one of the loops. -/
def Plan.turn : Plan → WalkState → WalkState
  | .addRecursiveCopy src dest =>
    Walk.step fs strerror (Walk.withSlash src) (Walk.withSlash dest)
  | _ => id

end Plans

/-- The program, once it knows what to copy. -/
structure Program where
  queue : State
  walk : WalkState
  /-- How many operations of the walk have been carried out. -/
  passed : ℕ := 0
  /-- Whether `join` has been called. -/
  joining : Bool := false

/-- The steps of the program. -/
inductive ProgramLabel where
  | walk
  /-- The next operation of the walk is carried out. -/
  | pass
  | join
  | queue (l : Label)

namespace Program

/-- The process runs, and the main thread is outside the functions of the queue. -/
def free (p : Program) : Bool := p.queue.halted.isNone && decide (p.queue.main = .ready)

variable (cfg : Config) (fs : FileSystem) (strerror : Errno → List Char) (plan : Plan)
  (action : OnCompletionAction)

/-- An operation of the walk, as far as the queue sees it. -/
def callStep (op : WalkOp) (s : State) : Option State :=
  match op.call? with
  | none => some s
  | some l => CopyQueue.step cfg s l

/-- A step of the program. -/
def step (p : Program) (l : ProgramLabel) : Option Program :=
  if p.walk.pc = .aborted then none
  else match l with
    | .walk =>
      if p.free ∧ p.passed = p.walk.ops.length ∧ p.walk.pc ≠ .done then
        some { p with walk := plan.turn fs strerror p.walk }
      else none
    | .pass =>
      if p.free then
        match p.walk.ops[p.passed]? with
        | none => none
        | some op => (callStep cfg op p.queue).map fun q => { p with queue := q, passed := p.passed + 1 }
      else none
    | .join =>
      if p.walk.pc = .done ∧ p.passed = p.walk.ops.length ∧ ¬ p.joining then
        (CopyQueue.step cfg p.queue (.join action)).map fun q => { p with queue := q, joining := true }
      else none
    | .queue l =>
      if l.isCall then none
      else (CopyQueue.step cfg p.queue l).map fun q => { p with queue := q }

/-- The program with a plan, on a disk with a given content. -/
def system (storage : Storage) : Transition.System Program ProgramLabel where
  init p := ∃ w, plan.begin fs strerror = some w ∧
    p = { queue := CopyQueue.start cfg (CopyQueue.initial cfg storage), walk := w }
  step := step cfg fs strerror plan action

/-- The exit status is 0: `join` has returned `true`, or the submit thread has ended the process. -/
def Succeeded (p : Program) : Prop :=
  p.queue.joined = [true] ∨
    cfg.showingProgress = false ∧ p.queue.halted = some (.exit false)

end Program

end Wcp
