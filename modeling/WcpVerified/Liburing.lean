import WcpVerified.CopyQueue
import WcpVerified.Library.RingBuffer

/-!
# The rings of `liburing`

The submission ring and the completion ring are memory shared with the kernel. Their counters are
32-bit numbers that run on and wrap, and a mask makes a slot of a counter. `io_uring_get_sqe` hands
out the slot behind `sqe_tail`; `__io_uring_flush_sq` writes the slots handed out since the last time
into `array`, and moves `ktail` there; the kernel reads `array` and the entries from `khead` on. On
the other ring the kernel posts at `ktail`, and `io_uring_cqe_seen` moves `khead`. A completion that
finds its ring full is kept by the kernel, which says so in `kflags`.
-/

namespace Wcp

open MachineWord RingBuffer

/-- `unsigned`. -/
abbrev U32 := BitVec 32

/-- `struct io_uring_sq`, without the addresses of its memory. -/
structure IoUringSq (α : Type) where
  khead : U32 := 0
  ktail : U32 := 0
  kringMask : U32
  kringEntries : U32
  array : U32 → U32
  sqes : U32 → α
  sqeHead : U32 := 0
  sqeTail : U32 := 0

namespace IoUringSq

variable {α : Type}

/-- `__io_uring_get_sqe`: the slot of the entry to fill, unless the ring is full. -/
def getSqe (sq : IoUringSq α) : Option U32 × IoUringSq α :=
  let next := sq.sqeTail + 1
  if next - sq.khead ≤ sq.kringEntries then
    (some (sq.sqeTail &&& sq.kringMask), { sq with sqeTail := next })
  else (none, sq)

/-- The caller fills the entry in. -/
def prep (slot : U32) (e : α) (sq : IoUringSq α) : IoUringSq α :=
  { sq with sqes := Function.update sq.sqes slot e }

/-- Entries got and filled one after the other. `none` if no slot was free for one of them. -/
def prepAll : List α → IoUringSq α → Option (IoUringSq α)
  | [], sq => some sq
  | e :: es, sq =>
    match sq.getSqe with
    | (some slot, sq) => prepAll es (sq.prep slot e)
    | (none, _) => none

/-- The loop of `__io_uring_flush_sq`, which runs `toSubmit` times. -/
def fillArray : ℕ → IoUringSq α → IoUringSq α
  | 0, sq => sq
  | toSubmit + 1, sq => fillArray toSubmit { sq with
      array := Function.update sq.array (sq.ktail &&& sq.kringMask) (sq.sqeHead &&& sq.kringMask)
      ktail := sq.ktail + 1
      sqeHead := sq.sqeHead + 1 }

/-- `__io_uring_flush_sq`, with the number of entries that the kernel has not consumed. -/
def flushSq (sq : IoUringSq α) : U32 × IoUringSq α :=
  let sq := if sq.sqeHead = sq.sqeTail then sq
    else sq.fillArray (sq.sqeTail - sq.sqeHead).toNat
  (sq.ktail - sq.khead, sq)

/-- The kernel consumes `n` entries. It drops an index that is out of range. -/
def consume : ℕ → IoUringSq α → List α × IoUringSq α
  | 0, sq => ([], sq)
  | n + 1, sq =>
    let index := sq.array (sq.khead &&& sq.kringMask)
    let rest := consume n { sq with khead := sq.khead + 1 }
    (if index < sq.kringEntries then sq.sqes index :: rest.1 else rest.1, rest.2)

/-- The entries that were got and not consumed. -/
def queued (sq : IoUringSq α) : List α :=
  window sq.kringMask sq.sqes sq.khead (sq.sqeTail - sq.khead).toNat

end IoUringSq

/-- `struct io_uring_cq`, with the completions that the kernel keeps because the ring was full:
`IORING_SQ_CQ_OVERFLOW` is set if there are any. -/
structure IoUringCq (β : Type) where
  khead : U32 := 0
  ktail : U32 := 0
  kringMask : U32
  kringEntries : U32
  cqes : U32 → β
  overflow : List β := []

namespace IoUringCq

variable {β : Type}

/-- The kernel posts a completion. -/
def post (c : β) (cq : IoUringCq β) : IoUringCq β :=
  if cq.ktail - cq.khead < cq.kringEntries ∧ cq.overflow.isEmpty then
    { cq with
      cqes := Function.update cq.cqes (cq.ktail &&& cq.kringMask) c
      ktail := cq.ktail + 1 }
  else { cq with overflow := cq.overflow ++ [c] }

/-- `__io_uring_peek_cqe`. -/
def peekCqe (cq : IoUringCq β) : Option β :=
  if cq.ktail - cq.khead = 0 then none else some (cq.cqes (cq.khead &&& cq.kringMask))

/-- `cq_ring_needs_flush`. -/
def needsFlush (cq : IoUringCq β) : Bool := !cq.overflow.isEmpty

/-- `io_uring_enter` with `IORING_ENTER_GETEVENTS`: the kernel posts what it has kept. -/
def flushOverflow (cq : IoUringCq β) : IoUringCq β :=
  cq.overflow.foldl (fun cq c => cq.post c) { cq with overflow := [] }

/-- `_io_uring_get_cqe` as `io_uring_peek_cqe` calls it: it neither submits nor waits. -/
def getCqe (cq : IoUringCq β) : Option β × IoUringCq β :=
  match cq.peekCqe with
  | some c => (some c, cq)
  | none => if cq.needsFlush then (cq.flushOverflow.peekCqe, cq.flushOverflow) else (none, cq)

/-- `io_uring_cq_advance`. -/
def cqAdvance (nr : U32) (cq : IoUringCq β) : IoUringCq β :=
  if nr = 0 then cq else { cq with khead := cq.khead + nr }

/-- `io_uring_cqe_seen`. -/
def cqeSeen (cq : IoUringCq β) : IoUringCq β := cq.cqAdvance 1

/-- The completions that were posted and not seen. -/
def posted (cq : IoUringCq β) : List β :=
  window cq.kringMask cq.cqes cq.khead (cq.ktail - cq.khead).toNat

end IoUringCq

/-! ## A queue on its rings -/

/-- What a queue is constructed with, and what the kernel promises of the rings: their sizes are
powers of two, and the completion ring is twice as large. -/
structure RingConfig where
  config : Config
  order : ℕ
  ringSize_eq : config.ringSize = 2 ^ order
  order_lt : order < 31

/-- A queue with the rings it uses. The lists `sq` and `cq` of the queue itself stay empty. -/
structure RingQueue where
  queue : State
  sq : IoUringSq Sqe
  cq : IoUringCq Cqe

namespace RingQueue

variable (rc : RingConfig)

/-- The requests that `submitReadWriteCommands` makes slots for. -/
def batchRequests (r randRead randWrite : ℕ) (s : State) : List Sqe :=
  match s.runners.get? r with
  | none => []
  | some x =>
    match s.files.get? x.file with
    | none => []
    | some f =>
      if x.jobsRunning ≠ 0 then []
      else x.requests rc.config.modes randRead randWrite f.sourceFd.getFd f.destFd.getFd r

/-- `submitReadWriteCommands`. While `getSqe` spins, nobody consumes an entry. -/
def batchStep (n r randRead randWrite : ℕ) (w : RingQueue) : RingQueue :=
  match w.sq.prepAll (batchRequests rc r randRead randWrite w.queue) with
  | none => { w with queue := { w.queue with submit := .spinning } }
  | some sq => { w with
      sq
      queue := CopyQueue.withRunner w.queue r fun x f =>
        if x.jobsRunning ≠ 0 then CopyQueue.abort .submitJobsRunning w.queue
        else
          let count := (x.requests rc.config.modes randRead randWrite f.sourceFd.getFd
            f.destFd.getFd r).length
          { w.queue with
            submissionsRunning := w.queue.submissionsRunning + count
            runners := w.queue.runners.modify r fun x => x.submitted rc.config.modes randRead count
            submit := .adding (n + 1) } }

/-- `io_uring_submit`: the entries are made visible before the kernel is called. -/
def submittingStep (n : ℕ) (a : Answer) (w : RingQueue) : Option RingQueue :=
  match a with
  | .tick => if n = 0 then some { w with queue := { w.queue with submit := .completing } } else none
  | .submitted ret =>
    if n = 0 then none
    else
      let toSubmit := w.sq.flushSq.1
      let sq := w.sq.flushSq.2
      if ret = -EAGAIN ∨ ret = -EINTR then some { w with sq }
      else if 0 < ret then
        if ret ≤ toSubmit.toNat then
          let batch := (sq.consume ret.toNat).1
          some { w with
            sq := (sq.consume ret.toNat).2
            queue := { w.queue with
              chains := w.queue.chains ++ (splitChains batch).map fun reqs => { reqs }
              submitCalls := w.queue.submitCalls ++ [batch]
              submit := .completing } }
        else none
      else some { w with sq, queue := CopyQueue.abort .submitFailed w.queue }
  | _ => none

/-- The head of the loop over the completions. -/
def completingStep (a : Answer) (w : RingQueue) : Option RingQueue :=
  match a with
  | .tick =>
    if w.queue.submissionsRunning = 0 then
      some { w with queue := { w.queue with submit := .checkDone } }
    else none
  | .peeked none =>
    if w.queue.submissionsRunning = 0 ∨ w.cq.getCqe.1.isSome then none
    else some { w with cq := w.cq.getCqe.2, queue := { w.queue with submit := .checkDone } }
  | .peeked (some 0) =>
    if w.queue.submissionsRunning = 0 then none
    else w.cq.getCqe.1.map fun c => { w with
      cq := w.cq.getCqe.2
      queue := CopyQueue.completionStep rc.config 0 c w.queue }
  | _ => none

/-- A step that does not use the rings. -/
def otherStep (l : Label) (w : RingQueue) : Option RingQueue :=
  (CopyQueue.step rc.config w.queue l).map fun q => { w with queue := q }

/-- A step of the submit thread. -/
def submitStep (a : Answer) (w : RingQueue) : Option RingQueue :=
  match w.queue.submit, a with
  | .batch n r, .rand randRead randWrite => some (batchStep rc n r randRead randWrite w)
  | .submitting n, a => submittingStep n a w
  | .completing, a => completingStep rc a w
  | .seen, .tick => (otherStep rc (.submit .tick) w).map fun w => { w with cq := w.cq.cqeSeen }
  | _, a => otherStep rc (.submit a) w

/-- The kernel completes the first request of chain `i` with the result `res`. -/
def kernelStep (i : ℕ) (res : ℤ) (w : RingQueue) : Option RingQueue :=
  match w.queue.chains[i]? with
  | none => none
  | some chain =>
    match chain.complete w.queue.storage res with
    | none => none
    | some (chain', storage, cqe) => some { w with
        queue := { w.queue with chains := w.queue.chains.set i chain', storage }
        cq := w.cq.post cqe }

/-- A step of the system. -/
def step (w : RingQueue) (l : Label) : Option RingQueue :=
  if w.queue.halted.isSome then none
  else match l with
    | .submit a => submitStep rc a w
    | .kernel i res => kernelStep i res w
    | l => otherStep rc l w

/-- The rings as `io_uring_queue_init_params` maps them, with any memory. -/
def initial (storage : Storage) (array : U32 → U32) (sqes : U32 → Sqe) (cqes : U32 → Cqe) :
    RingQueue where
  queue := CopyQueue.initial rc.config storage
  sq := { kringMask := mask 32 rc.order, kringEntries := BitVec.ofNat 32 (2 ^ rc.order), array, sqes }
  cq := {
    kringMask := mask 32 (rc.order + 1)
    kringEntries := BitVec.ofNat 32 (2 ^ (rc.order + 1))
    cqes }

/-- The transition system of a queue on its rings. -/
def system : Transition.System RingQueue Label where
  init w := ∃ storage array sqes cqes, w = initial rc storage array sqes cqes
  step := step rc

end RingQueue

end Wcp
