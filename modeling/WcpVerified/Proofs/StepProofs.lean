import WcpVerified.CopyQueue

/-!
# Proofs: what a step of the queue can do

`Move` lists every way a step can go, with what was checked on the way and the state afterwards.
Every invariant of the queue is proved by cases on it; nothing else unfolds the step function.
-/

namespace Wcp

open MachineWord

/-- The runner that a caller of `onError` still holds. -/
def ErrorCaller.runner? : ErrorCaller → Option ℕ
  | .finished r => some r
  | .completion r => some r
  | .addFailed _ => none
  | .emptyFile _ r => some r

/-- The runner the submit thread is working on. -/
def SubmitPc.hand : SubmitPc → Option ℕ
  | .starting _ r => some r
  | .ensure _ r _ _ => some r
  | .batch _ r => some r
  | .closing _ r _ _ => some r
  | .recording _ caller => caller.runner?
  | .finishing r => some r
  | .deleting r _ => some r
  | .event r => some r
  | _ => none

namespace CopyQueue

/-- A runner, or the objects it shares, no longer exist. -/
def Dangling (s : State) (r : ℕ) : Prop :=
  s.runners.get? r = none ∨ ∃ x, s.runners.get? r = some x ∧ s.files.get? x.file = none

variable (cfg : Config)

/-- What was found when the process aborted. -/
inductive AbortReason (s : State) : Fault → Prop where
  | chunkSizeZero {f : ℕ} {job : Job} (hm : s.main = .ctor f job .dest .done)
      (h : job.stxSize ≠ 0 ∧ chunkSize cfg.heap job.stxBlksize = 0) : AbortReason s .chunkSizeZero
  | startNotIdle (hm : s.main = .ready) (h : s.state ≠ .idle) : AbortReason s .startNotIdle
  | dtor {r : ℕ} {k : DeleteCaller} {x : CopyRunner} (hp : s.submit = .deleting r k)
      (hr : s.runners.get? r = some x) (h : x.jobsRunning ≠ 0) : AbortReason s .dtorJobsRunning
  | submitJobs {n r : ℕ} {x : CopyRunner} (hp : s.submit = .batch n r)
      (hr : s.runners.get? r = some x) (h : x.jobsRunning ≠ 0) : AbortReason s .submitJobsRunning
  | giveBuffer {n r : ℕ} {rest : List ℕ} {x : CopyRunner} {fault : Fault}
      (hp : s.submit = .taking n) (hs : s.copiesPendingStart = r :: rest)
      (hr : s.runners.get? r = some x) (h : giveBufferFault cfg x s.nextBuffer = some fault) :
      AbortReason s fault
  | submitFailed {n : ℕ} (hp : s.submit = .submitting n) : AbortReason s .submitFailed
  | startEmpty {n : ℕ} (hp : s.submit = .taking n) (hs : s.copiesPendingStart = []) :
      AbortReason s .startEmpty
  | dangling {r : ℕ} (hp : s.submit.hand = some r) (hd : Dangling s r) :
      AbortReason s .useAfterFree
  | danglingStart {n r : ℕ} {rest : List ℕ} (hp : s.submit = .taking n)
      (hs : s.copiesPendingStart = r :: rest) (hd : Dangling s r) : AbortReason s .useAfterFree
  | danglingCqe {c : Cqe} (hp : s.submit = .completing) (hc : c ∈ s.cq)
      (hd : Dangling s c.runner) : AbortReason s .useAfterFree
  | danglingFile {f : ℕ} {job : Job} {side : Side} (hm : s.main = .ctor f job side .opening)
      (h : s.files.get? f = none) : AbortReason s .useAfterFree

/-- One step of the queue: every way it can go. -/
inductive Move (s : State) : Label → State → Prop where
  | abort {l : Label} {fault : Fault} (h : AbortReason cfg s fault) : Move s l (abort fault s)
  -- the main thread
  | start (hm : s.main = .ready) (hs : s.state = .idle) :
      Move s .start { s with
        state := .running, submit := .top, nextBuffer := none, copiesPendingContinue := []
        progress := if cfg.showingProgress then .looping else .notStarted }
  | addCopyJob {job : Job} (hm : s.main = .ready) (hs : s.state ≠ .additionComplete) :
      Move s (.addCopyJob job) (beginCopyJob job s)
  | walkError {e : Error} (hm : s.main = .ready) :
      Move s (.walkError e) { recordError e s with failed := true }
  | join {action : OnCompletionAction} (hm : s.main = .ready) (hs : s.state = .running) :
      Move s (.join action) { s with state := .additionComplete, main := .joinAction action }
  | ctorLoad {f : ℕ} {job : Job} {side : Side} (hm : s.main = .ctor f job side .load) :
      Move s (.main .tick) { s with main := .ctor f job side (.cas s.fileDescriptorsUsed) }
  | ctorSkip {f e : ℕ} {job : Job} {side : Side} (hm : s.main = .ctor f job side (.cas e)) :
      Move s (.main .tick) { s with main := .ctor f job side .done }
  | ctorReserve {f e : ℕ} {job : Job} {side : Side} (hm : s.main = .ctor f job side (.cas e))
      (hlt : e < cfg.fileDescriptorCap - RESERVED_HIGH_PRIORITY_FD_COUNT)
      (he : s.fileDescriptorsUsed = e) :
      Move s (.main .tick)
        { s with fileDescriptorsUsed := e + 1, main := .ctor f job side .opening }
  | ctorOpened {f : ℕ} {job : Job} {side : Side} {x : JobFiles} {ino : Ino}
      {answers : ℕ → Except Errno Ino} (hm : s.main = .ctor f job side .opening)
      (hf : s.files.get? f = some x)
      (ho : myOpen cfg.strerror (x.fd side).path (x.fd side).oflag answers = .ok ino) :
      Move s (.main (.opened answers)) { s with
        files := s.files.modify f fun y => y.modifyFd (·.openedAs true ino) side
        storage := truncateOnOpen (x.fd side) ino s.storage
        main := .ctor f job side .done }
  | ctorFailed {f : ℕ} {job : Job} {side : Side} {x : JobFiles} {e : Error}
      {answers : ℕ → Except Errno Ino} (hm : s.main = .ctor f job side .opening)
      (hf : s.files.get? f = some x)
      (ho : myOpen cfg.strerror (x.fd side).path (x.fd side).oflag answers = .error e) :
      Move s (.main (.opened answers)) { s with
        files := s.files.modify f fun y => y.modifyFd (·.failedOpen) side
        main := .ctor f job side .done }
  | ctorNext {f : ℕ} {job : Job} (hm : s.main = .ctor f job .source .done) :
      Move s (.main .tick) { s with main := .ctor f job .dest .load }
  | beginParts {f : ℕ} {job : Job} (hm : s.main = .ctor f job .dest .done)
      (hc : job.stxSize = 0 ∨ 0 < chunkSize cfg.heap job.stxBlksize)
      (hn : partCount cfg job < 2 ^ 31) :
      Move s (.main .tick) { s with
        files := s.files.modify f fun y => { y with chunksRemaining := partCount cfg job }
        main := .part f job (partAt cfg.heap job 0) .total }
  | partTotal {f : ℕ} {job : Job} {p : Part} (hm : s.main = .part f job p .total) :
      Move s (.main .tick) (partStep cfg f job p .total s)
  | partEta {f : ℕ} {job : Job} {p : Part} (hm : s.main = .part f job p .eta) :
      Move s (.main .tick) (partStep cfg f job p .eta s)
  | partPush {f : ℕ} {job : Job} {p : Part} (hm : s.main = .part f job p .push) :
      Move s (.main .tick) (partStep cfg f job p .push s)
  | joinAction {action : OnCompletionAction} (hm : s.main = .joinAction action) :
      Move s (.main .tick) { s with completionAction := action, main := .joinSubmit }
  | joinUnlock (hm : s.main = .joinSubmit) (hp : s.submit = .returned)
      (hsp : cfg.showingProgress = true) :
      Move s (.main .tick) { s with progressEnd := true, main := .joinProgress }
  | joinFinish (hm : s.main = .joinSubmit ∨ s.main = .joinProgress ∧ s.progress = .returned)
      (hp : s.main = .joinSubmit → s.submit = .returned ∧ cfg.showingProgress = false) :
      Move s (.main .tick) (finishJoin s)
  -- the SUBMIT phase
  | top (hp : s.submit = .top) : Move s (.submit .tick) { s with submit := .adding 0 }
  | wait {n : ℕ} (hp : s.submit = .adding n) (hw : mustWait cfg s = true) :
      Move s (.submit .tick) { s with submit := .submitting n }
  | goOn {n : ℕ} (hp : s.submit = .adding n) (hw : mustWait cfg s = false) :
      Move s (.submit .tick) { s with submit := .fetching n }
  | fetchHave {n : ℕ} (hp : s.submit = .fetching n) (hb : s.nextBuffer.isSome = true) :
      Move s (.submit .tick) { s with submit := .picking n }
  | fetch {n : ℕ} (hp : s.submit = .fetching n) (hb : s.nextBuffer = none) :
      Move s (.submit .tick) { s with
        nextBuffer := (cfg.heap.getBlock s.usedList).1
        usedList := (cfg.heap.getBlock s.usedList).2
        submit := .picking n }
  | pickContinue {n r : ℕ} {rest : List ℕ} (hp : s.submit = .picking n)
      (hc : s.copiesPendingContinue = r :: rest) :
      Move s (.submit .tick) { s with copiesPendingContinue := rest, submit := .starting n r }
  | pickStart {n : ℕ} (hp : s.submit = .picking n) (hc : s.copiesPendingContinue = [])
      (hb : s.nextBuffer.isSome = true) (hn : 0 < s.copiesPendingStartCount) :
      Move s (.submit .tick) { s with submit := .taking n }
  | pickNone {n : ℕ} (hp : s.submit = .picking n) (hc : s.copiesPendingContinue = [])
      (hb : s.nextBuffer = none ∨ s.copiesPendingStartCount = 0) :
      Move s (.submit .tick) { s with submit := .submitting n }
  | refuse {n r : ℕ} {rest : List ℕ} {x : CopyRunner} {f : JobFiles} (hp : s.submit = .taking n)
      (hs : s.copiesPendingStart = r :: rest) (hr : s.runners.get? r = some x)
      (hf : s.files.get? x.file = some f) (ho : outOfFds cfg s = true)
      (hn : f.needsFileDescriptors = true) :
      Move s (.submit .tick) { s with submit := .submitting n }
  | take {n r : ℕ} {rest : List ℕ} {x : CopyRunner} {f : JobFiles} (hp : s.submit = .taking n)
      (hs : s.copiesPendingStart = r :: rest) (hr : s.runners.get? r = some x)
      (hf : s.files.get? x.file = some f)
      (ho : outOfFds cfg s = false ∨ f.needsFileDescriptors = false)
      (hx : x.needsBuffer = false) :
      Move s (.submit .tick) { s with
        copiesPendingStart := rest
        copiesPendingStartCount := s.copiesPendingStartCount - 1
        submit := .starting n r }
  | takeGive {n r b : ℕ} {rest : List ℕ} {x : CopyRunner} {f : JobFiles}
      (hp : s.submit = .taking n)
      (hs : s.copiesPendingStart = r :: rest) (hr : s.runners.get? r = some x)
      (hf : s.files.get? x.file = some f)
      (ho : outOfFds cfg s = false ∨ f.needsFileDescriptors = false)
      (hx : x.needsBuffer = true) (hb : s.nextBuffer = some b)
      (hroom : (x.giveBuffer b).bufferAligned + x.size ≤ b + cfg.heap.blockSize) :
      Move s (.submit .tick) { s with
        runners := s.runners.modify r fun x => x.giveBuffer b
        nextBuffer := none
        copiesPendingStart := rest
        copiesPendingStartCount := s.copiesPendingStartCount - 1
        submit := .starting n r }
  | starting {n r : ℕ} {x : CopyRunner} {f : JobFiles} (hp : s.submit = .starting n r)
      (hr : s.runners.get? r = some x) (hf : s.files.get? x.file = some f) :
      Move s (.submit .tick)
        { s with submit := .ensure n r (if x.size = 0 then .dest else .source) .check }
  | checkNever {n r : ℕ} {side : Side} {x : CopyRunner} {f : JobFiles}
      (hp : s.submit = .ensure n r side .check) (hr : s.runners.get? r = some x)
      (hf : s.files.get? x.file = some f) (hd : (f.fd side).fd = .neverOpened) :
      Move s (.submit .tick) { s with submit := .ensure n r side (.reserve .load) }
  | checkOpened {n r : ℕ} {side : Side} {x : CopyRunner} {f : JobFiles} {ino : Ino}
      (hp : s.submit = .ensure n r side .check) (hr : s.runners.get? r = some x)
      (hf : s.files.get? x.file = some f) (hd : (f.fd side).fd = .opened ino) :
      Move s (.submit .tick) { s with submit := .ensure n r side (.reserve .done) }
  | checkClosed {n r : ℕ} {side : Side} {x : CopyRunner} {f : JobFiles}
      (hp : s.submit = .ensure n r side .check) (hr : s.runners.get? r = some x)
      (hf : s.files.get? x.file = some f) (hd : (f.fd side).fd = .closed) :
      Move s (.submit .tick) { s with
        debugFailures := s.debugFailures ++ [.ensureOpenedClosed]
        submit := .ensure n r side (.reserve .done) }
  | load {n r : ℕ} {side : Side} (hp : s.submit = .ensure n r side (.reserve .load)) :
      Move s (.submit .tick)
        { s with submit := .ensure n r side (.reserve (.cas s.fileDescriptorsUsed)) }
  | retry {n r e : ℕ} {side : Side} (hp : s.submit = .ensure n r side (.reserve (.cas e)))
      (he : cfg.fileDescriptorCap ≤ e ∨ s.fileDescriptorsUsed ≠ e) :
      Move s (.submit .tick) { s with submit := .ensure n r side (.reserve .load) }
  | reserve {n r e : ℕ} {side : Side} (hp : s.submit = .ensure n r side (.reserve (.cas e)))
      (hlt : e < cfg.fileDescriptorCap) (he : s.fileDescriptorsUsed = e) :
      Move s (.submit .tick) { s with
        fileDescriptorsUsed := e + 1
        submit := .ensure n r side (.reserve .opening) }
  | opened {n r : ℕ} {side : Side} {x : CopyRunner} {f : JobFiles} {ino : Ino}
      {answers : ℕ → Except Errno Ino} (hp : s.submit = .ensure n r side (.reserve .opening))
      (hr : s.runners.get? r = some x) (hf : s.files.get? x.file = some f)
      (ho : myOpen cfg.strerror (f.fd side).path (f.fd side).oflag answers = .ok ino) :
      Move s (.submit (.opened answers)) { s with
        files := s.files.modify x.file fun y => y.modifyFd (·.openedAs false ino) side
        storage := truncateOnOpen (f.fd side) ino s.storage
        submit := .ensure n r side (.reserve .done) }
  | openFailed {n r : ℕ} {side : Side} {x : CopyRunner} {f : JobFiles} {e : Error}
      {answers : ℕ → Except Errno Ino} (hp : s.submit = .ensure n r side (.reserve .opening))
      (hr : s.runners.get? r = some x) (hf : s.files.get? x.file = some f)
      (ho : myOpen cfg.strerror (f.fd side).path (f.fd side).oflag answers = .error e) :
      Move s (.submit (.opened answers)) { s with
        files := s.files.modify x.file fun y => y.modifyFd (·.failedOpen) side
        failed := true
        submit := .ensure n r side (.failed e) }
  | ensured {n r : ℕ} {side : Side} {x : CopyRunner} {f : JobFiles}
      (hp : s.submit = .ensure n r side (.reserve .done)) (hr : s.runners.get? r = some x)
      (hf : s.files.get? x.file = some f) :
      Move s (.submit .tick) { s with submit := afterEnsure n r side x }
  | ensureFailed {n r : ℕ} {side : Side} {e : Error} {x : CopyRunner} {f : JobFiles}
      (hp : s.submit = .ensure n r side (.failed e)) (hr : s.runners.get? r = some x)
      (hf : s.files.get? x.file = some f) :
      Move s (.submit .tick) { s with
        totalBytesFailed := s.totalBytesFailed + x.size
        submit := afterEnsureFailed n r x e }
  | spin {n r a b : ℕ} {x : CopyRunner} {f : JobFiles} (hp : s.submit = .batch n r)
      (hr : s.runners.get? r = some x) (hf : s.files.get? x.file = some f)
      (hlt : cfg.ringSize < s.sq.length +
        (x.requests cfg.modes a b f.sourceFd.getFd f.destFd.getFd r).length) :
      Move s (.submit (.rand a b)) { s with submit := .spinning }
  | batch {n r a b : ℕ} {x : CopyRunner} {f : JobFiles} {sqes : List Sqe}
      (hp : s.submit = .batch n r) (hr : s.runners.get? r = some x)
      (hf : s.files.get? x.file = some f) (hj : x.jobsRunning = 0)
      (he : sqes = x.requests cfg.modes a b f.sourceFd.getFd f.destFd.getFd r)
      (hle : s.sq.length + sqes.length ≤ cfg.ringSize) :
      Move s (.submit (.rand a b)) { s with
        sq := s.sq ++ sqes
        submissionsRunning := s.submissionsRunning + sqes.length
        runners := s.runners.modify r fun x => x.submitted cfg.modes a sqes.length
        submit := .adding (n + 1) }
  | submitSkip (hp : s.submit = .submitting 0) :
      Move s (.submit .tick) { s with submit := .completing }
  | submitAgain {n : ℕ} {ret : ℤ} (hp : s.submit = .submitting n) (hn : n ≠ 0)
      (hret : ret = -EAGAIN ∨ ret = -EINTR) : Move s (.submit (.submitted ret)) s
  | submit {n k : ℕ} (hp : s.submit = .submitting n) (hn : n ≠ 0) (hk : 0 < k)
      (hle : k ≤ s.sq.length) :
      Move s (.submit (.submitted k)) { s with
        sq := s.sq.drop k
        chains := s.chains ++ (splitChains (s.sq.take k)).map fun reqs => { reqs }
        submitCalls := s.submitCalls ++ [s.sq.take k]
        submit := .completing }
  -- closing, errors and destruction
  | closeEnter {caller : CloseCaller} {r : ℕ} {result : Option Error} {x : CopyRunner}
      {f : JobFiles} (hp : s.submit = .closing caller r .enter result)
      (hr : s.runners.get? r = some x) (hf : s.files.get? x.file = some f)
      (h1 : f.chunksRemaining = 1) :
      Move s (.submit .tick) { s with submit := .closing caller r (.close .source) result }
  | closeNone {caller : CloseCaller} {r : ℕ} {result : Option Error} {x : CopyRunner}
      {f : JobFiles} (hp : s.submit = .closing caller r .enter result)
      (hr : s.runners.get? r = some x) (hf : s.files.get? x.file = some f)
      (h1 : f.chunksRemaining ≠ 1) :
      Move s (.submit .tick) { s with submit := afterClose caller r result }
  | close {caller : CloseCaller} {r : ℕ} {side : Side} {result : Option Error} {x : CopyRunner}
      {f : JobFiles} {answer : Except Errno Unit}
      (hp : s.submit = .closing caller r (.close side) result)
      (hr : s.runners.get? r = some x) (hf : s.files.get? x.file = some f)
      (ho : (f.fd side).isOpen = true) :
      Move s (.submit (.closed answer)) { s with
        files := s.files.modify x.file fun y => y.modifyFd (·.closedByKernel) side
        failed := s.failed || (myClose cfg.strerror answer).isSome
        submit := .closing caller r (.notify side) (result <|> myClose cfg.strerror answer) }
  | closeNotOpen {caller : CloseCaller} {r : ℕ} {side : Side} {result : Option Error}
      {x : CopyRunner} {f : JobFiles} {answer : Except Errno Unit}
      (hp : s.submit = .closing caller r (.close side) result)
      (hr : s.runners.get? r = some x) (hf : s.files.get? x.file = some f)
      (ho : (f.fd side).isOpen = false) :
      Move s (.submit (.closed answer))
        { s with submit := .closing caller r (.next side) result }
  | notify {caller : CloseCaller} {r : ℕ} {side : Side} {result : Option Error} {x : CopyRunner}
      {f : JobFiles} (hp : s.submit = .closing caller r (.notify side) result)
      (hr : s.runners.get? r = some x) (hf : s.files.get? x.file = some f) :
      Move s (.submit .tick) { s with
        files := s.files.modify x.file fun y => y.modifyFd (·.notifyClosed) side
        fileDescriptorsUsed := s.fileDescriptorsUsed - 1
        submit := .closing caller r (.next side) result }
  | closeNext {caller : CloseCaller} {r : ℕ} {side : Side} {result : Option Error}
      (hp : s.submit = .closing caller r (.next side) result) :
      Move s (.submit .tick) { s with submit := closeNext caller r side result }
  | record {e : Error} {caller : ErrorCaller} (hp : s.submit = .recording e caller) :
      Move s (.submit .tick) { recordError e s with submit := afterError caller }
  | finish {r : ℕ} {x : CopyRunner} {f : JobFiles} (hp : s.submit = .finishing r)
      (hr : s.runners.get? r = some x) (hf : s.files.get? x.file = some f) :
      Move s (.submit .tick) { s with
        bigCopiesRemaining := if BIG_FILE_SIZE < x.size then decU64 s.bigCopiesRemaining
          else s.bigCopiesRemaining
        smallCopiesRemaining := if BIG_FILE_SIZE < x.size then s.smallCopiesRemaining
          else decU64 s.smallCopiesRemaining
        submit := .deleting r .completion }
  | deleteShared {r : ℕ} {caller : DeleteCaller} {x : CopyRunner} {f : JobFiles}
      (hp : s.submit = .deleting r caller) (hr : s.runners.get? r = some x)
      (hf : s.files.get? x.file = some f) (hj : x.jobsRunning = 0) (h1 : f.chunksRemaining ≠ 1) :
      Move s (.submit .tick) { s with
        usedList := match x.buffer with
          | some b => cfg.heap.returnBlock s.usedList b
          | none => s.usedList
        keepAliveCount := s.keepAliveCount - 1
        runners := s.runners.erase r
        destroyed := s.destroyed ++ [x]
        files := s.files.modify x.file fun y =>
          { y with chunksRemaining := y.chunksRemaining - 1 }
        submit := afterDelete caller }
  | deleteLast {r : ℕ} {caller : DeleteCaller} {x : CopyRunner} {f : JobFiles}
      (hp : s.submit = .deleting r caller) (hr : s.runners.get? r = some x)
      (hf : s.files.get? x.file = some f) (hj : x.jobsRunning = 0) (h1 : f.chunksRemaining = 1) :
      Move s (.submit .tick) { s with
        usedList := match x.buffer with
          | some b => cfg.heap.returnBlock s.usedList b
          | none => s.usedList
        keepAliveCount := s.keepAliveCount - 1
        runners := s.runners.erase r
        destroyed := s.destroyed ++ [x]
        files := s.files.erase x.file
        failed := s.failed || f.sourceFd.openFailed || f.destFd.openFailed
        debugFailures := s.debugFailures ++ destroyedFailures f
        submit := afterDelete caller }
  -- the COMPLETE phase
  | noMore {a : Answer} (hp : s.submit = .completing) :
      Move s (.submit a) { s with submit := .checkDone }
  | completion {i : ℕ} {c : Cqe} {x y : CopyRunner} {f : JobFiles} (hp : s.submit = .completing)
      (hc : s.cq[i]? = some c) (hr : s.runners.get? c.runner = some x)
      (hf : s.files.get? x.file = some f)
      (hy : y = x.onCompletionEvent cfg.strerror cfg.modes f.sourceFd.path f.destFd.path
        c.event c.res) :
      Move s (.submit (.peeked (some i))) { s with
        cq := s.cq.eraseIdx i
        runners := s.runners.modify c.runner fun x => x.onCompletionEvent cfg.strerror cfg.modes
          f.sourceFd.path f.destFd.path c.event c.res
        totalBytesCopied := s.totalBytesCopied + (y.writeOffset - x.writeOffset)
        failed := s.failed || Cqe.isFailure c
        submit := if savesError x y then .closing .saveError c.runner .enter none
          else .event c.runner }
  | event {r : ℕ} {x : CopyRunner} {f : JobFiles} (hp : s.submit = .event r)
      (hr : s.runners.get? r = some x) (hf : s.files.get? x.file = some f) :
      Move s (.submit .tick) { s with
        copiesPendingContinue := if x.runnerResult = .reschedule then
          s.copiesPendingContinue ++ [r] else s.copiesPendingContinue
        submit := afterEvent r x.runnerResult }
  | seen (hp : s.submit = .seen) :
      Move s (.submit .tick)
        { s with submissionsRunning := s.submissionsRunning - 1, submit := .completing }
  | submitExit (hp : s.submit = .checkDone) (hd : isDone s = true) :
      Move s (.submit .tick) { s with halted := some (.exit s.errored) }
  | submitReturn (hp : s.submit = .checkDone) (hd : isDone s = true) :
      Move s (.submit .tick) { s with
        usedList := match s.nextBuffer with
          | some b => cfg.heap.returnBlock s.usedList b
          | none => s.usedList
        nextBuffer := none
        submit := .returned }
  | loopAgain (hp : s.submit = .checkDone) (hd : isDone s = false) :
      Move s (.submit .tick) { s with submit := .top }
  -- the progress thread, the kernel and other processes
  | progressEnd (hp : s.progress = .looping) (hd : isDone s = true ∨ s.progressEnd = true) :
      Move s .progress { s with progress := .ended }
  | progressExit (hp : s.progress = .ended) :
      Move s .progress { s with halted := some (.exit s.errored) }
  | progressReturn (hp : s.progress = .ended) : Move s .progress { s with progress := .returned }
  | kernel {i : ℕ} {res : ℤ} {chain chain' : Chain} {storage : Storage} {cqe : Cqe}
      (hi : s.chains[i]? = some chain)
      (hc : chain.complete s.storage res = some (chain', storage, cqe)) :
      Move s (.kernel i res)
        { s with chains := s.chains.set i chain', storage, cq := s.cq ++ [cqe] }
  | otherProcess {ino : Ino} {content : List UInt8} :
      Move s (.otherProcess ino content) { s with
        storage := { s.storage with disk := Function.update s.storage.disk ino content } }

variable {cfg} {s s' : State} {l : Label}

/-- An access to a runner either finds it and the objects it shares, or aborts. -/
theorem withRunner_cases (s : State) (r : ℕ) (k : CopyRunner → JobFiles → State) :
    (Dangling s r ∧ withRunner s r k = abort .useAfterFree s) ∨
    ∃ x f, s.runners.get? r = some x ∧ s.files.get? x.file = some f ∧ withRunner s r k = k x f := by
  unfold withRunner
  cases hr : s.runners.get? r with
  | none => exact .inl ⟨.inl hr, rfl⟩
  | some x =>
    cases hf : s.files.get? x.file with
    | none => exact .inl ⟨.inr ⟨x, hr, hf⟩, by simp [hf]⟩
    | some f => exact .inr ⟨x, f, rfl, hf, by simp [hf]⟩

/-- A step that works on the runner at hand: it is a `Move` if every continuation is. -/
theorem move_withRunner {r : ℕ} {k : CopyRunner → JobFiles → State}
    (hp : s.submit.hand = some r)
    (h : ∀ x f, s.runners.get? r = some x → s.files.get? x.file = some f → Move cfg s l (k x f)) :
    Move cfg s l (withRunner s r k) := by
  rcases withRunner_cases s r k with ⟨hd, he⟩ | ⟨x, f, hr, hf, he⟩
  · rw [he]; exact .abort (.dangling hp hd)
  · rw [he]; exact h x f hr hf

theorem ctorStep_move {f : ℕ} {job : Job} {side : Side} {stage : ReserveStage} {a : Answer}
    (hm : s.main = .ctor f job side stage) (h : ctorStep cfg f job side stage a s = some s') :
    Move cfg s (.main a) s' := by
  unfold ctorStep at h
  split at h
  · cases h; exact .ctorLoad hm
  · rename_i e
    split at h
    · cases h; exact .ctorSkip hm
    · rename_i hc
      push Not at hc
      cases h; exact .ctorReserve hm hc.1 hc.2
  · rename_i answers
    cases hf : s.files.get? f with
    | none => rw [hf] at h; cases h; exact .abort (.danglingFile hm hf)
    | some x =>
      rw [hf] at h
      unfold doOpen at h
      dsimp only at h
      split at h
      · rename_i ino ho
        cases h; exact .ctorOpened hm hf ho
      · rename_i e ho
        cases h; exact .ctorFailed hm hf ho
  · split at h
    · cases h; exact .ctorNext hm
    · unfold beginParts at h
      split at h
      · rename_i hz
        cases h; exact .abort (.chunkSizeZero hm hz)
      · rename_i hz
        split at h
        · rename_i hn
          cases h
          exact .beginParts hm (by omega) hn
        · cases h
  · cases h

theorem mainStep_move {a : Answer} (h : mainStep cfg a s = some s') : Move cfg s (.main a) s' := by
  unfold mainStep at h
  split at h
  · rename_i hm; exact ctorStep_move hm h
  · rename_i f job p stage hm
    cases h
    cases stage with
    | total => exact .partTotal hm
    | eta => exact .partEta hm
    | push => exact .partPush hm
  · rename_i hm
    cases h; exact .joinAction hm
  · rename_i hm
    split at h
    · rename_i hp
      split at h
      · rename_i hsp
        cases h; exact .joinUnlock hm hp hsp
      · rename_i hsp
        cases h; exact .joinFinish (.inl hm) fun _ => ⟨hp, by simpa using hsp⟩
    · cases h
  · rename_i hm
    split at h
    · rename_i hp
      cases h
      exact .joinFinish (.inr ⟨hm, hp⟩) fun h' => by rw [hm] at h'; cases h'
    · cases h
  · cases h

theorem takingStep_move {n : ℕ} (hp : s.submit = .taking n) :
    Move cfg s (.submit .tick) (takingStep cfg n s) := by
  unfold takingStep
  split
  · rename_i hs
    exact .abort (.startEmpty hp hs)
  · rename_i r rest hs
    rcases withRunner_cases s r _ with ⟨hd, he⟩ | ⟨x, f, hr, hf, he⟩
    · rw [he]; exact .abort (.danglingStart hp hs hd)
    · rw [he]
      split
      · rename_i hc
        rw [Bool.and_eq_true] at hc
        exact .refuse hp hs hr hf hc.1 hc.2
      · rename_i hc
        have ho : outOfFds cfg s = false ∨ f.needsFileDescriptors = false := by
          rw [Bool.and_eq_true, not_and_or] at hc
          simpa using hc
        split
        · rename_i fault hg
          exact .abort (.giveBuffer hp hs hr hg)
        · rename_i hg
          cases hx : x.needsBuffer with
          | false => simpa [hx] using Move.take hp hs hr hf ho hx
          | true =>
            unfold giveBufferFault at hg
            rw [if_pos hx] at hg
            split at hg
            · cases hg
            · rename_i b hb
              split at hg
              · cases hg
              · split at hg
                · cases hg
                · rename_i hroom
                  simpa [hx, hb] using Move.takeGive hp hs hr hf ho hx hb (by omega)

theorem ensureStep_move {n r : ℕ} {side : Side} {stage : EnsureStage} {a : Answer}
    (hp : s.submit = .ensure n r side stage) (h : ensureStep cfg n r side stage a s = some s') :
    Move cfg s (.submit a) s' := by
  have hh : s.submit.hand = some r := by rw [hp]; rfl
  unfold ensureStep at h
  split at h
  · cases h
    refine move_withRunner hh fun x f hr hf => ?_
    cases hd : (f.fd side).fd with
    | neverOpened => exact .checkNever hp hr hf hd
    | opened ino => exact .checkOpened hp hr hf hd
    | closed => exact .checkClosed hp hr hf hd
  · cases h; exact .load hp
  · split at h
    · rename_i he
      cases h; exact .retry hp he
    · rename_i he
      push Not at he
      cases h; exact .reserve hp he.1 he.2
  · cases h
    refine move_withRunner hh fun x f hr hf => ?_
    unfold doOpen
    split
    · rename_i hd
      split at hd
      · rename_i ino ho
        cases hd; exact .opened hp hr hf ho
      · cases hd
    · rename_i hd
      split at hd
      · cases hd
      · rename_i e ho
        cases hd; exact .openFailed hp hr hf ho
  · cases h
    exact move_withRunner hh fun x f hr hf => .ensured hp hr hf
  · cases h
    exact move_withRunner hh fun x f hr hf => .ensureFailed hp hr hf
  · cases h

theorem batchStep_move {n r a b : ℕ} (hp : s.submit = .batch n r) :
    Move cfg s (.submit (.rand a b)) (batchStep cfg n r a b s) := by
  refine move_withRunner (by rw [hp]; rfl) fun x f hr hf => ?_
  dsimp only
  split
  · rename_i hj
    exact .abort (.submitJobs hp hr hj)
  · rename_i hj
    split
    · rename_i hlt
      exact .spin hp hr hf hlt
    · rename_i hlt
      exact .batch hp hr hf (by omega) rfl (by omega)

theorem closingStep_move {caller : CloseCaller} {r : ℕ} {stage : CloseStage}
    {result : Option Error} {a : Answer} (hp : s.submit = .closing caller r stage result)
    (h : closingStep cfg caller r stage result a s = some s') : Move cfg s (.submit a) s' := by
  have hh : s.submit.hand = some r := by rw [hp]; rfl
  unfold closingStep at h
  split at h
  · cases h
    refine move_withRunner hh fun x f hr hf => ?_
    by_cases h1 : f.chunksRemaining = 1
    · simpa [h1] using Move.closeEnter hp hr hf h1
    · simpa [h1] using Move.closeNone hp hr hf h1
  · cases h
    refine move_withRunner hh fun x f hr hf => ?_
    split
    · rename_i ho
      exact .close hp hr hf ho
    · rename_i ho
      exact .closeNotOpen hp hr hf (by simpa using ho)
  · cases h
    exact move_withRunner hh fun x f hr hf => .notify hp hr hf
  · cases h; exact .closeNext hp
  · cases h

theorem deletingStep_move {r : ℕ} {caller : DeleteCaller} (hp : s.submit = .deleting r caller) :
    Move cfg s (.submit .tick) (deletingStep cfg r caller s) := by
  refine move_withRunner (by rw [hp]; rfl) fun x f hr hf => ?_
  split
  · rename_i hj
    exact .abort (.dtor hp hr hj)
  · rename_i hj
    unfold releaseFiles
    split
    · rename_i h1
      exact .deleteLast hp hr hf (by omega) h1
    · rename_i h1
      exact .deleteShared hp hr hf (by omega) h1

theorem submittingStep_move {n : ℕ} {a : Answer} (hp : s.submit = .submitting n)
    (h : submittingStep n a s = some s') : Move cfg s (.submit a) s' := by
  unfold submittingStep at h
  split at h
  · split at h
    · rename_i hn
      subst hn
      cases h; exact .submitSkip hp
    · cases h
  · rename_i ret
    split at h
    · cases h
    · rename_i hn
      split at h
      · rename_i hret
        cases h; exact .submitAgain hp hn hret
      · split at h
        · rename_i hpos
          split at h
          · rename_i hle
            cases h
            obtain ⟨k, rfl⟩ := Int.eq_ofNat_of_zero_le hpos.le
            simp only [Int.toNat_natCast]
            exact .submit hp hn (by omega) (by omega)
          · cases h
        · cases h; exact .abort (.submitFailed hp)
  · cases h

theorem completingStep_move {a : Answer} (hp : s.submit = .completing)
    (h : completingStep cfg a s = some s') : Move cfg s (.submit a) s' := by
  unfold completingStep at h
  split at h
  · split at h
    · cases h; exact .noMore hp
    · cases h
  · split at h
    · cases h
    · cases h; exact .noMore hp
  · rename_i i
    split at h
    · cases h
    · split at h
      · cases h
      · rename_i c hc
        cases h
        rcases withRunner_cases s c.runner _ with ⟨hd, he⟩ | ⟨x, f, hr, hf, he⟩
        · rw [completionStep, he]
          exact .abort (.danglingCqe hp (List.mem_of_getElem? hc) hd)
        · rw [completionStep, he]
          exact .completion hp hc hr hf rfl
  · cases h

theorem submitStep_move {a : Answer} (h : submitStep cfg a s = some s') :
    Move cfg s (.submit a) s' := by
  unfold submitStep at h
  split at h
  · rename_i hp
    cases h; exact .top hp
  · rename_i n hp
    cases h
    unfold addingStep
    split
    · rename_i hw
      exact .wait hp hw
    · rename_i hw
      exact .goOn hp (by simpa using hw)
  · rename_i n hp
    cases h
    unfold fetchingStep
    split
    · rename_i hb
      exact .fetchHave hp hb
    · rename_i hb
      exact .fetch hp (by simpa using hb)
  · rename_i n hp
    cases h
    unfold pickingStep
    split
    · rename_i r rest hc
      exact .pickContinue hp hc
    · rename_i hc
      split
      · rename_i hb
        exact .pickStart hp hc hb.1 hb.2
      · rename_i hb
        refine .pickNone hp hc ?_
        rw [not_and_or] at hb
        simpa using hb
  · rename_i n hp
    cases h; exact takingStep_move hp
  · rename_i n r hp
    cases h
    exact move_withRunner (by rw [hp]; rfl) fun x f hr hf => .starting hp hr hf
  · rename_i hp; exact ensureStep_move hp h
  · rename_i hp
    cases h; exact batchStep_move hp
  · rename_i hp; exact closingStep_move hp h
  · rename_i hp
    cases h; exact .record hp
  · rename_i hp
    cases h
    exact move_withRunner (by rw [hp]; rfl) fun x f hr hf => .finish hp hr hf
  · rename_i hp
    cases h; exact deletingStep_move hp
  · rename_i hp; exact submittingStep_move hp h
  · rename_i hp; exact completingStep_move hp h
  · rename_i hp
    cases h
    exact move_withRunner (by rw [hp]; rfl) fun x f hr hf => .event hp hr hf
  · rename_i hp
    cases h; exact .seen hp
  · rename_i hp
    cases h
    unfold checkDoneStep
    split
    · rename_i hd
      split
      · exact .submitExit hp hd
      · exact .submitReturn hp hd
    · rename_i hd
      exact .loopAgain hp (by simpa using hd)
  · cases h

/-- Every step of the queue is a `Move`, and only a process that has not ended takes one. -/
theorem step_move (h : step cfg s l = some s') : s.halted = none ∧ Move cfg s l s' := by
  unfold step at h
  split at h
  · cases h
  · rename_i hh
    refine ⟨by simpa using hh, ?_⟩
    split at h
    · split at h
      · rename_i hm
        cases h
        unfold start
        split
        · rename_i hs
          exact .start hm hs
        · rename_i hs
          exact .abort (.startNotIdle hm hs)
      · cases h
    · split at h
      · rename_i hm
        cases h; exact .addCopyJob hm.1 hm.2
      · cases h
    · split at h
      · rename_i hm
        cases h; exact .walkError hm
      · cases h
    · split at h
      · rename_i hm
        cases h; exact .join hm.1 hm.2
      · cases h
    · exact mainStep_move h
    · exact submitStep_move h
    · unfold progressStep at h
      split at h
      · rename_i hp
        split at h
        · rename_i hd
          cases h; exact .progressEnd hp (by simpa using hd)
        · cases h
      · rename_i hp
        split at h
        · cases h; exact .progressExit hp
        · cases h; exact .progressReturn hp
      · cases h
    · rename_i i res
      unfold kernelStep at h
      split at h
      · cases h
      · rename_i chain hi
        split at h
        · cases h
        · rename_i hc
          cases h; exact .kernel hi hc
    · cases h; exact .otherProcess

end CopyQueue

end Wcp
