import WcpVerified.CopyRunner

/-!
# `QueueFileDescriptor`: a file that is opened when it is needed

A descriptor is opened eagerly by its constructor when the queue has descriptors to spare
(`OpenPriority::Low`), otherwise by `ensureOpened` on the submit thread (`OpenPriority::High`).
`reserveFileDescriptor` is a load and a compare-exchange of a counter that two threads share; these
are separate steps of the queue (`WcpVerified.CopyQueue`). Here are the values they act on.
-/

namespace Wcp

/-- The value of `QueueFileDescriptor::fd`: `NEVER_OPENED_VAL`, `CLOSED_VAL`, or an open file. -/
inductive FdState where
  | neverOpened
  | opened (ino : Ino)
  | closed
deriving DecidableEq

/-- `QueueFileDescriptor`. The last four fields are history: the code has no such counters. -/
structure QueueFileDescriptor where
  path : Path
  oflag : OpenFlags
  mode : ℕ := 0
  fd : FdState := .neverOpened
  /-- How often the descriptor was opened successfully. -/
  opens : ℕ := 0
  /-- How often `close` was called on it. -/
  closes : ℕ := 0
  /-- Whether the reservation of the descriptor was a `Low` one. -/
  low : Bool := false
  /-- Whether the last attempt to open the file failed. -/
  openFailed : Bool := false
deriving DecidableEq

namespace QueueFileDescriptor

/-- `isOpen`. -/
def isOpen (d : QueueFileDescriptor) : Bool :=
  match d.fd with
  | .opened _ => true
  | _ => false

/-- `getFd`, as the kernel sees it: the open file, if the descriptor is open. -/
def getFd (d : QueueFileDescriptor) : Option Ino :=
  match d.fd with
  | .opened ino => some ino
  | _ => none

/-- The descriptor after `doOpen` succeeded. -/
def openedAs (d : QueueFileDescriptor) (low : Bool) (ino : Ino) : QueueFileDescriptor :=
  { d with fd := .opened ino, opens := d.opens + 1, low, openFailed := false }

/-- The descriptor after `doOpen` failed. -/
def failedOpen (d : QueueFileDescriptor) : QueueFileDescriptor := { d with openFailed := true }

/-- The descriptor after `close` was called on it, `notifyClosed` not yet. -/
def closedByKernel (d : QueueFileDescriptor) : QueueFileDescriptor :=
  { d with closes := d.closes + 1 }

/-- The descriptor after `notifyClosed`. -/
def notifyClosed (d : QueueFileDescriptor) : QueueFileDescriptor := { d with fd := .closed }

end QueueFileDescriptor

/-- The two descriptors of a copy job. -/
inductive Side where
  | source
  | dest
deriving DecidableEq

/-- The flags `addCopyJob` opens the source with. -/
def sourceFlags : OpenFlags := { direct := true }

/-- The flags `addCopyJob` opens the destination with. -/
def destFlags : OpenFlags := { wronly := true, creat := true, trunc := true }

/-- What `addCopyJob` is called with: the paths, and the fields of `statx` it reads. -/
structure Job where
  src : Path
  dest : Path
  stxSize : ℕ
  stxBlksize : ℕ
  stxMode : ℕ := 0
deriving DecidableEq

/-- The objects the runners of a job share: its descriptors and the counter `*chunksRemaining`. They
are destroyed together, by the job's last runner. -/
structure JobFiles where
  job : Job
  sourceFd : QueueFileDescriptor
  destFd : QueueFileDescriptor
  chunksRemaining : ℕ := 0
deriving DecidableEq

namespace JobFiles

/-- The objects of a job whose descriptors have not tried to open their files. -/
def create (job : Job) : JobFiles where
  job := job
  sourceFd := { path := job.src, oflag := sourceFlags }
  destFd := { path := job.dest, oflag := destFlags, mode := job.stxMode }

/-- The descriptor of one side. -/
def fd (f : JobFiles) : Side → QueueFileDescriptor
  | .source => f.sourceFd
  | .dest => f.destFd

/-- Change the descriptor of one side. -/
def modifyFd (f : JobFiles) (g : QueueFileDescriptor → QueueFileDescriptor) : Side → JobFiles
  | .source => { f with sourceFd := g f.sourceFd }
  | .dest => { f with destFd := g f.destFd }

/-- `needsFileDescriptors` of a runner of the job. -/
def needsFileDescriptors (f : JobFiles) : Bool := !f.sourceFd.isOpen || !f.destFd.isOpen

/-- The number of open descriptors among the two. -/
def openCount (f : JobFiles) : ℕ := f.sourceFd.isOpen.toNat + f.destFd.isOpen.toNat

end JobFiles

end Wcp
