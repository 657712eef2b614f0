import WcpVerified.QueueFileDescriptor

/-!
# `addRecursiveCopy`: the walk over the source directory

The walk runs on the main thread and touches the queue only through `addCopyJob` and `onError`, so it
is a machine of its own: a step is one turn of one of its three nested loops, and what it asks of the
rest of the program and of the destination is recorded in order. The answers of the kernel are a
parameter; an answer depends on the path, and for `getdents64` on how often the directory was read.
-/

namespace Wcp

/-- The kernel's answers to the calls of the walk. The last number is that of the attempt. There is
none for the `close` of a directory: `~ScopedFileDescriptor` only looks at its result in a debug
assertion. -/
structure FileSystem where
  openDir : Path → ℕ → Except Errno Ino
  /-- The answer to each `getdents64` on a directory. -/
  getdents : Path → ℕ → ℕ → Except Errno (List Dirent)
  /-- `statx` without `AT_SYMLINK_NOFOLLOW`. -/
  statx : Path → ℕ → Except Errno Statx
  /-- The target of a link. -/
  readlink : Path → ℕ → Except Errno Path
  symlink : (target linkPath : Path) → ℕ → Except Errno Unit
  mkdir : Path → Except Errno Unit
  stat64 : Path → Except Errno FileKind

/-- What the walk does. `onError` also says which entry or directory was at hand. -/
inductive WalkOp where
  | recursiveMkdir (path : Path)
  | addCopyJob (job : Job)
  | symlink (target linkPath : Path)
  | onError (path : Path) (e : Error)
deriving DecidableEq

/-- The program points of the walk. `current` is the directory at hand, `calls` counts the calls of
`myGetDents` on it, and `written` is what the last of them returned, counted in entries. -/
inductive WalkPc where
  /-- The head of `while (!directoryStack.empty())`. -/
  | next
  /-- The head of the `do` loop. -/
  | reading (current : Path) (calls written : ℕ)
  /-- The head of the loop over the entries of a buffer. -/
  | entries (current : Path) (calls written : ℕ) (left : List Dirent)
  | done
  /-- An assertion of `recursiveMkdir` has failed. -/
  | aborted
deriving DecidableEq

/-- The state of the walk. The back of `directoryStack` is the head of the list. -/
structure WalkState where
  ops : List WalkOp
  directoryStack : List Path
  pc : WalkPc
deriving DecidableEq

namespace Walk

/-- `if (path.back() != '/') path += '/'`. -/
def withSlash (path : Path) : Path := if path.getLast? = some '/' then path else path ++ ['/']

/-- The type of an entry whose `d_type` is unknown, by its mode. There is no case for block
devices. -/
def typeOfMode : FileKind → DType
  | .fifo => .fifo
  | .chr => .chr
  | .dir => .dir
  | .reg => .reg
  | .lnk => .lnk
  | .sock => .sock
  | .blk => .unknown

/-- The error for an entry that cannot be copied. -/
def unhandledType (fullPath : Path) (type : DType) : Error :=
  ⟨"Unhandled file type: \"".toList ++ fullPath ++ "\": ".toList ++ Nat.toDigits 10 type.toNat⟩

variable (fs : FileSystem) (strerror : Errno → List Char)

/-- `type` and `sb` of an entry; `sb` only if the entry was asked for. -/
def classify (fullPath : Path) (entry : Dirent) : Except Error (DType × Option Statx) :=
  if entry.dType = .unknown then
    match myStatx strerror fullPath (fs.statx fullPath) with
    | .ok sb => .ok (typeOfMode sb.kind, some sb)
    | .error e => .error e
  else .ok (entry.dType, none)

/-- The job `addCopyJob` is called with. -/
def jobOf (fullPath destPath : Path) (sb : Statx) : Job where
  src := fullPath
  dest := destPath
  stxSize := sb.stxSize
  stxBlksize := sb.stxBlksize
  stxMode := sb.stxMode

/-- The walk goes on after it did something. -/
def record (op : WalkOp) (s : WalkState) : WalkState := { s with ops := s.ops ++ [op] }

/-- The copy of a symbolic link. -/
def copyLink (fullPath destPath : Path) (s : WalkState) : WalkState :=
  match myReadlink strerror fullPath (fs.readlink fullPath) with
  | .error e => record (.onError fullPath e) s
  | .ok linkDest =>
    let s := record (.symlink linkDest destPath) s
    match retrySyscall (fs.symlink linkDest destPath) with
    | .ok () => s
    | .error _ => record (.onError fullPath
        ⟨"Error copying symlink: \"".toList ++ fullPath ++ "\"".toList⟩) s

/-- What is done with an entry of a type. -/
def dispatch (fullPath destPath dName : Path) (type : DType) (sb : Option Statx) (s : WalkState) :
    WalkState :=
  match type with
  | .dir =>
    if dName ≠ ['.'] ∧ dName ≠ ['.', '.'] then
      let s := record (.recursiveMkdir destPath) s
      if recursiveMkdir fs.mkdir fs.stat64 destPath then
        { s with directoryStack := (fullPath ++ ['/']) :: s.directoryStack }
      else { s with pc := .aborted }
    else s
  | .reg =>
    let result : Except Error Statx := match sb with
      | some sb => .ok sb
      | none => myStatx strerror fullPath (fs.statx fullPath)
    match result with
    | .error e => record (.onError fullPath e) s
    | .ok sb => record (.addCopyJob (jobOf fullPath destPath sb)) s
  | .lnk => copyLink fs strerror fullPath destPath s
  | _ => record (.onError fullPath (unhandledType fullPath type)) s

/-- `dest + (fullPath.data() + from.length())`. -/
def destPath (fromDir dest fullPath : Path) : Path := dest ++ fullPath.drop fromDir.length

/-- The body of the loop over the entries. -/
def walkEntry (fromDir dest current : Path) (entry : Dirent) (s : WalkState) : WalkState :=
  let fullPath := current ++ entry.dName
  match classify fs strerror fullPath entry with
  | .error e => record (.onError fullPath e) s
  | .ok (type, sb) =>
    dispatch fs strerror fullPath (destPath fromDir dest fullPath) entry.dName type sb s

/-- `while (written != 0)`. -/
def afterBatch (current : Path) (calls written : ℕ) : WalkPc :=
  if written ≠ 0 then .reading current calls written else .next

/-- A turn of one of the loops. -/
def step (fromDir dest : Path) (s : WalkState) : WalkState :=
  match s.pc with
  | .next =>
    match s.directoryStack with
    | [] => { s with pc := .done }
    | current :: rest =>
      match myOpen strerror current { directory := true } (fs.openDir current) with
      | .error e => record (.onError current e) { s with directoryStack := rest }
      | .ok _ => { s with directoryStack := rest, pc := .reading current 0 0 }
  | .reading current calls written =>
    match myGetDents strerror current (fs.getdents current calls) with
    -- `continue` goes to the condition, with what the call before has returned
    | .error e => record (.onError current e) { s with pc := afterBatch current (calls + 1) written }
    | .ok entries => { s with pc := .entries current (calls + 1) entries.length entries }
  | .entries current calls written [] => { s with pc := afterBatch current calls written }
  | .entries current calls written (entry :: left) =>
    walkEntry fs strerror fromDir dest current entry
      { s with pc := .entries current calls written left }
  | .done => s
  | .aborted => s

/-- The walk as `addRecursiveCopy` starts it, with both paths ending in a slash. -/
def start (fromDir dest : Path) : WalkState where
  ops := [.recursiveMkdir dest]
  directoryStack := [fromDir]
  pc := if recursiveMkdir fs.mkdir fs.stat64 dest then .next else .aborted

/-- `addRecursiveCopy`, after `n` turns of its loops. -/
def addRecursiveCopy (fromDir dest : Path) (n : ℕ) : WalkState :=
  (step fs strerror (withSlash fromDir) (withSlash dest))^[n]
    (start fs (withSlash fromDir) (withSlash dest))

end Walk

end Wcp
