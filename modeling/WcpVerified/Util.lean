import WcpVerified.Library.MachineWord

/-!
# `Util`: errors and system calls

Strings are lists of characters. What the kernel answers to a system call is an argument of the
function that makes it; where a call is tried again, the answers are numbered.
-/

namespace Wcp

/-- A path, or any other `std::string` of the program. -/
abbrev Path := List Char

/-- The identity of a file on disk, whatever paths lead to it. -/
abbrev Ino := ℕ

/-- A value of `errno`. -/
abbrev Errno := ℕ

def EINTR : Errno := 4
def EAGAIN : Errno := 11
def EEXIST : Errno := 17
def ENOENT : Errno := 2
def EINVAL : Errno := 22
def ECANCELED : Errno := 125

/-- `Error`: a message for the user. -/
structure Error where
  humanFriendlyErrorMessage : List Char
deriving DecidableEq

/-- The flags of `open` that the program uses (`O_CLOEXEC` is set on every descriptor). -/
structure OpenFlags where
  /-- `O_WRONLY` (otherwise `O_RDONLY`). -/
  wronly : Bool := false
  /-- `O_CREAT`. -/
  creat : Bool := false
  /-- `O_TRUNC`. -/
  trunc : Bool := false
  /-- `O_DIRECT`. -/
  direct : Bool := false
  /-- `O_DIRECTORY`. -/
  directory : Bool := false
deriving DecidableEq

/-- The attempts of `myOpen`: `answers i` is the kernel's answer to attempt `i`. An `O_DIRECT` open
that the file system refuses with `EINVAL` is tried again without the flag, an interrupted one as it
is, and after five attempts the last failure stands. -/
def openAttempts (answers : ℕ → Except Errno Ino) : (left tries : ℕ) → (direct : Bool) →
    (last : Errno) → Except Errno Ino
  | 0, _, _, last => .error last
  | left + 1, tries, direct, _ =>
    match answers tries with
    | .ok fd => .ok fd
    | .error errno =>
      if direct && errno == EINVAL then openAttempts answers left (tries + 1) false errno
      else if errno == EINTR || errno == EAGAIN then
        openAttempts answers left (tries + 1) direct errno
      else .error errno

/-- `myOpen`. -/
def myOpen (strerror : Errno → List Char) (path : Path) (oflag : OpenFlags)
    (answers : ℕ → Except Errno Ino) : Except Error Ino :=
  match openAttempts answers 5 0 oflag.direct 0 with
  | .ok fd => .ok fd
  | .error errno => .error
      ⟨"Couldn't open \"".toList ++ path ++ "\": \"".toList ++ strerror errno ++ "\"".toList⟩

/-- `myClose`: the kernel's answer turned into a `Result` (`none` is `Success()`). -/
def myClose (strerror : Errno → List Char) : (answer : Except Errno Unit) → Option Error
  | .ok () => none
  | .error errno => some ⟨"Failure on closing file: \"".toList ++ strerror errno ++ "\"".toList⟩

/-! ## System calls that are tried again -/

/-- The attempts of `retrySyscall`. `errno` is what the last failure has left there: an attempt that
succeeds does not change it. -/
def retryAttempts {α : Type} (func : ℕ → Except Errno α) : (left tries : ℕ) → (errno : Errno) →
    Except Errno α
  | 0, _, errno => .error errno
  | left + 1, tries, errno =>
    match func tries with
    | .ok a =>
      if errno == EINTR || errno == EAGAIN then retryAttempts func left (tries + 1) errno
      else if errno = 0 then .ok a
      else .error errno
    | .error e =>
      if e == EINTR || e == EAGAIN then retryAttempts func left (tries + 1) e else .error e

/-- `retrySyscall`: `errno` at the end, or what the call returned when it is 0. -/
def retrySyscall {α : Type} (func : ℕ → Except Errno α) : Except Errno α := retryAttempts func 5 0 0

/-- `errno` after an attempt. -/
def errnoAfter {α : Type} (attempt : Except Errno α) (errno : Errno) : Errno :=
  match attempt with
  | .ok _ => errno
  | .error e => e

/-- The loop of `retrySyscall` by itself: how many attempts have been made when it is left, and what
is in `errno` then. -/
def retryLoop {α : Type} (func : ℕ → Except Errno α) : (left tries : ℕ) → (errno : Errno) → ℕ × Errno
  | 0, tries, errno => (tries, errno)
  | left + 1, tries, errno =>
    let errno := errnoAfter (func tries) errno
    if errno == EINTR || errno == EAGAIN then retryLoop func left (tries + 1) errno
    else (tries + 1, errno)

/-- What a mode says a file is (`S_IFMT`). -/
inductive FileKind where
  | fifo
  | chr
  | dir
  | blk
  | reg
  | lnk
  | sock
deriving DecidableEq

/-- The fields of `struct statx` that the program reads; `kind` is part of `stx_mode`. -/
structure Statx where
  kind : FileKind
  stxSize : ℕ := 0
  stxBlksize : ℕ := 0
  stxMode : ℕ := 0
deriving DecidableEq

/-- `myStatx`. -/
def myStatx (strerror : Errno → List Char) (path : Path) (answers : ℕ → Except Errno Statx) :
    Except Error Statx :=
  match retrySyscall answers with
  | .ok sb => .ok sb
  | .error err => .error
      ⟨"Failed to stat \"".toList ++ path ++ "\": \"".toList ++ strerror err ++ "\"".toList⟩

/-- `d_type` of a directory entry. -/
inductive DType where
  | unknown
  | fifo
  | chr
  | dir
  | blk
  | reg
  | lnk
  | sock
  | wht
deriving DecidableEq

/-- `int(type)`. -/
def DType.toNat : DType → ℕ
  | .unknown => 0
  | .fifo => 1
  | .chr => 2
  | .dir => 4
  | .blk => 6
  | .reg => 8
  | .lnk => 10
  | .sock => 12
  | .wht => 14

/-- `linux_dirent64`, as far as it is read. -/
structure Dirent where
  dType : DType
  dName : List Char
deriving DecidableEq

/-- `myGetDents`. -/
def myGetDents (strerror : Errno → List Char) (path : Path)
    (answers : ℕ → Except Errno (List Dirent)) : Except Error (List Dirent) :=
  match retrySyscall answers with
  | .ok entries => .ok entries
  | .error err => .error
      ⟨"Couldn't open directory \"".toList ++ path ++ "\": \"".toList ++ strerror err ++ "\"".toList⟩

/-- `readlinkat`: the target of a link, cut to the size of the buffer. -/
def readlinkat (target : Path) (bufsiz : ℕ) : Path := target.take bufsiz

/-- The loop of `myReadlink`, for a link to `target`: the buffer grows until the target leaves room
in it. `fuel` bounds the rounds. -/
def readlinkLoop (target : Path) : (fuel size : ℕ) → Option Path
  | 0, _ => none
  | fuel + 1, size =>
    if (readlinkat target size).length < size then some (readlinkat target size)
    else readlinkLoop target fuel (size + 1024)

/-- `myReadlink`. A round of the loop for each character of the target, and one more, is enough. -/
def myReadlink (strerror : Errno → List Char) (linkPath : Path) (answers : ℕ → Except Errno Path) :
    Except Error Path :=
  match retrySyscall answers with
  | .ok target => .ok ((readlinkLoop target (target.length + 1) 1024).getD [])
  | .error err => .error
      ⟨"Couldn't read link: \"".toList ++ linkPath ++ "\": \"".toList ++ strerror err
        ++ "\"".toList⟩

/-! ## Directories -/

/-- `mkdirOne`: whether its assertions hold, `mkdir` and `stat64` being answered so. -/
def mkdirOne (mkdir : Except Errno Unit) (stat64 : Except Errno FileKind) : Bool :=
  match mkdir with
  | .ok () => true
  | .error errno => errno == EEXIST && match stat64 with
    | .ok kind => kind == .dir
    | .error _ => false

/-- The paths for which `recursiveMkdir` calls `mkdirOne`, in order: what comes before each slash but
a leading one, and the path itself. -/
def mkdirPaths (path : Path) : List Path :=
  ((List.range' 1 (path.length - 1)).filter fun i => path[i]? == some '/').map (path.take ·) ++ [path]

/-- `recursiveMkdir`: whether all its assertions hold. -/
def recursiveMkdir (mkdir : Path → Except Errno Unit) (stat64 : Path → Except Errno FileKind)
    (path : Path) : Bool :=
  (mkdirPaths path).all fun p => mkdirOne (mkdir p) (stat64 p)

end Wcp
