import WcpVerified.Library.ByteImage
import WcpVerified.Walk

/-!
# `dirBuffer`: the entries of a directory as bytes

`getdents64` writes records of different lengths one after the other into a buffer, and says how many
bytes they take. A record is its fixed fields, the name with a zero byte behind it, and bytes up to the
next multiple of eight that are left as they were. The walk goes from record to record by their
`d_reclen`. The buffer is the same for every directory, so that behind the last record, and between the
records, there is what was written before.
-/

namespace Wcp

open ByteImage

/-- `dirBuffer.size()`. -/
def DIR_BUFFER_SIZE : ℕ := 1024 * 1024 * 32

/-- `offsetof(linux_dirent64, d_name)`. -/
def D_NAME_OFFSET : ℕ := 19

/-- What the kernel has to report of an entry: a name is at most `NAME_MAX` bytes long, without a zero
byte. -/
structure KernelDirent where
  /-- `d_ino` and `d_off`, which the walk does not read. -/
  inoAndOff : List UInt8
  dType : DType
  name : List UInt8
  inoAndOff_length : inoAndOff.length = 16
  name_nul : 0 ∉ name
  name_le : name.length ≤ 255

/-- A byte of a name as a character of a path. -/
def byteChar (b : UInt8) : Char := Char.ofNat b.toNat

namespace KernelDirent

/-- `d_reclen`. -/
def reclen (d : KernelDirent) : ℕ := (D_NAME_OFFSET + d.name.length + 1 + 7) / 8 * 8

/-- The bytes that the kernel writes for an entry. -/
def bytes (d : KernelDirent) : List UInt8 :=
  d.inoAndOff ++ [UInt8.ofNat d.reclen, UInt8.ofNat (d.reclen / 256), UInt8.ofNat d.dType.toNat] ++
    d.name ++ [0]

/-- The entry as the walk sees it. -/
def toDirent (d : KernelDirent) : Dirent := ⟨d.dType, d.name.map byteChar⟩

/-- The number of bytes that the records of some entries take. -/
def totalBytes (ds : List KernelDirent) : ℕ := (ds.map reclen).sum

/-- The kernel writes records from `ptr` on. -/
def write : (ptr : ℕ) → List KernelDirent → (ℕ → UInt8) → ℕ → UInt8
  | _, [], buffer => buffer
  | ptr, d :: ds, buffer => write (ptr + d.reclen) ds (store buffer ptr d.bytes)

end KernelDirent

/-! ## Reading the buffer -/

namespace DirBuffer

/-- `d_reclen` of the record at `ptr`. -/
def dReclen (buffer : ℕ → UInt8) (ptr : ℕ) : ℕ :=
  (buffer (ptr + 16)).toNat + 256 * (buffer (ptr + 17)).toNat

/-- A constant `DT_*` by its value. -/
def dTypeOf : ℕ → Option DType
  | 0 => some .unknown
  | 1 => some .fifo
  | 2 => some .chr
  | 4 => some .dir
  | 6 => some .blk
  | 8 => some .reg
  | 10 => some .lnk
  | 12 => some .sock
  | 14 => some .wht
  | _ => none

/-- The string at `ptr`, if it ends within `room` bytes. -/
def cString (buffer : ℕ → UInt8) : (room ptr : ℕ) → Option (List UInt8)
  | 0, _ => none
  | room + 1, ptr =>
    if buffer ptr = 0 then some []
    else (cString buffer room (ptr + 1)).map (buffer ptr :: ·)

/-- `*currentEntry`. `none` if the type is not one of the constants, or if the name does not end in the
buffer. -/
def currentEntry (buffer : ℕ → UInt8) (ptr : ℕ) : Option Dirent :=
  match dTypeOf (buffer (ptr + 18)).toNat,
    cString buffer (DIR_BUFFER_SIZE - (ptr + D_NAME_OFFSET)) (ptr + D_NAME_OFFSET) with
  | some dType, some name => some ⟨dType, name.map byteChar⟩
  | _, _ => none

/-- `myGetDents`: the number of bytes written. -/
def myGetDents (strerror : Errno → List Char) (path : Path)
    (answers : ℕ → Except Errno (List KernelDirent)) : Except Error ℕ :=
  match retrySyscall answers with
  | .ok ds => .ok (KernelDirent.totalBytes ds)
  | .error err => .error
      ⟨"Couldn't open directory \"".toList ++ path ++ "\": \"".toList ++ strerror err ++ "\"".toList⟩

/-- The buffer after an attempt. -/
def afterAttempt (attempt : Except Errno (List KernelDirent)) (buffer : ℕ → UInt8) : ℕ → UInt8 :=
  match attempt with
  | .ok ds => KernelDirent.write 0 ds buffer
  | .error _ => buffer

/-- The buffer after all the attempts of a `myGetDents`. -/
def afterGetDents (answers : ℕ → Except Errno (List KernelDirent)) (buffer : ℕ → UInt8) : ℕ → UInt8 :=
  (List.range (retryLoop answers 5 0 0).1).foldl (fun buffer k => afterAttempt (answers k) buffer) buffer

end DirBuffer

/-! ## The walk on its buffer -/

/-- The program points of the walk, with `written` in bytes. -/
inductive BufferPc where
  | next
  | reading (current : Path) (calls written : ℕ)
  /-- The head of the loop over the records. -/
  | entries (current : Path) (calls written nextPtr : ℕ)
  | done
  | aborted

/-- The state of the walk with its buffer. -/
structure BufferWalk where
  ops : List WalkOp
  directoryStack : List Path
  pc : BufferPc
  dirBuffer : ℕ → UInt8

namespace BufferWalk

variable (fs : FileSystem) (answers : Path → ℕ → ℕ → Except Errno (List KernelDirent))
  (strerror : Errno → List Char)

/-- `while (written != 0)`. -/
def afterBatch (current : Path) (calls written : ℕ) : BufferPc :=
  if written ≠ 0 then .reading current calls written else .next

/-- The body of the loop over the records goes on at `pc`, unless an assertion fails in it. -/
def walkEntry (fromDir dest current : Path) (entry : Dirent) (pc : BufferPc) (s : BufferWalk) :
    BufferWalk :=
  let w := Walk.walkEntry fs strerror fromDir dest current entry
    { ops := s.ops, directoryStack := s.directoryStack, pc := .next }
  { s with
    ops := w.ops
    directoryStack := w.directoryStack
    pc := if w.pc = .aborted then .aborted else pc }

/-- A turn of one of the loops. `none` if a record cannot be read. -/
def step (fromDir dest : Path) (s : BufferWalk) : Option BufferWalk :=
  match s.pc with
  | .next =>
    match s.directoryStack with
    | [] => some { s with pc := .done }
    | current :: rest =>
      match myOpen strerror current { directory := true } (fs.openDir current) with
      | .error e => some { s with ops := s.ops ++ [.onError current e], directoryStack := rest }
      | .ok _ => some { s with directoryStack := rest, pc := .reading current 0 0 }
  | .reading current calls written =>
    let dirBuffer := DirBuffer.afterGetDents (answers current calls) s.dirBuffer
    match DirBuffer.myGetDents strerror current (answers current calls) with
    | .error e => some { s with
        ops := s.ops ++ [.onError current e]
        pc := afterBatch current (calls + 1) written
        dirBuffer }
    | .ok written => some { s with pc := .entries current (calls + 1) written 0, dirBuffer }
  | .entries current calls written nextPtr =>
    if nextPtr < written then
      (DirBuffer.currentEntry s.dirBuffer nextPtr).map fun entry =>
        walkEntry fs strerror fromDir dest current entry
          (.entries current calls written (nextPtr + DirBuffer.dReclen s.dirBuffer nextPtr)) s
    else some { s with pc := afterBatch current calls written }
  | .done => some s
  | .aborted => some s

/-- `addRecursiveCopy`, after `n` turns of its loops, with anything in the buffer at first. -/
def addRecursiveCopy (fromDir dest : Path) (dirBuffer : ℕ → UInt8) : ℕ → Option BufferWalk
  | 0 => some {
      ops := [.recursiveMkdir (Walk.withSlash dest)]
      directoryStack := [Walk.withSlash fromDir]
      pc := if recursiveMkdir fs.mkdir fs.stat64 (Walk.withSlash dest) then .next else .aborted
      dirBuffer }
  | n + 1 => (addRecursiveCopy fromDir dest dirBuffer n).bind
      (step fs answers strerror (Walk.withSlash fromDir) (Walk.withSlash dest))

end BufferWalk

end Wcp
