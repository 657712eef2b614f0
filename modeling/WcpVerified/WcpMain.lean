import Mathlib
import WcpVerified.Walk

/-!
# `wcpMain`

The arguments are checked, the destination is worked out, and the copy is started. The functions of
`std::filesystem` are those of the C++17 standard for POSIX paths: there are no root names, and the
root directory is a leading slash.
-/

namespace Wcp

/-- `path::filename`. -/
def filename (path : Path) : Path := path.rtakeWhile (· ≠ '/')

/-- `operator/=`. -/
def appendPath (path p : Path) : Path :=
  if p.head? = some '/' then p
  else if filename path ≠ [] then path ++ '/' :: p
  else path ++ p

/-- `path::parent_path`. -/
def parentPath (path : Path) : Path :=
  -- a path of slashes only has no relative part, and is its own parent
  if path.all (· = '/') then path
  else
    let stem := path.rdropWhile (· ≠ '/')
    -- the slashes are not part of the parent, unless it is the root
    if stem.rdropWhile (· = '/') = [] then stem.take 1 else stem.rdropWhile (· = '/')

/-- `std::filesystem::absolute`. -/
def absolutePath (cwd path : Path) : Path := if path.head? = some '/' then path else appendPath cwd path

/-- The directory that has to exist before anything is copied. -/
def destRealParent (cwd dest : Path) : Path :=
  let path := absolutePath cwd dest
  -- a trailing slash
  let path := if filename path = [] then parentPath path else path
  parentPath path

/-- What `wcpMain` goes on with, once it has looked at its arguments. -/
inductive Plan where
  /-- `return 1`. -/
  | fail (message : List Char)
  | aborted
  | addRecursiveCopy (src dest : Path)
  | addFileCopy (src dest : Path) (sb : Statx)
deriving DecidableEq

variable (fs : FileSystem) (strerror : Errno → List Char) (access : Path → Bool) (cwd : Path)

/-- The branches of `wcpMain` for directories and files, with what they make on the way. -/
def planCopy (src dest : Path) (srcStat : Statx) (destStat : Option Statx) : List WalkOp × Plan :=
  match srcStat.kind with
  | .dir =>
    let dest := appendPath dest (filename src)
    let isDir := destStat.all fun st => st.kind == .dir
    ([.recursiveMkdir dest],
      if recursiveMkdir fs.mkdir fs.stat64 dest && isDir then .addRecursiveCopy src dest else .aborted)
  | .reg =>
    let intoDir := destStat.any fun st => st.kind == .dir
    ([], .addFileCopy src (if intoDir then appendPath dest (filename src) else dest) srcStat)
  | _ => ([], .aborted)

/-- `wcpMain`, up to the copy. -/
def wcpMain (src dest : Path) : List WalkOp × Plan :=
  if src = [] ∨ dest = [] then ([], .aborted) else
  match myStatx strerror src (fs.statx src) with
  | .error e => ([], .fail e.humanFriendlyErrorMessage)
  | .ok srcStat =>
    match retrySyscall (fs.statx dest) with
    | .error errno =>
      if errno ≠ ENOENT then
        ([], .fail ("Failed to stat \"".toList ++ dest ++ "\": \"".toList ++ strerror errno ++ "\"".toList))
      else if access (destRealParent cwd dest) then planCopy fs src dest srcStat none
      else ([], .aborted)
    | .ok destStat =>
      if access (destRealParent cwd dest) then planCopy fs src dest srcStat (some destStat)
      else ([], .aborted)

/-- What has been done after `n` turns of the walk. -/
def Plan.ops (n : ℕ) : Plan → List WalkOp
  | .fail _ => []
  | .aborted => []
  | .addRecursiveCopy src dest => (Walk.addRecursiveCopy fs strerror src dest n).ops
  | .addFileCopy src dest sb => [.addCopyJob (Walk.jobOf src dest sb)]

/-- What a call of the program has done after `n` turns of the walk. -/
def wcpOps (src dest : Path) (n : ℕ) : List WalkOp :=
  (wcpMain fs strerror access cwd src dest).1 ++
    (wcpMain fs strerror access cwd src dest).2.ops fs strerror n

end Wcp
