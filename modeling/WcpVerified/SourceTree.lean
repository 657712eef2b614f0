import WcpVerified.Walk

/-!
# Source trees

What the walk is for, without the walk: a directory is a list of entries, and for each of them, at
its path relative to the source, one thing is to be done at the same path of the destination. `Holds`
says that the kernel's answers are those of a directory that holds the entries and does not change.
-/

namespace Wcp

open List

/-- The files that the walk does not copy. -/
inductive OtherKind where
  | fifo
  | chr
  | blk
  | sock
deriving DecidableEq

def OtherKind.kind : OtherKind → FileKind
  | .fifo => .fifo
  | .chr => .chr
  | .blk => .blk
  | .sock => .sock

def OtherKind.dType : OtherKind → DType
  | .fifo => .fifo
  | .chr => .chr
  | .blk => .blk
  | .sock => .sock

/-- An entry of a source directory, with everything below it. -/
inductive Entry where
  | reg (name : Path) (sb : Statx)
  | dir (name : Path) (entries : List Entry)
  | link (name : Path) (target : Path)
  | other (name : Path) (kind : OtherKind)

namespace Entry

def name : Entry → Path
  | reg name _ => name
  | dir name _ => name
  | link name _ => name
  | other name _ => name

/-- The true `d_type`. -/
def dType : Entry → DType
  | reg _ _ => .reg
  | dir _ _ => .dir
  | link _ _ => .lnk
  | other _ kind => kind.dType

mutual

/-- The entry and everything below it, with their paths relative to the source; `pre` is the path of
the directory the entry is in. -/
def paths (pre : Path) : Entry → List (Path × Entry)
  | reg name sb => [(pre ++ name, reg name sb)]
  | dir name entries => (pre ++ name, dir name entries) :: pathsAll (pre ++ name ++ ['/']) entries
  | link name target => [(pre ++ name, link name target)]
  | other name kind => [(pre ++ name, other name kind)]

/-- Everything in a directory. -/
def pathsAll (pre : Path) : List Entry → List (Path × Entry)
  | [] => []
  | e :: es => e.paths pre ++ pathsAll pre es

end

theorem pathsAll_eq_flatMap (pre : Path) (es : List Entry) :
    pathsAll pre es = es.flatMap (paths pre) := by
  induction es with
  | nil => simp [pathsAll]
  | cons e es ih => simp [pathsAll, ih]

/-- What the walk is to do for an entry at the path `rel`; `unknown` says which entries are reported
without their type. -/
def op (fromDir dest : Path) (unknown : Path → Bool) : Path × Entry → WalkOp
  | (rel, reg _ sb) => .addCopyJob (Walk.jobOf (fromDir ++ rel) (dest ++ rel) sb)
  | (rel, dir _ _) => .recursiveMkdir (dest ++ rel)
  | (rel, link _ target) => .symlink target (dest ++ rel)
  | (rel, other _ kind) => .onError (fromDir ++ rel) (Walk.unhandledType (fromDir ++ rel)
      (if unknown (fromDir ++ rel) then Walk.typeOfMode kind.kind else kind.dType))

end Entry

/-- The name of a directory entry. -/
structure ValidName (name : Path) : Prop where
  nonempty : name ≠ []
  slash : '/' ∉ name
  dot : name ≠ ['.']
  dotdot : name ≠ ['.', '.']

namespace Walk

/-- The record of an entry at the path `path`. -/
def direntOf (unknown : Path → Bool) (path : Path) (type : DType) (name : Path) : Dirent :=
  ⟨if unknown path then .unknown else type, name⟩

/-- What `getdents64` reports for the directory `path`. -/
def records (unknown : Path → Bool) (path : Path) (es : List Entry) : List Dirent :=
  direntOf unknown (path ++ ['.']) .dir ['.'] :: direntOf unknown (path ++ ['.', '.']) .dir ['.', '.'] ::
    es.map fun e => direntOf unknown (path ++ e.name) e.dType e.name

/-- What the kernel answers about an entry at the path `path`. A link is followed by `statx`, to
anything but a link. -/
def Answers (fs : FileSystem) (path : Path) : Entry → Prop
  | .reg _ sb => sb.kind = .reg ∧ fs.statx path 0 = .ok sb
  | .dir _ _ => ∃ sb, fs.statx path 0 = .ok sb ∧ sb.kind = .dir
  | .link _ target => fs.readlink path 0 = .ok target ∧
      ∀ k sb, fs.statx path k = .ok sb → sb.kind ≠ .lnk
  | .other _ kind => ∃ sb, fs.statx path 0 = .ok sb ∧ sb.kind = kind.kind

/-- The kernel answers as if the directory `path` held the entries `es`, and does not fail. The
entries are reported in any order and in any number of batches. -/
inductive Holds (fs : FileSystem) (unknown : Path → Bool) : Path → List Entry → Prop where
  | mk {path : Path} {es : List Entry} {batches : List (List Dirent)}
      (opens : ∃ ino, fs.openDir path 0 = .ok ino)
      (reads : ∀ k, fs.getdents path k 0 = .ok (batches.getD k []))
      (nonempty : ∀ b ∈ batches, b ≠ [])
      (all : batches.flatten ~ records unknown path es)
      (dots : ∀ n ∈ [['.'], ['.', '.']], ∃ sb, fs.statx (path ++ n) 0 = .ok sb ∧ sb.kind = .dir)
      (valid : ∀ e ∈ es, ValidName e.name)
      (names : (es.map Entry.name).Nodup)
      (entries : ∀ e ∈ es, Answers fs (path ++ e.name) e)
      (dirs : ∀ name es', .dir name es' ∈ es → Holds fs unknown (path ++ name ++ ['/']) es') :
      Holds fs unknown path es

/-- The kernel lets the walk write to the destination. -/
structure Writable (fs : FileSystem) : Prop where
  mkdir : ∀ path, fs.mkdir path = .ok () ∨
    fs.mkdir path = .error EEXIST ∧ fs.stat64 path = .ok .dir
  symlink : ∀ target path, fs.symlink target path 0 = .ok ()

/-- The kernel reports no name with a slash in it. -/
def PlainNames (fs : FileSystem) : Prop :=
  ∀ path k i ds, fs.getdents path k i = .ok ds → ∀ d ∈ ds, '/' ∉ d.dName

/-- The kernel reports `.` and `..` as directories, and every other entry under a name. -/
structure Listing (fs : FileSystem) : Prop where
  names : PlainNames fs
  nonempty : ∀ path k i ds, fs.getdents path k i = .ok ds → ∀ d ∈ ds, d.dName ≠ []
  dots : ∀ path k i ds, fs.getdents path k i = .ok ds → ∀ d ∈ ds, d.dName ∈ [['.'], ['.', '.']] →
    d.dType = .dir ∨
      d.dType = .unknown ∧ ∀ k st, fs.statx (path ++ d.dName) k = .ok st → st.kind = .dir

/-! ## The order of the operations -/

/-- The directory that a path is in, with its slash. -/
def parentDir (path : Path) : Path := (path.reverse.dropWhile (· ≠ '/')).reverse

/-- The path of the destination that an operation is about. -/
def target : WalkOp → Option Path
  | .recursiveMkdir path => some path
  | .addCopyJob job => some job.dest
  | .symlink _ linkPath => some linkPath
  | .onError _ _ => none

/-- The directory `dir` of the destination has been made. -/
def Made (ops : List WalkOp) (dir : Path) : Prop :=
  ∃ path, .recursiveMkdir path ∈ ops ∧ withSlash path = dir

/-- After `ops`, each of the operations `more` is in a directory that was made before it. -/
def Ordered (ops more : List WalkOp) : Prop :=
  ∀ l₁ op l₂, more = l₁ ++ op :: l₂ → ∀ path, target op = some path → Made (ops ++ l₁) (parentDir path)

/-! ## Walks that do the same -/

/-- An operation, without the text of its error. -/
def forget : WalkOp → WalkOp
  | .onError path _ => .onError path ⟨[]⟩
  | op => op

/-- The walks of two file systems end, having done the same things and having reported errors for the
same entries. -/
def Agree (fs fs₀ : FileSystem) (strerror : Errno → List Char) (fromDir dest : Path) : Prop :=
  ∃ n n₀, (addRecursiveCopy fs strerror fromDir dest n).pc = .done ∧
    (addRecursiveCopy fs₀ strerror fromDir dest n₀).pc = .done ∧
    (addRecursiveCopy fs strerror fromDir dest n).ops.map forget ~
      (addRecursiveCopy fs₀ strerror fromDir dest n₀).ops.map forget

end Walk

end Wcp
