import Mathlib
import WcpVerified.SourceTree

/-!
# Proofs: the walk over a directory tree

A directory is walked before anything that was on the stack below it: by induction on the tree, the
walk of a directory does what is to be done for everything in it, in some order, and leaves the rest
of the stack as it was. What is done in a directory of the destination is done after that directory
was made.
-/

namespace Wcp

open List

/-! ## System calls that do not fail -/

theorem retrySyscall_ok {α : Type} {func : ℕ → Except Errno α} {a : α} (h : func 0 = .ok a) :
    retrySyscall func = .ok a := by
  simp [retrySyscall, retryAttempts, h, EINTR, EAGAIN]

theorem myStatx_ok {strerror : Errno → List Char} {path : Path} {answers : ℕ → Except Errno Statx}
    {sb : Statx} (h : answers 0 = .ok sb) : myStatx strerror path answers = .ok sb := by
  rw [myStatx, retrySyscall_ok h]

theorem myGetDents_ok {strerror : Errno → List Char} {path : Path}
    {answers : ℕ → Except Errno (List Dirent)} {entries : List Dirent} (h : answers 0 = .ok entries) :
    myGetDents strerror path answers = .ok entries := by
  rw [myGetDents, retrySyscall_ok h]

theorem myOpen_ok {strerror : Errno → List Char} {path : Path} {oflag : OpenFlags}
    {answers : ℕ → Except Errno Ino} {ino : Ino} (h : answers 0 = .ok ino) :
    myOpen strerror path oflag answers = .ok ino := by
  simp [myOpen, openAttempts, h]

/-- The buffer becomes larger than the target before the rounds run out. -/
theorem readlinkLoop_eq (target : Path) (fuel size : ℕ) (h : target.length < size + 1024 * fuel) :
    readlinkLoop target (fuel + 1) size = some target := by
  induction fuel generalizing size with
  | zero =>
    rw [readlinkLoop, readlinkat, take_of_length_le (by omega), if_pos (by omega)]
  | succ fuel ih =>
    rw [readlinkLoop, readlinkat]
    split
    · rename_i hlt
      rw [length_take] at hlt
      rw [take_of_length_le (by omega)]
    · exact ih (size + 1024) (by omega)

/-- The target of a link is read in full, whatever its length. -/
theorem myReadlink_ok {strerror : Errno → List Char} {linkPath target : Path}
    {answers : ℕ → Except Errno Path} (h : answers 0 = .ok target) :
    myReadlink strerror linkPath answers = .ok target := by
  rw [myReadlink, retrySyscall_ok h]
  dsimp only
  rw [readlinkLoop_eq target _ _ (by omega)]
  rfl

namespace Walk

theorem recursiveMkdir_ok {fs : FileSystem} (h : Writable fs) (path : Path) :
    recursiveMkdir fs.mkdir fs.stat64 path = true := by
  rw [recursiveMkdir, all_eq_true]
  intro p _
  rcases h.mkdir p with hp | ⟨hp, hs⟩
  · simp [mkdirOne, hp]
  · simp [mkdirOne, hp, hs]

/-! ## Paths -/

theorem withSlash_append (path : Path) : withSlash (path ++ ['/']) = path ++ ['/'] := by
  simp [withSlash]

/-- A directory path that ends in a slash. -/
def IsDir (path : Path) : Prop := ∃ p, path = p ++ ['/']

theorem isDir_withSlash (path : Path) : IsDir (withSlash path) := by
  unfold withSlash
  split
  · rename_i h
    obtain ⟨p, hp⟩ := getLast?_eq_some_iff.mp h
    exact ⟨p, hp⟩
  · exact ⟨path, rfl⟩

theorem IsDir.append {path pre : Path} (h : IsDir path) (hpre : pre = [] ∨ IsDir pre) :
    IsDir (path ++ pre) := by
  rcases hpre with rfl | ⟨p, rfl⟩
  · rwa [append_nil]
  · exact ⟨path ++ p, by simp⟩

theorem parentDir_append {path name : Path} (hp : IsDir path) (hn : '/' ∉ name) :
    parentDir (path ++ name) = path := by
  obtain ⟨p, rfl⟩ := hp
  unfold parentDir
  rw [reverse_append, dropWhile_append_of_pos]
  · simp
  · intro c hc
    have : c ≠ '/' := fun he => hn (he ▸ mem_reverse.mp hc)
    simpa using this

theorem Made.append {ops : List WalkOp} {dir : Path} (h : Made ops dir) (more : List WalkOp) :
    Made (ops ++ more) dir := by
  obtain ⟨path, hp, hd⟩ := h
  exact ⟨path, mem_append_left _ hp, hd⟩

theorem Ordered.append {ops more more' : List WalkOp} (h : Ordered ops more)
    (h' : Ordered (ops ++ more) more') : Ordered ops (more ++ more') := by
  intro l₁ op l₂ heq path hp
  rcases append_eq_append_iff.mp heq with ⟨l, rfl, hl⟩ | ⟨l, rfl, hl⟩
  · rw [← append_assoc]
    exact h' l op l₂ hl path hp
  · cases l with
    | nil =>
      have := h' [] op l₂ (by simpa using hl.symm) path hp
      simpa using this
    | cons op' l =>
      have hop : op = op' := (cons.inj hl).1
      subst hop
      exact h l₁ op l rfl path hp

/-- Operations that are all in directories made before the first of them. -/
theorem Ordered.of_made {ops more : List WalkOp}
    (h : ∀ op ∈ more, ∀ path, target op = some path → Made ops (parentDir path)) :
    Ordered ops more := by
  rintro l₁ op l₂ rfl path hp
  exact (h op (by simp) path hp).append l₁

/-! ## The loops -/

section Loops

variable (fs : FileSystem) (strerror : Errno → List Char) (fromDir dest : Path)

/-- What an entry adds to the operations. -/
def opsOf (current : Path) (d : Dirent) : List WalkOp :=
  (walkEntry fs strerror fromDir dest current d ⟨[], [], .next⟩).ops

/-- What an entry adds to the stack. -/
def pushOf (current : Path) (d : Dirent) : List Path :=
  (walkEntry fs strerror fromDir dest current d ⟨[], [], .next⟩).directoryStack

/-- Nothing goes wrong with an entry. -/
def Fine (current : Path) (d : Dirent) : Prop :=
  ∀ s, walkEntry fs strerror fromDir dest current d s =
    { s with
      ops := s.ops ++ opsOf fs strerror fromDir dest current d
      directoryStack := pushOf fs strerror fromDir dest current d ++ s.directoryStack }

/-- The walk gets from one state to another. -/
def Runs (s s' : WalkState) : Prop := ∃ n, (step fs strerror fromDir dest)^[n] s = s'

variable {fs strerror fromDir dest} {s s' s'' : WalkState} {current : Path}

theorem Runs.refl : Runs fs strerror fromDir dest s s := ⟨0, rfl⟩

theorem Runs.trans (h : Runs fs strerror fromDir dest s s')
    (h' : Runs fs strerror fromDir dest s' s'') : Runs fs strerror fromDir dest s s'' := by
  obtain ⟨n, rfl⟩ := h
  obtain ⟨m, rfl⟩ := h'
  exact ⟨m + n, Function.iterate_add_apply _ m n s⟩

theorem Runs.of_step (h : step fs strerror fromDir dest s = s') : Runs fs strerror fromDir dest s s' :=
  ⟨1, h⟩

theorem step_open {ops : List WalkOp} {stack : List Path} {ino : Ino}
    (h : fs.openDir current 0 = .ok ino) :
    step fs strerror fromDir dest ⟨ops, current :: stack, .next⟩ =
      ⟨ops, stack, .reading current 0 0⟩ := by
  simp only [step, myOpen_ok h]

theorem step_reading {ops : List WalkOp} {stack : List Path} {calls written : ℕ}
    {entries : List Dirent} (h : fs.getdents current calls 0 = .ok entries) :
    step fs strerror fromDir dest ⟨ops, stack, .reading current calls written⟩ =
      ⟨ops, stack, .entries current (calls + 1) entries.length entries⟩ := by
  simp only [step, myGetDents_ok h]

theorem step_entry {ops : List WalkOp} {stack : List Path} {calls written : ℕ} {d : Dirent}
    {left : List Dirent} (h : Fine fs strerror fromDir dest current d) :
    step fs strerror fromDir dest ⟨ops, stack, .entries current calls written (d :: left)⟩ =
      ⟨ops ++ opsOf fs strerror fromDir dest current d,
        pushOf fs strerror fromDir dest current d ++ stack, .entries current calls written left⟩ :=
  h ⟨ops, stack, .entries current calls written left⟩

theorem step_batch {ops : List WalkOp} {stack : List Path} {calls written : ℕ} (h : written ≠ 0) :
    step fs strerror fromDir dest ⟨ops, stack, .entries current calls written []⟩ =
      ⟨ops, stack, .reading current calls written⟩ := by
  simp only [step, afterBatch, if_pos h]

/-- The loop over the entries of a buffer. -/
theorem runs_entries {calls written : ℕ} {left : List Dirent}
    (h : ∀ d ∈ left, Fine fs strerror fromDir dest current d) (ops : List WalkOp)
    (stack : List Path) :
    Runs fs strerror fromDir dest ⟨ops, stack, .entries current calls written left⟩
      ⟨ops ++ left.flatMap (opsOf fs strerror fromDir dest current),
        left.reverse.flatMap (pushOf fs strerror fromDir dest current) ++ stack,
        .entries current calls written []⟩ := by
  induction left generalizing ops stack with
  | nil => simpa using Runs.refl
  | cons d left ih =>
    refine (Runs.of_step (step_entry (h d mem_cons_self))).trans ?_
    have hrest := ih (fun d' hd' => h d' (mem_cons_of_mem _ hd'))
      (ops ++ opsOf fs strerror fromDir dest current d)
      (pushOf fs strerror fromDir dest current d ++ stack)
    simpa [flatMap_append] using hrest

/-- The `do` loop, with the batches that are still to be read. -/
theorem runs_batches {batches : List (List Dirent)} (calls : ℕ)
    (hreads : ∀ k, fs.getdents current (calls + k) 0 = .ok (batches.getD k []))
    (hne : ∀ b ∈ batches, b ≠ [])
    (h : ∀ d ∈ batches.flatten, Fine fs strerror fromDir dest current d) (ops : List WalkOp)
    (stack : List Path) (written : ℕ) :
    Runs fs strerror fromDir dest ⟨ops, stack, .reading current calls written⟩
      ⟨ops ++ batches.flatten.flatMap (opsOf fs strerror fromDir dest current),
        batches.flatten.reverse.flatMap (pushOf fs strerror fromDir dest current) ++ stack, .next⟩ := by
  induction batches generalizing calls ops stack written with
  | nil =>
    refine (Runs.of_step (step_reading (hreads 0))).trans (Runs.of_step ?_)
    simp [step, afterBatch]
  | cons b batches ih =>
    have hlen : b.length ≠ 0 := fun hz => hne b mem_cons_self (length_eq_zero_iff.mp hz)
    refine (Runs.of_step (step_reading (hreads 0))).trans ?_
    refine (runs_entries (fun d hd => h d (mem_flatten.mpr ⟨b, mem_cons_self, hd⟩)) ops stack).trans ?_
    refine (Runs.of_step (step_batch hlen)).trans ?_
    have hnext : ∀ k, fs.getdents current (calls + 1 + k) 0 = .ok (batches.getD k []) := by
      intro k
      rw [Nat.add_assoc, Nat.add_comm 1 k, hreads (k + 1)]
      rfl
    have hrest := ih (calls + 1) hnext (fun b' hb' => hne b' (mem_cons_of_mem _ hb'))
      (fun d hd => h d (by rw [flatten_cons]; exact mem_append_right _ hd))
      (ops ++ b.flatMap (opsOf fs strerror fromDir dest current))
      (b.reverse.flatMap (pushOf fs strerror fromDir dest current) ++ stack) b.length
    simpa [flatMap_append] using hrest

end Loops

/-! ## One entry -/

section Entries

variable {fs : FileSystem} {strerror : Errno → List Char} {fromDir dest pre : Path}
  {unknown : Path → Bool}

/-- The subdirectory an entry is, with its slash. -/
def subdirs (current : Path) : Entry → List Path
  | .dir name _ => [current ++ name ++ ['/']]
  | _ => []

theorem destPath_append (fromDir dest rel : Path) :
    destPath fromDir dest (fromDir ++ rel) = dest ++ rel := by
  rw [destPath, drop_left]

theorem classify_reported {path : Path} {type : DType} (h : unknown path = false)
    (hu : type ≠ .unknown) (name : Path) :
    classify fs strerror path (direntOf unknown path type name) = .ok (type, none) := by
  simp [classify, direntOf, h, hu]

theorem classify_unknown {path : Path} {sb : Statx} (h : unknown path = true)
    (hs : fs.statx path 0 = .ok sb) (type : DType) (name : Path) :
    classify fs strerror path (direntOf unknown path type name) =
      .ok (typeOfMode sb.kind, some sb) := by
  simp [classify, direntOf, h, myStatx_ok hs]

theorem walkEntry_of_classify {current : Path} {d : Dirent} {type : DType} {sb : Option Statx}
    (h : classify fs strerror (current ++ d.dName) d = .ok (type, sb)) (s : WalkState) :
    walkEntry fs strerror fromDir dest current d s = dispatch fs strerror (current ++ d.dName)
      (destPath fromDir dest (current ++ d.dName)) d.dName type sb s := by
  simp only [walkEntry, h]

/-- The type of a directory, a file or any other entry is found, whether or not it is reported. -/
theorem walkEntry_of_kind (strerror : Errno → List Char) (fromDir dest : Path)
    (unknown : Path → Bool) {current name : Path} {type : DType} {sb : Statx}
    (hs : fs.statx (current ++ name) 0 = .ok sb) (hu : type ≠ .unknown) (s : WalkState) :
    ∃ st, (st = none ∨ st = some sb) ∧ walkEntry fs strerror fromDir dest current
      (direntOf unknown (current ++ name) type name) s =
      dispatch fs strerror (current ++ name) (destPath fromDir dest (current ++ name)) name
        (if unknown (current ++ name) then typeOfMode sb.kind else type) st s := by
  cases h : unknown (current ++ name) with
  | true => exact ⟨some sb, .inr rfl, walkEntry_of_classify (classify_unknown h hs type name) s⟩
  | false => exact ⟨none, .inl rfl, walkEntry_of_classify (classify_reported h hu name) s⟩

variable {fullPath destPath name : Path} {s : WalkState}

theorem dispatch_reg {sb : Statx} {st : Option Statx} (hst : st = none ∨ st = some sb)
    (hs : fs.statx fullPath 0 = .ok sb) :
    dispatch fs strerror fullPath destPath name .reg st s =
      record (.addCopyJob (jobOf fullPath destPath sb)) s := by
  rcases hst with rfl | rfl
  · simp only [dispatch, myStatx_ok hs]
  · rfl

theorem dispatch_dir (hw : Writable fs) (hn : ValidName name) (st : Option Statx) :
    dispatch fs strerror fullPath destPath name .dir st s =
      { record (.recursiveMkdir destPath) s with
        directoryStack := (fullPath ++ ['/']) :: s.directoryStack } := by
  rw [dispatch, if_pos ⟨hn.dot, hn.dotdot⟩]
  dsimp only
  rw [if_pos (recursiveMkdir_ok hw destPath)]
  rfl

theorem dispatch_lnk (hw : Writable fs) {target : Path} (hr : fs.readlink fullPath 0 = .ok target)
    (st : Option Statx) :
    dispatch fs strerror fullPath destPath name .lnk st s = record (.symlink target destPath) s := by
  simp only [dispatch, copyLink, myReadlink_ok hr, retrySyscall_ok (hw.symlink target destPath)]

/-- The type of an entry that is not copied. -/
theorem dispatch_other {type : DType} (h : type ≠ .dir ∧ type ≠ .reg ∧ type ≠ .lnk)
    (st : Option Statx) :
    dispatch fs strerror fullPath destPath name type st s =
      record (.onError fullPath (unhandledType fullPath type)) s := by
  cases type with
  | dir => exact absurd rfl h.1
  | reg => exact absurd rfl h.2.1
  | lnk => exact absurd rfl h.2.2
  | unknown | fifo | chr | blk | sock | wht => rfl

/-- A link is reported with its type. -/
def LinkReported (unknown : Path → Bool) (path : Path) : Entry → Prop
  | .link _ _ => unknown path = false
  | _ => True

/-- `.` and `..` are skipped. -/
theorem walkEntry_dot {current : Path} (hn : name ∈ [['.'], ['.', '.']]) {sb : Statx}
    (hs : fs.statx (current ++ name) 0 = .ok sb) (hk : sb.kind = .dir) (s : WalkState) :
    walkEntry fs strerror fromDir dest current
      (direntOf unknown (current ++ name) .dir name) s = s := by
  obtain ⟨st, -, he⟩ := walkEntry_of_kind strerror fromDir dest unknown hs
    (by decide : DType.dir ≠ .unknown) s
  rw [he, hk, typeOfMode, ite_self, dispatch, if_neg]
  rintro ⟨h1, h2⟩
  simp only [mem_cons, not_mem_nil, or_false] at hn
  exact hn.elim h1 h2

/-- What the walk does with an entry of the directory at `pre`. -/
theorem walkEntry_eq (hw : Writable fs) {e : Entry} (hans : Answers fs (fromDir ++ pre ++ e.name) e)
    (hvalid : ValidName e.name) (hlink : LinkReported unknown (fromDir ++ pre ++ e.name) e)
    (s : WalkState) :
    walkEntry fs strerror fromDir dest (fromDir ++ pre)
      (direntOf unknown (fromDir ++ pre ++ e.name) e.dType e.name) s =
      { s with
        ops := s.ops ++ [Entry.op fromDir dest unknown (pre ++ e.name, e)]
        directoryStack := subdirs (fromDir ++ pre) e ++ s.directoryStack } := by
  have hfull : ∀ name : Path, fromDir ++ pre ++ name = fromDir ++ (pre ++ name) :=
    fun name => append_assoc ..
  have hdest : ∀ name, Walk.destPath fromDir dest (fromDir ++ pre ++ name) = dest ++ (pre ++ name) :=
    fun name => by rw [hfull, destPath_append]
  cases e with
  | reg name sb =>
    obtain ⟨hk, hs⟩ := hans
    obtain ⟨st, hst, he⟩ := walkEntry_of_kind strerror fromDir dest unknown hs
      (by decide : DType.reg ≠ .unknown) s
    refine he.trans ?_
    rw [hk, typeOfMode, ite_self, hdest, dispatch_reg hst hs, hfull]
    rfl
  | dir name es =>
    obtain ⟨sb, hs, hk⟩ := hans
    obtain ⟨st, -, he⟩ := walkEntry_of_kind strerror fromDir dest unknown hs
      (by decide : DType.dir ≠ .unknown) s
    refine he.trans ?_
    rw [hk, typeOfMode, ite_self, hdest, dispatch_dir hw hvalid]
    rfl
  | link name target =>
    have hc : classify fs strerror (fromDir ++ pre ++ name)
        (direntOf unknown (fromDir ++ pre ++ name) .lnk name) = .ok (.lnk, none) :=
      classify_reported hlink (by decide) name
    refine (walkEntry_of_classify hc s).trans ?_
    dsimp only [direntOf]
    rw [hdest]
    exact dispatch_lnk hw hans.1 none
  | other name kind =>
    obtain ⟨sb, hs, hk⟩ := hans
    have hu : kind.dType ≠ .unknown := by cases kind <;> decide
    obtain ⟨st, -, he⟩ := walkEntry_of_kind strerror fromDir dest unknown hs hu s
    refine he.trans ?_
    have htype : ∀ b : Bool, (if b = true then typeOfMode kind.kind else kind.dType) ≠ .dir ∧
        (if b = true then typeOfMode kind.kind else kind.dType) ≠ .reg ∧
        (if b = true then typeOfMode kind.kind else kind.dType) ≠ .lnk := by
      intro b
      cases kind <;> cases b <;> decide
    rw [hk, hdest, dispatch_other (htype _), hfull]
    rfl

end Entries

/-! ## A directory and everything below it -/

section Directories

variable {fs : FileSystem} {strerror : Errno → List Char} {fromDir dest pre : Path}
  {unknown : Path → Bool} {es : List Entry}

/-- The walk of the directory `path` does the operations `todo` in some order, and leaves what is
below it on the stack. -/
def Walks (fs : FileSystem) (strerror : Errno → List Char) (fromDir dest path : Path)
    (todo : List WalkOp) : Prop :=
  ∀ ops stack, Made ops (Walk.destPath fromDir dest path) →
    ∃ more, Runs fs strerror fromDir dest ⟨ops, path :: stack, .next⟩ ⟨ops ++ more, stack, .next⟩ ∧
      more ~ todo ∧ Ordered ops more

/-- The walk of the directories on the stack. -/
theorem runs_stack {paths : List Path} {todos : List (List WalkOp)}
    (h : Forall₂ (Walks fs strerror fromDir dest) paths todos) (ops : List WalkOp)
    (stack : List Path) (hm : ∀ path ∈ paths, Made ops (Walk.destPath fromDir dest path)) :
    ∃ more, Runs fs strerror fromDir dest ⟨ops, paths ++ stack, .next⟩ ⟨ops ++ more, stack, .next⟩ ∧
      more ~ todos.flatten ∧ Ordered ops more := by
  induction h generalizing ops with
  | nil =>
    refine ⟨[], by simpa using Runs.refl, .refl _, ?_⟩
    intro l₁ op l₂ heq
    simp at heq
  | @cons path todo paths todos hp _ ih =>
    obtain ⟨more, hrun, hperm, hord⟩ := hp ops (paths ++ stack) (hm path mem_cons_self)
    obtain ⟨more', hrun', hperm', hord'⟩ := ih (ops ++ more) fun p hp' =>
      (hm p (mem_cons_of_mem _ hp')).append more
    refine ⟨more ++ more', ?_, hperm.append hperm', hord.append hord'⟩
    rw [← append_assoc]
    exact hrun.trans hrun'

theorem fine_of {current : Path} {d : Dirent} {o : List WalkOp} {q : List Path}
    (h : ∀ s, walkEntry fs strerror fromDir dest current d s =
      { s with ops := s.ops ++ o, directoryStack := q ++ s.directoryStack }) :
    Fine fs strerror fromDir dest current d ∧ opsOf fs strerror fromDir dest current d = o ∧
      pushOf fs strerror fromDir dest current d = q := by
  have ho : opsOf fs strerror fromDir dest current d = o := by simp [opsOf, h]
  have hq : pushOf fs strerror fromDir dest current d = q := by simp [pushOf, h]
  refine ⟨fun s => ?_, ho, hq⟩
  rw [h s, ho, hq]

/-- What is below an entry. -/
def inside (pre : Path) : Entry → List (Path × Entry)
  | .dir name es => Entry.pathsAll (pre ++ name ++ ['/']) es
  | _ => []

theorem paths_eq (pre : Path) (e : Entry) : e.paths pre = (pre ++ e.name, e) :: inside pre e := by
  cases e <;> simp [Entry.paths, Entry.name, inside]

/-- The operations of a directory, and those of its subdirectories. -/
theorem pathsAll_perm (pre : Path) (es : List Entry) :
    (Entry.pathsAll pre es).map (Entry.op fromDir dest unknown) ~
      es.map (fun e => Entry.op fromDir dest unknown (pre ++ e.name, e)) ++
        es.flatMap fun e => (inside pre e).map (Entry.op fromDir dest unknown) := by
  rw [Entry.pathsAll_eq_flatMap, map_flatMap, map_eq_flatMap]
  refine Perm.trans (.of_eq (flatMap_congr fun e _ => ?_)) (flatMap_append_perm _ _ _).symm
  rw [paths_eq, map_cons]
  rfl

/-- What the walk makes of the records of a directory. -/
theorem records_fine (strerror : Errno → List Char) (dest : Path) (hw : Writable fs) (hdots : ∀ n ∈ [['.'], ['.', '.']],
      ∃ sb, fs.statx (fromDir ++ pre ++ n) 0 = .ok sb ∧ sb.kind = .dir)
    (hvalid : ∀ e ∈ es, ValidName e.name)
    (hans : ∀ e ∈ es, Answers fs (fromDir ++ pre ++ e.name) e)
    (hlink : ∀ e ∈ es, LinkReported unknown (fromDir ++ pre ++ e.name) e) :
    (∀ d ∈ records unknown (fromDir ++ pre) es, Fine fs strerror fromDir dest (fromDir ++ pre) d) ∧
    (records unknown (fromDir ++ pre) es).flatMap (opsOf fs strerror fromDir dest (fromDir ++ pre)) =
      es.map (fun e => Entry.op fromDir dest unknown (pre ++ e.name, e)) ∧
    (records unknown (fromDir ++ pre) es).flatMap (pushOf fs strerror fromDir dest (fromDir ++ pre)) =
      es.flatMap (subdirs (fromDir ++ pre)) := by
  have hdot : ∀ n ∈ [['.'], ['.', '.']], Fine fs strerror fromDir dest (fromDir ++ pre)
        (direntOf unknown (fromDir ++ pre ++ n) .dir n) ∧
      opsOf fs strerror fromDir dest (fromDir ++ pre)
        (direntOf unknown (fromDir ++ pre ++ n) .dir n) = [] ∧
      pushOf fs strerror fromDir dest (fromDir ++ pre)
        (direntOf unknown (fromDir ++ pre ++ n) .dir n) = [] := by
    intro n hn
    obtain ⟨sb, hs, hk⟩ := hdots n hn
    refine fine_of fun s => ?_
    rw [walkEntry_dot hn hs hk]
    simp
  obtain ⟨hf1, ho1, hp1⟩ := hdot ['.'] (by simp)
  obtain ⟨hf2, ho2, hp2⟩ := hdot ['.', '.'] (by simp)
  have hentry : ∀ e ∈ es, Fine fs strerror fromDir dest (fromDir ++ pre)
        (direntOf unknown (fromDir ++ pre ++ e.name) e.dType e.name) ∧
      opsOf fs strerror fromDir dest (fromDir ++ pre)
        (direntOf unknown (fromDir ++ pre ++ e.name) e.dType e.name) =
          [Entry.op fromDir dest unknown (pre ++ e.name, e)] ∧
      pushOf fs strerror fromDir dest (fromDir ++ pre)
        (direntOf unknown (fromDir ++ pre ++ e.name) e.dType e.name) =
          subdirs (fromDir ++ pre) e :=
    fun e he => fine_of (walkEntry_eq hw (hans e he) (hvalid e he) (hlink e he))
  refine ⟨?_, ?_, ?_⟩
  · intro d hd
    rcases mem_cons.mp hd with rfl | hd
    · exact hf1
    · rcases mem_cons.mp hd with rfl | hd
      · exact hf2
      · obtain ⟨e, he, rfl⟩ := mem_map.mp hd
        exact (hentry e he).1
  · rw [records, flatMap_cons, flatMap_cons, ho1, ho2, flatMap_map, map_eq_flatMap]
    exact flatMap_congr fun e he => (hentry e he).2.1
  · rw [records, flatMap_cons, flatMap_cons, hp1, hp2, flatMap_map]
    exact flatMap_congr fun e he => (hentry e he).2.2

/-- A subdirectory is made by the operation of its entry. -/
theorem made_subdir {name : Path} (hn : ValidName name) {ops : List WalkOp}
    (h : .recursiveMkdir (dest ++ (pre ++ name)) ∈ ops) :
    Made ops (Walk.destPath fromDir dest (fromDir ++ pre ++ name ++ ['/'])) := by
  refine ⟨dest ++ (pre ++ name), h, ?_⟩
  have hlast : (dest ++ (pre ++ name)).getLast? ≠ some '/' := by
    rw [← append_assoc, getLast?_append_of_ne_nil _ hn.nonempty]
    intro hc
    exact hn.slash (mem_of_getLast? hc)
  rw [withSlash, if_neg hlast, append_assoc fromDir, append_assoc fromDir, destPath_append]
  simp

/-- An entry is in the directory it is an entry of. -/
theorem parentDir_op (hD : IsDir (dest ++ pre)) {e : Entry} (hn : ValidName e.name) {path : Path}
    (h : target (Entry.op fromDir dest unknown (pre ++ e.name, e)) = some path) :
    parentDir path = dest ++ pre := by
  have hpath : path = dest ++ pre ++ e.name := by
    cases e with
    | other => cases h
    | reg | dir | link =>
      rw [append_assoc]
      exact (Option.some.inj h).symm
  rw [hpath, parentDir_append hD hn.slash]

/-- The subdirectories of a directory are walked, if each of them is. -/
theorem forall₂_subdirs {l : List Entry}
    (h : ∀ name es', .dir name es' ∈ l → Walks fs strerror fromDir dest
      (fromDir ++ pre ++ name ++ ['/'])
      ((Entry.pathsAll (pre ++ name ++ ['/']) es').map (Entry.op fromDir dest unknown))) :
    ∃ todos, Forall₂ (Walks fs strerror fromDir dest) (l.flatMap (subdirs (fromDir ++ pre))) todos ∧
      todos.flatten = l.flatMap fun e => (inside pre e).map (Entry.op fromDir dest unknown) := by
  induction l with
  | nil => exact ⟨[], .nil, rfl⟩
  | cons e l ih =>
    obtain ⟨todos, hall, hflat⟩ := ih fun name es' he => h name es' (mem_cons_of_mem _ he)
    cases e with
    | dir name es' =>
      refine ⟨_ :: todos, .cons (h name es' mem_cons_self) hall, ?_⟩
      rw [flatten_cons, hflat]
      rfl
    | reg | link | other => exact ⟨todos, hall, hflat⟩

/-- The walk of a directory does what is to be done for everything in it. -/
theorem walks_of_holds (hw : Writable fs) (hD : IsDir dest) {path : Path}
    (h : Holds fs unknown path es) : ∀ pre, path = fromDir ++ pre → pre = [] ∨ IsDir pre →
    (∀ re ∈ Entry.pathsAll pre es, LinkReported unknown (fromDir ++ re.1) re.2) →
    Walks fs strerror fromDir dest path
      ((Entry.pathsAll pre es).map (Entry.op fromDir dest unknown)) := by
  induction h with
  | @mk path es batches hopen hreads hne hall hdots hvalid _ hans _ ih =>
    rintro pre rfl hpre hlinks ops stack hmade
    have hself : ∀ e ∈ es, ∀ re ∈ e.paths pre, re ∈ Entry.pathsAll pre es := fun e he re hre => by
      rw [Entry.pathsAll_eq_flatMap]
      exact mem_flatMap.mpr ⟨e, he, hre⟩
    have hlink : ∀ e ∈ es, LinkReported unknown (fromDir ++ pre ++ e.name) e := fun e he => by
      have := hlinks _ (hself e he (pre ++ e.name, e) (by rw [paths_eq]; exact mem_cons_self))
      rwa [← append_assoc] at this
    obtain ⟨hfine, hops, hpush⟩ := records_fine strerror dest hw hdots hvalid hans hlink
    -- the directory itself
    obtain ⟨ino, hino⟩ := hopen
    have hread := runs_batches 0 (fun k => by rw [Nat.zero_add]; exact hreads k) hne
      (fun d hd => hfine d (hall.mem_iff.mp hd)) ops stack 0
    set T := batches.flatten.flatMap (opsOf fs strerror fromDir dest (fromDir ++ pre)) with hT
    set R := batches.flatten.reverse.flatMap (pushOf fs strerror fromDir dest (fromDir ++ pre)) with hR
    have hTperm : T ~ es.map (fun e => Entry.op fromDir dest unknown (pre ++ e.name, e)) :=
      hops ▸ hall.flatMap_right _
    have hRperm : R ~ es.flatMap (subdirs (fromDir ++ pre)) :=
      hpush ▸ ((reverse_perm _).trans hall).flatMap_right _
    -- its subdirectories
    have hsub : ∀ name es', .dir name es' ∈ es → Walks fs strerror fromDir dest
        (fromDir ++ pre ++ name ++ ['/'])
        ((Entry.pathsAll (pre ++ name ++ ['/']) es').map (Entry.op fromDir dest unknown)) := by
      intro name es' he
      refine ih name es' he _ (by simp) (.inr ⟨pre ++ name, rfl⟩) fun re hre => ?_
      refine hlinks re (hself _ he re ?_)
      rw [paths_eq]
      exact mem_cons_of_mem _ hre
    obtain ⟨todos, hforall, hflat⟩ := forall₂_subdirs hsub
    obtain ⟨todos', hforall', hperm'⟩ := perm_comp_forall₂ hRperm hforall
    have hmadeR : ∀ q ∈ R, Made (ops ++ T) (Walk.destPath fromDir dest q) := by
      intro q hq
      obtain ⟨e, he, hqe⟩ := mem_flatMap.mp (hRperm.mem_iff.mp hq)
      cases e with
      | dir name es' =>
        rw [mem_singleton.mp hqe]
        refine made_subdir (hvalid _ he) (mem_append_right _ (hTperm.mem_iff.mpr ?_))
        exact mem_map.mpr ⟨_, he, rfl⟩
      | reg | link | other => exact absurd hqe not_mem_nil
    obtain ⟨more, hrun, hmore, hord⟩ := runs_stack hforall' (ops ++ T) stack hmadeR
    refine ⟨T ++ more, ?_, ?_, ?_⟩
    · rw [← append_assoc]
      exact (Runs.of_step (step_open hino)).trans (hread.trans hrun)
    · refine Perm.trans ?_ (pathsAll_perm pre es).symm
      refine hTperm.append (hmore.trans ?_)
      rw [← hflat]
      exact hperm'.flatten
    · refine Ordered.append (.of_made fun op hop p hp => ?_) hord
      obtain ⟨e, he, rfl⟩ := mem_map.mp (hTperm.mem_iff.mp hop)
      rw [parentDir_op (hD.append hpre) (hvalid e he) hp]
      rwa [destPath_append] at hmade

/-! ## The paths of a tree are distinct -/

mutual

theorem prefix_of_mem_paths (pre : Path) : (e : Entry) → ∀ re ∈ e.paths pre, pre <+: re.1
  | .reg name sb => by simp [Entry.paths]
  | .dir name es => by
    intro re hre
    rcases mem_cons.mp hre with rfl | hre
    · exact prefix_append _ _
    · have h := prefix_of_mem_pathsAll (pre ++ name ++ ['/']) es re hre
      rw [append_assoc] at h
      exact (prefix_append _ _).trans h
  | .link name target => by simp [Entry.paths]
  | .other name kind => by simp [Entry.paths]

theorem prefix_of_mem_pathsAll (pre : Path) : (es : List Entry) → ∀ re ∈ Entry.pathsAll pre es, pre <+: re.1
  | [] => by simp [Entry.pathsAll]
  | e :: es => by
    intro re hre
    rcases mem_append.mp hre with hre | hre
    · exact prefix_of_mem_paths pre e re hre
    · exact prefix_of_mem_pathsAll pre es re hre

end

/-- The walk ends, having done what is to be done for everything in the source. -/
theorem walk_of_holds (strerror : Errno → List Char) (fromDir dest : Path) (hw : Writable fs)
    (h : Holds fs unknown (withSlash fromDir) es)
    (hlinks : ∀ re ∈ Entry.pathsAll [] es, LinkReported unknown (withSlash fromDir ++ re.1) re.2) :
    ∃ n more, addRecursiveCopy fs strerror fromDir dest n =
        ⟨.recursiveMkdir (withSlash dest) :: more, [], .done⟩ ∧
      more ~ (Entry.pathsAll [] es).map (Entry.op (withSlash fromDir) (withSlash dest) unknown) ∧
      Ordered [.recursiveMkdir (withSlash dest)] more := by
  have hD := isDir_withSlash dest
  have hstart : start fs (withSlash fromDir) (withSlash dest) =
      ⟨[.recursiveMkdir (withSlash dest)], [withSlash fromDir], .next⟩ := by
    rw [start, if_pos (recursiveMkdir_ok hw _)]
  have hmade : Made [.recursiveMkdir (withSlash dest)]
      (Walk.destPath (withSlash fromDir) (withSlash dest) (withSlash fromDir)) := by
    refine ⟨withSlash dest, mem_singleton_self _, ?_⟩
    obtain ⟨d, hd⟩ := hD
    rw [Walk.destPath, drop_length, append_nil, hd, withSlash_append]
  have hwalks : Walks fs strerror (withSlash fromDir) (withSlash dest) (withSlash fromDir)
      ((Entry.pathsAll [] es).map (Entry.op (withSlash fromDir) (withSlash dest) unknown)) :=
    walks_of_holds hw hD h [] (by simp) (.inl rfl) hlinks
  obtain ⟨more, hrun, hperm, hord⟩ := hwalks _ [] hmade
  have hlast : Runs fs strerror (withSlash fromDir) (withSlash dest)
      ⟨[.recursiveMkdir (withSlash dest)] ++ more, [], .next⟩
      ⟨[.recursiveMkdir (withSlash dest)] ++ more, [], .done⟩ := .of_step rfl
  obtain ⟨n, hn⟩ := hrun.trans hlast
  refine ⟨n, more, ?_, hperm, hord⟩
  rw [addRecursiveCopy, hstart, hn]
  rfl

end Directories

/-! ## A small tree -/

/-- A file, a directory with a link in it, and a FIFO. -/
def smallTree : List Entry :=
  [.reg ['a'] ⟨.reg, 5, 4096, 0o100644⟩, .dir ['b'] [.link ['l'] ['t']], .other ['p'] .fifo]

/-- A file system with the tree in the directory `s`. The link is dangling. Each directory is read in
two batches. -/
def smallFs (unknown : Path → Bool) : FileSystem where
  openDir _ _ := .ok 0
  getdents path k _ :=
    let rs := records unknown path (if path = ['s', '/'] then smallTree else [.link ['l'] ['t']])
    .ok ([rs.take 2, rs.drop 2].getD k [])
  statx path _ :=
    if path = ['s', '/', 'a'] then .ok ⟨.reg, 5, 4096, 0o100644⟩
    else if path = ['s', '/', 'p'] then .ok ⟨.fifo, 0, 4096, 0o10644⟩
    else if path = ['s', '/', 'b', '/', 'l'] then .error ENOENT
    else .ok ⟨.dir, 4096, 4096, 0o40755⟩
  readlink _ _ := .ok ['t']
  symlink _ _ _ := .ok ()
  mkdir _ := .ok ()
  stat64 _ := .ok .dir

theorem writable_smallFs (unknown : Path → Bool) : Writable (smallFs unknown) where
  mkdir _ := .inl rfl
  symlink _ _ := rfl

theorem validName_singleton {c : Char} (h : c ≠ '/' ∧ c ≠ '.') : ValidName [c] where
  nonempty := cons_ne_nil _ _
  slash := by simpa using Ne.symm h.1
  dot := by simpa using h.2
  dotdot := by simp

/-- What is reported is `.` or `..`, or has a name. -/
theorem dirent_smallFs {unknown : Path → Bool} {path : Path} {k i : ℕ} {ds : List Dirent}
    (hds : (smallFs unknown).getdents path k i = .ok ds) {d : Dirent} (hd : d ∈ ds) :
    (∃ n ∈ [['.'], ['.', '.']], d = direntOf unknown (path ++ n) .dir n) ∨ ValidName d.dName := by
  have hmem : d ∈ records unknown path
      (if path = ['s', '/'] then smallTree else [.link ['l'] ['t']]) := by
    rw [← Except.ok.inj hds] at hd
    rcases k with - | - | k
    · exact mem_of_mem_take hd
    · exact mem_of_mem_drop hd
    · exact absurd hd not_mem_nil
  rcases mem_cons.mp hmem with rfl | hmem
  · exact .inl ⟨['.'], by simp, rfl⟩
  · rcases mem_cons.mp hmem with rfl | hmem
    · exact .inl ⟨['.', '.'], by simp, rfl⟩
    · obtain ⟨e, he, rfl⟩ := mem_map.mp hmem
      have hvalid : ∀ e ∈ smallTree ++ [.link ['l'] ['t']], ValidName e.name := by
        simp [smallTree, Entry.name, validName_singleton]
      refine .inr (hvalid e ?_)
      split at he
      · exact mem_append_left _ he
      · exact mem_append_right _ he

theorem listing_smallFs (unknown : Path → Bool) : Listing (smallFs unknown) where
  names path k i ds hds d hd := by
    rcases dirent_smallFs hds hd with ⟨n, hn, rfl⟩ | hv
    · rcases mem_pair.mp hn with rfl | rfl <;> simp [direntOf]
    · exact hv.slash
  nonempty path k i ds hds d hd := by
    rcases dirent_smallFs hds hd with ⟨n, hn, rfl⟩ | hv
    · rcases mem_pair.mp hn with rfl | rfl <;> simp [direntOf]
    · exact hv.nonempty
  dots path k i ds hds d hd hdots := by
    rcases dirent_smallFs hds hd with ⟨n, hn, rfl⟩ | hv
    · by_cases hu : unknown (path ++ n) = true
      · refine .inr ⟨if_pos hu, fun k st hst => ?_⟩
        have hne : ∀ p : Path, p.getLast? ≠ some '.' → path ++ n ≠ p := by
          rintro _ hp rfl
          rcases mem_pair.mp hn with rfl | rfl <;> simp at hp
        change (smallFs unknown).statx (path ++ n) k = .ok st at hst
        simp only [smallFs] at hst
        rw [if_neg (hne _ (by decide)), if_neg (hne _ (by decide)), if_neg (hne _ (by decide))] at hst
        rw [← Except.ok.inj hst]
      · exact .inl (if_neg hu)
    · rcases mem_pair.mp hdots with hdot | hdot
      · exact absurd hdot hv.dot
      · exact absurd hdot hv.dotdot

theorem holds_smallTree (unknown : Path → Bool) :
    Holds (smallFs unknown) unknown ['s', '/'] smallTree := by
  have hsub : Holds (smallFs unknown) unknown ['s', '/', 'b', '/'] [.link ['l'] ['t']] := by
    refine .mk ⟨0, rfl⟩ (fun k => rfl) ?_ ?_ ?_ ?_ ?_ ?_ ?_
    · simp [records]
    · simp [records]
    · simp [smallFs]
    · simp [Entry.name, validName_singleton]
    · simp
    · simp [Answers, Entry.name, smallFs]
    · simp
  refine .mk ⟨0, rfl⟩ (fun k => rfl) ?_ ?_ ?_ ?_ ?_ ?_ ?_
  · simp [records, smallTree]
  · simp [records]
  · simp [smallFs]
  · simp [smallTree, Entry.name, validName_singleton]
  · decide
  · simp [smallTree, Answers, Entry.name, smallFs, OtherKind.kind]
  · simp [smallTree, hsub]

end Walk

end Wcp
