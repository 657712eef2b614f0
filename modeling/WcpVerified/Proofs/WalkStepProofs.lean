import WcpVerified.Proofs.WalkProofs

/-!
# Proofs: what the walk can do

For every answer of the kernel. `Does` says what can be done for an entry, `walkEntry_stack` what can
be put on the stack, and `walk_rule` carries a property of directories and a property of operations
through a whole walk.
-/

namespace Wcp

open List

theorem retryAttempts_eq_ok {α : Type} {func : ℕ → Except Errno α} {left tries : ℕ} {errno : Errno}
    {a : α} (h : retryAttempts func left tries errno = .ok a) : ∃ k, func k = .ok a := by
  induction left generalizing tries errno with
  | zero => cases h
  | succ left ih =>
    rw [retryAttempts] at h
    split at h
    · rename_i b hb
      split at h
      · exact ih h
      · split at h
        · exact ⟨tries, hb.trans h⟩
        · cases h
    · split at h
      · exact ih h
      · cases h

theorem myStatx_eq_ok {strerror : Errno → List Char} {path : Path} {answers : ℕ → Except Errno Statx}
    {sb : Statx} (h : myStatx strerror path answers = .ok sb) : ∃ k, answers k = .ok sb := by
  rw [myStatx] at h
  split at h
  · rename_i sb' hsb
    rw [Except.ok.inj h] at hsb
    exact retryAttempts_eq_ok hsb
  · cases h

theorem myGetDents_eq_ok {strerror : Errno → List Char} {path : Path}
    {answers : ℕ → Except Errno (List Dirent)} {entries : List Dirent}
    (h : myGetDents strerror path answers = .ok entries) : ∃ k, answers k = .ok entries := by
  rw [myGetDents] at h
  split at h
  · rename_i es hes
    rw [Except.ok.inj h] at hes
    exact retryAttempts_eq_ok hes
  · cases h

namespace Walk

/-! ## One entry -/

section Entry

variable (fs : FileSystem) (strerror : Errno → List Char) (fromDir dest current : Path) (d : Dirent)

/-- An entry is taken for a file of a type. -/
def TakenFor (type : DType) : Prop := ∃ sb, classify fs strerror (current ++ d.dName) d = .ok (type, sb)

/-- What can be done for an entry. -/
def Does : WalkOp → Prop
  | .recursiveMkdir path => path = destPath fromDir dest (current ++ d.dName) ∧
      d.dName ∉ [['.'], ['.', '.']] ∧ TakenFor fs strerror current d .dir
  | .addCopyJob job => TakenFor fs strerror current d .reg ∧
      ∃ sb, job = jobOf (current ++ d.dName) (destPath fromDir dest (current ++ d.dName)) sb ∧
        ∃ k, fs.statx (current ++ d.dName) k = .ok sb
  | .symlink _ linkPath => linkPath = destPath fromDir dest (current ++ d.dName) ∧
      TakenFor fs strerror current d .lnk
  | .onError path _ => path = current ++ d.dName

variable {fs strerror fromDir dest current d} {op : WalkOp} {s : WalkState}

theorem classify_eq_ok {fullPath : Path} {type : DType} {sb : Option Statx}
    (h : classify fs strerror fullPath d = .ok (type, sb)) :
    (d.dType ≠ .unknown ∧ type = d.dType ∧ sb = none) ∨
      d.dType = .unknown ∧ ∃ st k, fs.statx fullPath k = .ok st ∧ type = typeOfMode st.kind ∧ sb = some st := by
  unfold classify at h
  split at h
  · rename_i hu
    split at h
    · rename_i st hst
      obtain ⟨k, hk⟩ := myStatx_eq_ok hst
      injection h with h
      injection h with htype hsb
      exact .inr ⟨hu, st, k, hk, htype.symm, hsb.symm⟩
    · cases h
  · rename_i hu
    injection h with h
    injection h with htype hsb
    exact .inl ⟨hu, htype.symm, hsb.symm⟩

/-- What a job is added with is an answer of `statx`. -/
theorem statx_of_classify {fullPath : Path} {type : DType} {sb : Option Statx} {st : Statx}
    (hc : classify fs strerror fullPath d = .ok (type, sb))
    (h : (match sb with
      | some sb => .ok sb
      | none => myStatx strerror fullPath (fs.statx fullPath)) = Except.ok st) :
    ∃ k, fs.statx fullPath k = .ok st := by
  rcases classify_eq_ok hc with ⟨-, -, rfl⟩ | ⟨-, st', k, hk, -, rfl⟩
  · exact myStatx_eq_ok h
  · rw [Except.ok.inj h] at hk
    exact ⟨k, hk⟩

theorem mem_ops_record {op' : WalkOp} (h : op ∈ (record op' s).ops) : op ∈ s.ops ∨ op = op' := by
  simpa [record] using h

theorem does_of_copyLink (ht : TakenFor fs strerror current d .lnk)
    (h : op ∈ (copyLink fs strerror (current ++ d.dName)
      (destPath fromDir dest (current ++ d.dName)) s).ops) :
    op ∈ s.ops ∨ Does fs strerror fromDir dest current d op := by
  unfold copyLink at h
  split at h
  · rcases mem_ops_record h with h | rfl
    · exact .inl h
    · exact .inr rfl
  · dsimp only at h
    split at h
    · rcases mem_ops_record h with h | rfl
      · exact .inl h
      · exact .inr ⟨rfl, ht⟩
    · rcases mem_ops_record h with h | rfl
      · rcases mem_ops_record h with h | rfl
        · exact .inl h
        · exact .inr ⟨rfl, ht⟩
      · exact .inr rfl

theorem does_of_walkEntry (h : op ∈ (walkEntry fs strerror fromDir dest current d s).ops) :
    op ∈ s.ops ∨ Does fs strerror fromDir dest current d op := by
  unfold walkEntry at h
  dsimp only at h
  split at h
  · rcases mem_ops_record h with h | rfl
    · exact .inl h
    · exact .inr rfl
  · rename_i type sb hc
    have ht : TakenFor fs strerror current d type := ⟨sb, hc⟩
    unfold dispatch at h
    split at h
    · split at h
      · rename_i hn
        have hop : op ∈ (record (.recursiveMkdir (destPath fromDir dest (current ++ d.dName))) s).ops := by
          dsimp only at h
          split at h <;> exact h
        rcases mem_ops_record hop with h | rfl
        · exact .inl h
        · exact .inr ⟨rfl, by simpa using hn, ht⟩
      · exact .inl h
    · dsimp only at h
      split at h
      · rcases mem_ops_record h with h | rfl
        · exact .inl h
        · exact .inr rfl
      · rename_i sb' hsb
        rcases mem_ops_record h with h | rfl
        · exact .inl h
        · exact .inr ⟨ht, sb', rfl, statx_of_classify hc hsb⟩
    · exact does_of_copyLink ht h
    · rcases mem_ops_record h with h | rfl
      · exact .inl h
      · exact .inr rfl

/-- What an entry can do to the stack. -/
theorem walkEntry_stack (fs : FileSystem) (strerror : Errno → List Char)
    (fromDir dest current : Path) (d : Dirent) (s : WalkState) :
    (walkEntry fs strerror fromDir dest current d s).directoryStack = s.directoryStack ∨
      (walkEntry fs strerror fromDir dest current d s).directoryStack =
        (current ++ d.dName ++ ['/']) :: s.directoryStack ∧ d.dName ∉ [['.'], ['.', '.']] ∧
        TakenFor fs strerror current d .dir := by
  unfold walkEntry
  dsimp only
  split
  · exact .inl rfl
  · rename_i type sb hc
    unfold dispatch
    split
    · split
      · rename_i hn
        dsimp only
        split
        · exact .inr ⟨rfl, by simpa using hn, sb, hc⟩
        · exact .inl rfl
      · exact .inl rfl
    · dsimp only
      split <;> exact .inl rfl
    · unfold copyLink
      split
      · exact .inl rfl
      · dsimp only
        split <;> exact .inl rfl
    · exact .inl rfl

/-- What an entry can do to the program point. -/
theorem walkEntry_pc (fs : FileSystem) (strerror : Errno → List Char)
    (fromDir dest current : Path) (d : Dirent) (s : WalkState) :
    (walkEntry fs strerror fromDir dest current d s).pc = s.pc ∨
      (walkEntry fs strerror fromDir dest current d s).pc = .aborted := by
  unfold walkEntry
  dsimp only
  split
  · exact .inl rfl
  · unfold dispatch
    split
    · split
      · dsimp only
        split
        · exact .inl rfl
        · exact .inr rfl
      · exact .inl rfl
    · dsimp only
      split <;> exact .inl rfl
    · unfold copyLink
      split
      · exact .inl rfl
      · dsimp only
        split <;> exact .inl rfl
    · exact .inl rfl

end Entry

/-! ## The whole walk -/

section Rule

/-- A record that `myGetDents` has returned for a directory. -/
def Listed (fs : FileSystem) (current : Path) (d : Dirent) : Prop :=
  ∃ strerror k ds, myGetDents strerror current (fs.getdents current k) = .ok ds ∧ d ∈ ds

theorem Listed.reported {fs : FileSystem} {current : Path} {d : Dirent} (h : Listed fs current d) :
    ∃ k i ds, fs.getdents current k i = .ok ds ∧ d ∈ ds := by
  obtain ⟨strerror, k, ds, hds, hd⟩ := h
  obtain ⟨i, hi⟩ := myGetDents_eq_ok hds
  exact ⟨k, i, ds, hi, hd⟩

/-- The directory at hand has the property `Dir`, and the entries at hand were reported for it. -/
def AtHand (fs : FileSystem) (Dir : Path → Prop) : WalkPc → Prop
  | .reading current _ _ => Dir current
  | .entries current _ _ left => Dir current ∧ ∀ d ∈ left, Listed fs current d
  | .next => True
  | .done => True
  | .aborted => True

/-- Every directory that was found has the property `Dir`, everything that was done `Op`. -/
structure Found (fs : FileSystem) (Dir : Path → Prop) (Op : WalkOp → Prop) (s : WalkState) : Prop where
  stack : ∀ path ∈ s.directoryStack, Dir path
  atHand : AtHand fs Dir s.pc
  ops : ∀ op ∈ s.ops, Op op

/-- The properties carry over from a directory to its entries. -/
structure Carries (fs : FileSystem) (strerror : Errno → List Char) (fromDir dest : Path)
    (Dir : Path → Prop) (Op : WalkOp → Prop) : Prop where
  sub : ∀ current d, Dir current → Listed fs current d → d.dName ∉ [['.'], ['.', '.']] →
    TakenFor fs strerror current d .dir → Dir (current ++ d.dName ++ ['/'])
  entry : ∀ current d op, Dir current → Listed fs current d →
    Does fs strerror fromDir dest current d op → Op op
  error : ∀ current e, Dir current → Op (.onError current e)

variable {fs : FileSystem} {strerror : Errno → List Char} {fromDir dest : Path} {Dir : Path → Prop}
  {Op : WalkOp → Prop}

theorem atHand_afterBatch {current : Path} (h : Dir current) (calls written : ℕ) :
    AtHand fs Dir (afterBatch current calls written) := by
  unfold afterBatch
  split
  · exact h
  · trivial

theorem Found.record {s : WalkState} (h : Found fs Dir Op s) {op : WalkOp} (hop : Op op) :
    Found fs Dir Op (record op s) where
  stack := h.stack
  atHand := h.atHand
  ops := by
    intro op' hmem
    rcases mem_ops_record hmem with hmem | rfl
    · exact h.ops op' hmem
    · exact hop

theorem found_walkEntry {current : Path} {d : Dirent} {s : WalkState}
    (hc : Carries fs strerror fromDir dest Dir Op) (h : Found fs Dir Op s) (hdir : Dir current)
    (hd : Listed fs current d) : Found fs Dir Op (walkEntry fs strerror fromDir dest current d s) := by
  constructor
  · rcases walkEntry_stack fs strerror fromDir dest current d s with heq | ⟨heq, hn, ht⟩
    · rw [heq]
      exact h.stack
    · rw [heq]
      intro path hp
      rcases mem_cons.mp hp with rfl | hp
      · exact hc.sub current d hdir hd hn ht
      · exact h.stack path hp
  · rcases walkEntry_pc fs strerror fromDir dest current d s with heq | heq
    · rw [heq]
      exact h.atHand
    · rw [heq]
      trivial
  · intro op hmem
    rcases does_of_walkEntry hmem with hmem | hdoes
    · exact h.ops op hmem
    · exact hc.entry current d op hdir hd hdoes

theorem found_step {s : WalkState} (hc : Carries fs strerror fromDir dest Dir Op)
    (h : Found fs Dir Op s) : Found fs Dir Op (step fs strerror fromDir dest s) := by
  obtain ⟨ops, stack, pc⟩ := s
  have hat := h.atHand
  cases pc with
  | next =>
    cases stack with
    | nil => exact ⟨h.stack, trivial, h.ops⟩
    | cons current rest =>
      have hcur : Dir current := h.stack current mem_cons_self
      have hrest : Found fs Dir Op ⟨ops, rest, .next⟩ :=
        ⟨fun path hp => h.stack path (mem_cons_of_mem _ hp), trivial, h.ops⟩
      simp only [step]
      split
      · exact hrest.record (hc.error current _ hcur)
      · exact ⟨hrest.stack, hcur, h.ops⟩
  | reading current calls written =>
    simp only [step]
    split
    · refine Found.record ?_ (hc.error current _ hat)
      exact ⟨h.stack, atHand_afterBatch hat _ _, h.ops⟩
    · rename_i entries he
      exact ⟨h.stack, ⟨hat, fun d hd => ⟨strerror, calls, entries, he, hd⟩⟩, h.ops⟩
  | entries current calls written left =>
    cases left with
    | nil => exact ⟨h.stack, atHand_afterBatch hat.1 _ _, h.ops⟩
    | cons d left =>
      have hleft : AtHand fs Dir (.entries current calls written left) :=
        ⟨hat.1, fun d' hd' => hat.2 d' (mem_cons_of_mem _ hd')⟩
      exact found_walkEntry hc ⟨h.stack, hleft, h.ops⟩ hat.1 (hat.2 d mem_cons_self)
  | done => exact h
  | aborted => exact h

/-- A property of directories and a property of operations that carry over to entries hold in every
state of the walk. -/
theorem walk_rule (hc : Carries fs strerror (withSlash fromDir) (withSlash dest) Dir Op)
    (hdir : Dir (withSlash fromDir)) (hop : Op (.recursiveMkdir (withSlash dest))) (n : ℕ) :
    Found fs Dir Op (addRecursiveCopy fs strerror fromDir dest n) := by
  rw [addRecursiveCopy]
  induction n with
  | zero =>
    refine ⟨?_, ?_, ?_⟩
    · intro path hp
      rwa [mem_singleton.mp hp]
    · show AtHand fs Dir (start fs _ _).pc
      rw [start]
      split <;> trivial
    · intro op hmem
      rwa [mem_singleton.mp hmem]
  | succ n ih =>
    rw [Function.iterate_succ_apply']
    exact found_step hc ih

end Rule

end Walk

end Wcp
