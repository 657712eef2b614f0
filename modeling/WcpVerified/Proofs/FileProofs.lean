import WcpVerified.Proofs.OwnershipProofs

/-!
# Proofs: the objects the runners of a job share

The descriptors of a job and its counter `*chunksRemaining` exist as long as one of its runners
does, or is still to be constructed, and the counter counts these.
-/

namespace Wcp

open List

/-! ## The parts of a job -/

theorem chunkCount_zero (c : ℕ) : chunkCount 0 c = 0 := by simp [chunkCount]

/-- One chunk less remains after each chunk. -/
theorem chunkCount_succ {n c : ℕ} (hc : 0 < c) (hn : 0 < n) :
    chunkCount n c = chunkCount (n - min c n) c + 1 := by
  unfold chunkCount
  rcases lt_or_ge n c with h | h
  · rw [min_eq_right h.le, Nat.sub_self, Nat.mod_eq_of_lt h, Nat.div_eq_of_lt h]
    simp [hn.ne']
  · have hdiv : n / c = (n - c) / c + 1 := Nat.div_eq_sub_div hc h
    rw [min_eq_left h, Nat.mod_eq_sub_mod h, hdiv]
    split <;> rfl

/-- The faults that no run meets: the assertions about `jobsRunning`, the accesses to destroyed
objects, and the use of a runner or a buffer that is not there. -/
def Fault.excluded : Fault → Bool
  | .dtorJobsRunning | .submitJobsRunning | .useAfterFree | .startEmpty | .bufferNull => true
  | _ => false

namespace CopyQueue

variable {cfg : Config}

/-- How many parts of a job are still to be added from `offset` on. -/
def partsFrom (cfg : Config) (job : Job) (offset : ℕ) : ℕ :=
  if job.stxSize = 0 then 1
  else chunkCount (job.stxSize - offset) (chunkSize cfg.heap job.stxBlksize)

/-- A part that `addCopyJob` adds. -/
structure IsPart (cfg : Config) (job : Job) (p : Part) : Prop where
  eq : p = partAt cfg.heap job p.offset
  lt : job.stxSize ≠ 0 → p.offset < job.stxSize ∧ 0 < chunkSize cfg.heap job.stxBlksize
  dvd : chunkSize cfg.heap job.stxBlksize ∣ p.offset

variable {job : Job} {p : Part}

theorem isPart_zero (h : job.stxSize = 0 ∨ 0 < chunkSize cfg.heap job.stxBlksize) :
    IsPart cfg job (partAt cfg.heap job 0) := by
  unfold partAt
  split
  · exact ⟨by simp [partAt, *], fun hc => absurd ‹_› hc, dvd_zero _⟩
  · exact ⟨by simp [partAt, *], fun hc => ⟨Nat.pos_of_ne_zero hc, h.resolve_left hc⟩, dvd_zero _⟩

theorem IsPart.size_eq (h : IsPart cfg job p) (hs : job.stxSize ≠ 0) :
    p.size = min (chunkSize cfg.heap job.stxBlksize) (job.stxSize - p.offset) := by
  have := congrArg Part.size h.eq
  rwa [partAt, if_neg hs] at this

/-- Only the part of an empty file is empty, and it is the only one. -/
theorem IsPart.of_empty (h : IsPart cfg job p) (hs : job.stxSize = 0) : p = ⟨0, 0, 0⟩ := by
  have := h.eq
  rwa [partAt, if_pos hs] at this

theorem IsPart.end_le (h : IsPart cfg job p) : p.offset + p.size ≤ job.stxSize := by
  by_cases hs : job.stxSize = 0
  · rw [h.of_empty hs]; exact Nat.zero_le _
  · have := h.size_eq hs
    have := h.lt hs
    omega

theorem IsPart.nonempty (h : IsPart cfg job p) (hne : p.offset + p.size ≠ job.stxSize) :
    job.stxSize ≠ 0 := by
  intro hs
  rw [h.of_empty hs, hs] at hne
  exact hne rfl

theorem partAt_offset (hs : job.stxSize ≠ 0) (offset : ℕ) :
    (partAt cfg.heap job offset).offset = offset := by
  rw [partAt, if_neg hs]

theorem IsPart.next (h : IsPart cfg job p) (hne : p.offset + p.size ≠ job.stxSize) :
    IsPart cfg job (partAt cfg.heap job (p.offset + p.size)) := by
  have hs := h.nonempty hne
  have hle := h.end_le
  have hsize := h.size_eq hs
  refine ⟨by rw [partAt_offset hs], fun _ => ⟨?_, (h.lt hs).2⟩, ?_⟩
  · rw [partAt_offset hs]
    omega
  · -- only the last part is shorter than the others
    have hfull : p.size = chunkSize cfg.heap job.stxBlksize := by omega
    rw [partAt_offset hs, hfull]
    exact Nat.dvd_add h.dvd (Nat.dvd_refl _)

theorem partsFrom_part (h : IsPart cfg job p) :
    partsFrom cfg job p.offset =
      (if p.offset + p.size = job.stxSize then 0 else partsFrom cfg job (p.offset + p.size)) + 1 := by
  unfold partsFrom
  by_cases hs : job.stxSize = 0
  · rw [h.of_empty hs]; simp [hs]
  · obtain ⟨hlt, hc⟩ := h.lt hs
    have hsize := h.size_eq hs
    rw [if_neg hs, if_neg hs, chunkCount_succ hc (by omega), ← hsize, Nat.sub_sub]
    split
    · rename_i he
      rw [he, Nat.sub_self, chunkCount_zero]
    · rfl

theorem partsFrom_zero : partsFrom cfg job 0 = partCount cfg job := by
  unfold partsFrom partCount
  rw [Nat.sub_zero]

theorem partsFrom_pos (h : IsPart cfg job p) : 0 < partsFrom cfg job p.offset := by
  rw [partsFrom_part h]
  omega

/-! ## The invariant -/

/-- The job the main thread is adding: its objects, and the next part once the descriptors are
constructed. -/
def building : MainPc → Option (ℕ × Job × Option Part)
  | .ctor f job _ _ => some (f, job, none)
  | .part f job p _ => some (f, job, some p)
  | _ => none

/-- The parts of job `i` that are still to be added. -/
def pendingParts (cfg : Config) (b : Option (ℕ × Job × Option Part)) (i : ℕ) : ℕ :=
  match b with
  | some (f, job, some p) => if f = i then partsFrom cfg job p.offset else 0
  | _ => 0

theorem pendingParts_none (i : ℕ) : pendingParts cfg none i = 0 := rfl

theorem pendingParts_part (f : ℕ) (job : Job) (p : Part) (i : ℕ) :
    pendingParts cfg (some (f, job, some p)) i = if f = i then partsFrom cfg job p.offset else 0 :=
  rfl

/-- The number of runners of job `i`. -/
def runnersOf (runners : Store CopyRunner) (i : ℕ) : ℕ :=
  runners.sum fun _ x => if x.file = i then 1 else 0

/-- The objects of the jobs exist as long as they are used. -/
structure Shared (cfg : Config) (runners : Store CopyRunner) (files : Store JobFiles)
    (b : Option (ℕ × Job × Option Part)) : Prop where
  live : ∀ r x, runners.get? r = some x → ∃ f, files.get? x.file = some f
  chunks : ∀ i f, files.get? i = some f → f.chunksRemaining = runnersOf runners i + pendingParts cfg b i
  pos : ∀ i f, files.get? i = some f → 0 < f.chunksRemaining ∨ ∃ job, b = some (i, job, none)
  ctor : ∀ i job, b = some (i, job, none) →
    ∃ f, files.get? i = some f ∧ f.job = job ∧ f.chunksRemaining = 0
  part : ∀ i job p, b = some (i, job, some p) → IsPart cfg job p ∧
    ∃ f, files.get? i = some f ∧ f.job = job

variable {runners runners' : Store CopyRunner} {files files' : Store JobFiles}
  {b b' : Option (ℕ × Job × Option Part)}

theorem runnersOf_pos {r : ℕ} {x : CopyRunner} (h : runners.get? r = some x) :
    0 < runnersOf runners x.file := by
  have hle := Store.le_sum (f := fun _ y => if y.file = x.file then 1 else 0) h
  rwa [if_pos rfl] at hle

theorem runnersOf_modify {r : ℕ} {g : CopyRunner → CopyRunner} (hg : ∀ x, (g x).file = x.file)
    (i : ℕ) : runnersOf (runners.modify r g) i = runnersOf runners i :=
  Store.sum_modify_eq fun x _ => by rw [hg x]

namespace Shared

/-- Changes of the runners that keep their jobs. -/
theorem modifyRunner (h : Shared cfg runners files b) {r : ℕ} {g : CopyRunner → CopyRunner}
    (hg : ∀ x, (g x).file = x.file) : Shared cfg (runners.modify r g) files b where
  live j y hy := by
    rw [Store.get?_modify] at hy
    split at hy
    · obtain ⟨x, hx, rfl⟩ := Option.map_eq_some_iff.mp hy
      rw [hg x]
      exact h.live _ _ hx
    · exact h.live j y hy
  chunks i f hf := by rw [runnersOf_modify hg]; exact h.chunks i f hf
  pos := h.pos
  ctor := h.ctor
  part := h.part

/-- Changes of the descriptors. -/
theorem modifyFile (h : Shared cfg runners files b) {i : ℕ} {g : JobFiles → JobFiles}
    (hg : ∀ f, (g f).chunksRemaining = f.chunksRemaining) (hj : ∀ f, (g f).job = f.job) :
    Shared cfg runners (files.modify i g) b := by
  have hback : ∀ j f', (files.modify i g).get? j = some f' →
      ∃ f, files.get? j = some f ∧ f'.chunksRemaining = f.chunksRemaining := by
    intro j f' hf'
    rw [Store.get?_modify] at hf'
    split at hf'
    · subst j
      obtain ⟨f, hf, rfl⟩ := Option.map_eq_some_iff.mp hf'
      exact ⟨f, hf, hg f⟩
    · exact ⟨f', hf', rfl⟩
  have hforth : ∀ j f, files.get? j = some f → ∃ f', (files.modify i g).get? j = some f' ∧
      f'.job = f.job ∧ f'.chunksRemaining = f.chunksRemaining := by
    intro j f hf
    by_cases hji : j = i
    · subst hji; exact ⟨_, Store.get?_modify_self hf, hj f, hg f⟩
    · exact ⟨f, by rw [Store.get?_modify_of_ne hji, hf], rfl, rfl⟩
  refine ⟨fun r x hx => ?_, fun j f' hf' => ?_, fun j f' hf' => ?_, fun j job hb => ?_,
    fun j job p hb => ?_⟩
  · obtain ⟨f, hf⟩ := h.live r x hx
    obtain ⟨f', hf', -⟩ := hforth _ f hf
    exact ⟨f', hf'⟩
  · obtain ⟨f, hf, hc⟩ := hback j f' hf'
    rw [hc]
    exact h.chunks j f hf
  · obtain ⟨f, hf, hc⟩ := hback j f' hf'
    rw [hc]
    exact h.pos j f hf
  · obtain ⟨f, hf, hjob, hc⟩ := h.ctor j job hb
    obtain ⟨f', hf', hj', hc'⟩ := hforth j f hf
    exact ⟨f', hf', hj'.trans hjob, hc'.trans hc⟩
  · obtain ⟨hp, f, hf, hjob⟩ := h.part j job p hb
    obtain ⟨f', hf', hj', -⟩ := hforth j f hf
    exact ⟨hp, f', hf', hj'.trans hjob⟩

/-- `addCopyJob` creates the objects of a job. -/
theorem beginJob (h : Shared cfg runners files none) (job : Job) :
    Shared cfg runners (files.push (.create job)) (some (files.next, job, none)) := by
  have hnew : runnersOf runners files.next = 0 := Store.sum_eq_zero fun r x hx => by
    obtain ⟨f, hf⟩ := h.live r x hx
    have := Store.lt_next hf
    rw [if_neg (by omega)]
  refine ⟨fun r x hx => ?_, fun i f hf => ?_, fun i f hf => ?_, fun i job' hb => ?_, nofun⟩
  · obtain ⟨f, hf⟩ := h.live r x hx
    exact ⟨f, Store.get?_push_of_some hf⟩
  · rw [Store.get?_push] at hf
    split at hf
    · cases hf
      subst i
      rw [hnew]
      rfl
    · exact h.chunks i f hf
  · rw [Store.get?_push] at hf
    split at hf
    · subst i; exact .inr ⟨job, rfl⟩
    · refine .inl ((h.pos i f hf).resolve_right ?_)
      rintro ⟨_, hc⟩
      cases hc
  · cases hb
    exact ⟨_, Store.get?_push_self, rfl, rfl⟩

/-- `addCopyJob` has counted the parts. -/
theorem beginParts {i : ℕ} (h : Shared cfg runners files (some (i, job, none)))
    (hc : job.stxSize = 0 ∨ 0 < chunkSize cfg.heap job.stxBlksize) :
    Shared cfg runners
      (files.modify i fun y => { y with chunksRemaining := partCount cfg job })
      (some (i, job, some (partAt cfg.heap job 0))) := by
  obtain ⟨f, hf, hjob, hz⟩ := h.ctor i job rfl
  have hnone : runnersOf runners i = 0 := by
    have := h.chunks i f hf
    omega
  have hpart := isPart_zero hc
  have hoff : (partAt cfg.heap job 0).offset = 0 := by unfold partAt; split <;> rfl
  have hcount : partsFrom cfg job (partAt cfg.heap job 0).offset = partCount cfg job := by
    rw [hoff, partsFrom_zero]
  refine ⟨fun r x hx => ?_, fun j f' hf' => ?_, fun j f' hf' => .inl ?_, nofun, ?_⟩
  · obtain ⟨f', hf'⟩ := h.live r x hx
    rw [Store.get?_modify]
    split
    · exact ⟨_, by rw [hf]; rfl⟩
    · exact ⟨f', hf'⟩
  · rw [Store.get?_modify] at hf'
    split at hf'
    · subst j
      rw [hf] at hf'
      cases hf'
      simp only [pendingParts, if_true, hnone, hcount]
      omega
    · rename_i hji
      have := h.chunks j f' hf'
      simp only [pendingParts] at this ⊢
      rw [if_neg (Ne.symm hji)]
      exact this
  · rw [Store.get?_modify] at hf'
    split at hf'
    · rw [hf] at hf'
      cases hf'
      dsimp only
      rw [← hcount]
      exact partsFrom_pos hpart
    · rename_i hji
      refine (h.pos j f' hf').resolve_right ?_
      rintro ⟨_, he⟩
      cases he
      exact hji rfl
  · intro j job' p hb
    cases hb
    exact ⟨hpart, _, Store.get?_modify_self hf, hjob⟩

/-- `addCopyJobPart` constructs the runner of a part. -/
theorem push {i : ℕ} (h : Shared cfg runners files (some (i, job, some p))) {x : CopyRunner}
    (hx : x.file = i) : Shared cfg (runners.push x) files
      (if p.offset + p.size = job.stxSize then none
        else some (i, job, some (partAt cfg.heap job (p.offset + p.size)))) := by
  obtain ⟨hpart, f, hf, hjob⟩ := h.part i job p rfl
  have hparts := partsFrom_part hpart
  refine ⟨fun r y hy => ?_, fun j f' hf' => ?_, fun j f' hf' => .inl ?_, fun j job' hb => ?_,
    fun j job' q hb => ?_⟩
  · rw [Store.get?_push] at hy
    split at hy
    · cases hy
      exact ⟨f, hx ▸ hf⟩
    · exact h.live r y hy
  · have hsum : runnersOf (runners.push x) j = runnersOf runners j + if i = j then 1 else 0 := by
      unfold runnersOf
      rw [Store.sum_push, hx]
    have hold := h.chunks j f' hf'
    rw [pendingParts_part, hparts] at hold
    rw [hsum, hold]
    by_cases hend : p.offset + p.size = job.stxSize
    · rw [if_pos hend, if_pos hend, pendingParts_none]
      split <;> omega
    · rw [if_neg hend, if_neg hend, pendingParts_part, partAt_offset (hpart.nonempty hend)]
      split <;> omega
  · refine (h.pos j f' hf').resolve_right ?_
    rintro ⟨_, hc⟩
    cases hc
  · split at hb <;> cases hb
  · split at hb
    · cases hb
    · rename_i hne
      cases hb
      exact ⟨hpart.next hne, f, hf, hjob⟩

/-- A runner that is not the last of its job is destroyed. -/
theorem deleteShared (h : Shared cfg runners files b) {r : ℕ} {x : CopyRunner} {f : JobFiles}
    (hr : runners.get? r = some x) (hf : files.get? x.file = some f)
    (h1 : f.chunksRemaining ≠ 1) :
    Shared cfg (runners.erase r)
      (files.modify x.file fun y => { y with chunksRemaining := y.chunksRemaining - 1 }) b := by
  have hpos := runnersOf_pos hr
  have hchunks := h.chunks x.file f hf
  have hsum : ∀ j, runnersOf (runners.erase r) j + (if x.file = j then 1 else 0) =
      runnersOf runners j := fun j => Store.sum_erase hr
  refine ⟨fun j y hy => ?_, fun j f' hf' => ?_, fun j f' hf' => ?_, fun j job hb => ?_,
    fun j job p hb => ?_⟩
  · rw [Store.get?_erase] at hy
    split at hy
    · cases hy
    · obtain ⟨f', hf'⟩ := h.live j y hy
      rw [Store.get?_modify]
      split
      · exact ⟨_, by rw [hf]; rfl⟩
      · exact ⟨f', hf'⟩
  · rw [Store.get?_modify] at hf'
    have hj := hsum j
    split at hf'
    · subst j
      rw [hf] at hf'
      cases hf'
      rw [if_pos rfl] at hj
      dsimp only
      omega
    · rename_i hne
      rw [if_neg (Ne.symm hne)] at hj
      have := h.chunks j f' hf'
      omega
  · rw [Store.get?_modify] at hf'
    split at hf'
    · rw [hf] at hf'
      cases hf'
      left
      dsimp only
      omega
    · exact h.pos j f' hf'
  · obtain ⟨f', hf', hjob, hz⟩ := h.ctor j job hb
    have hne : j ≠ x.file := by
      rintro rfl
      rw [hf] at hf'
      cases hf'
      omega
    exact ⟨f', by rw [Store.get?_modify_of_ne hne, hf'], hjob, hz⟩
  · obtain ⟨hp, f', hf', hjob⟩ := h.part j job p hb
    refine ⟨hp, ?_⟩
    by_cases hne : j = x.file
    · subst hne
      rw [hf] at hf'
      cases hf'
      exact ⟨_, Store.get?_modify_self hf, hjob⟩
    · exact ⟨f', by rw [Store.get?_modify_of_ne hne, hf'], hjob⟩

/-- The last runner of a job is destroyed, and the objects with it. -/
theorem deleteLast (h : Shared cfg runners files b) {r : ℕ} {x : CopyRunner} {f : JobFiles}
    (hr : runners.get? r = some x) (hf : files.get? x.file = some f)
    (h1 : f.chunksRemaining = 1) :
    Shared cfg (runners.erase r) (files.erase x.file) b := by
  have hpos := runnersOf_pos hr
  have hchunks := h.chunks x.file f hf
  have hsum : ∀ j, runnersOf (runners.erase r) j + (if x.file = j then 1 else 0) =
      runnersOf runners j := fun j => Store.sum_erase hr
  have hget : ∀ j f', (files.erase x.file).get? j = some f' → j ≠ x.file ∧ files.get? j = some f' := by
    intro j f' hf'
    rw [Store.get?_erase] at hf'
    split at hf'
    · cases hf'
    · exact ⟨‹_›, hf'⟩
  refine ⟨fun j y hy => ?_, fun j f' hf' => ?_, fun j f' hf' => h.pos j f' (hget j f' hf').2,
    fun j job hb => ?_, fun j job p hb => ?_⟩
  · rw [Store.get?_erase] at hy
    split at hy
    · cases hy
    · rename_i hjr
      obtain ⟨f', hf'⟩ := h.live j y hy
      -- another runner of the same job would have been counted
      have hne : y.file ≠ x.file := by
        intro he
        have hz : runnersOf (runners.erase r) x.file = 0 := by
          have := hsum x.file
          rw [if_pos rfl] at this
          omega
        have := runnersOf_pos ((Store.get?_erase_of_ne hjr).trans hy)
        rw [he] at this
        omega
      exact ⟨f', by rw [Store.get?_erase_of_ne hne, hf']⟩
  · obtain ⟨hne, hf'⟩ := hget j f' hf'
    have hj := hsum j
    rw [if_neg (Ne.symm hne)] at hj
    have := h.chunks j f' hf'
    omega
  · obtain ⟨f', hf', hjob, hz⟩ := h.ctor j job hb
    have hne : j ≠ x.file := by
      rintro rfl
      rw [hf] at hf'
      cases hf'
      omega
    exact ⟨f', by rw [Store.get?_erase_of_ne hne, hf'], hjob, hz⟩
  · obtain ⟨hp, f', hf', hjob⟩ := h.part j job p hb
    have hne : j ≠ x.file := by
      rintro rfl
      have := partsFrom_pos hp
      have hpend : pendingParts cfg b x.file = partsFrom cfg job p.offset := by
        rw [hb]; exact if_pos rfl
      omega
    exact ⟨hp, f', by rw [Store.get?_erase_of_ne hne, hf'], hjob⟩

end Shared

variable {s s' : State} {l : Label}

/-- The objects of the jobs of a queue exist as long as they are used. -/
def State.SharedFiles (cfg : Config) (s : State) : Prop :=
  Shared cfg s.runners s.files (building s.main)

theorem sharedFiles_initial (storage : Storage) :
    State.SharedFiles cfg (initial cfg storage) where
  live r x hr := by cases hr
  chunks i f hf := by cases hf
  pos i f hf := by cases hf
  ctor := nofun
  part := nofun

theorem modifyFd_chunks (g : QueueFileDescriptor → QueueFileDescriptor) (side : Side) (f : JobFiles) :
    (f.modifyFd g side).chunksRemaining = f.chunksRemaining := by
  cases side <;> rfl

theorem modifyFd_job (g : QueueFileDescriptor → QueueFileDescriptor) (side : Side) (f : JobFiles) :
    (f.modifyFd g side).job = f.job := by
  cases side <;> rfl

theorem sharedFiles_move (hm : Move cfg s l s') (h : State.SharedFiles cfg s) :
    State.SharedFiles cfg s' := by
  unfold State.SharedFiles at h ⊢
  cases hm with
  | addCopyJob hm =>
    rw [hm] at h
    exact h.beginJob _
  | walkError hm => exact h
  | ctorOpened hm | ctorFailed hm =>
    rw [hm] at h
    exact h.modifyFile (modifyFd_chunks _ _) (modifyFd_job _ _)
  | beginParts hm hc =>
    rw [hm] at h
    exact h.beginParts hc
  | @partPush f job p hm =>
    rw [hm] at h
    have := h.push (x := .create f p.offset p.size p.alignment) rfl
    simp only [partStep]
    split <;> rename_i hend
    · rwa [if_pos hend] at this
    · rwa [if_neg hend] at this
  | joinFinish hm hp =>
    have hb : building s.main = none := by
      rcases hm with hm | ⟨hm, -⟩ <;> rw [hm] <;> rfl
    rw [hb] at h
    exact h
  | takeGive | batch => exact h.modifyRunner fun _ => rfl
  | completion => exact h.modifyRunner fun _ => CopyRunner.onCompletionEvent_same.file
  | opened | openFailed | close | notify =>
    exact h.modifyFile (modifyFd_chunks _ _) (modifyFd_job _ _)
  | deleteShared hp hr hf hj h1 => exact h.deleteShared hr hf h1
  | deleteLast hp hr hf hj h1 => exact h.deleteLast hr hf h1
  | _ =>
    first
    | exact h
    | (have hm := ‹s.main = _›
       rw [hm] at h
       exact h)

theorem reachable_sharedFiles {ok : State → Label → Prop} (h : (system cfg).ReachIn ok s) :
    State.SharedFiles cfg s := by
  refine h.invariant ?_ fun s l s' _ hs _ hstep => sharedFiles_move (step_move hstep).2 hs
  rintro s ⟨storage, rfl⟩
  exact sharedFiles_initial storage

/-! ## The chunk of a runner -/

/-- Every runner copies a part of its job. -/
def Chunked (cfg : Config) (s : State) : Prop :=
  ∀ r x f, s.runners.get? r = some x → s.files.get? x.file = some f →
    IsPart cfg f.job ⟨x.offset, x.size, x.alignment⟩

/-- Only the runner of an empty job is empty. -/
theorem IsPart.size_eq_zero_iff (h : IsPart cfg job p) : p.size = 0 ↔ job.stxSize = 0 := by
  constructor
  · intro hz
    by_contra hs
    have hsize := h.size_eq hs
    have hlt := h.lt hs
    omega
  · intro hs
    rw [h.of_empty hs]

/-- The runners keep their chunks and the objects keep their jobs. -/
theorem Chunked.of_same (h : Chunked cfg s)
    (hr : ∀ r x', s'.runners.get? r = some x' →
      ∃ x, s.runners.get? r = some x ∧ x.SamePart x')
    (hf : ∀ i f', s'.files.get? i = some f' → ∃ f, s.files.get? i = some f ∧ f'.job = f.job) :
    Chunked cfg s' := by
  intro r x' f' hx' hf'
  obtain ⟨x, hx, hsame⟩ := hr r x' hx'
  obtain ⟨f, hf, hjob⟩ := hf x'.file f' hf'
  have hpart := h r x f hx (hsame.file ▸ hf)
  rw [hjob, hsame.offset, hsame.size, hsame.alignment]
  exact hpart

section Same

theorem same_refl (r : ℕ) (x' : CopyRunner) (h : s.runners.get? r = some x') :
    ∃ x, s.runners.get? r = some x ∧ x.SamePart x' := ⟨x', h, .refl x'⟩

theorem same_modify {j : ℕ} {g : CopyRunner → CopyRunner}
    (hg : ∀ x : CopyRunner, x.SamePart (g x))
    (r : ℕ) (x' : CopyRunner) (h : (s.runners.modify j g).get? r = some x') :
    ∃ x, s.runners.get? r = some x ∧ x.SamePart x' := by
  obtain ⟨x, hx, ⟨-, rfl⟩ | ⟨-, rfl⟩⟩ := Store.exists_of_get?_modify h
  · exact ⟨x, hx, hg x⟩
  · exact ⟨x', hx, .refl x'⟩

theorem same_erase {j : ℕ} (r : ℕ) (x' : CopyRunner) (h : (s.runners.erase j).get? r = some x') :
    ∃ x, s.runners.get? r = some x ∧ x.SamePart x' :=
  same_refl r x' (Store.of_get?_erase h).2

theorem job_refl (i : ℕ) (f' : JobFiles) (h : s.files.get? i = some f') :
    ∃ f, s.files.get? i = some f ∧ f'.job = f.job := ⟨f', h, rfl⟩

theorem job_modify {j : ℕ} {g : JobFiles → JobFiles} (hg : ∀ f, (g f).job = f.job) (i : ℕ)
    (f' : JobFiles) (h : (s.files.modify j g).get? i = some f') :
    ∃ f, s.files.get? i = some f ∧ f'.job = f.job := by
  obtain ⟨f, hf, ⟨-, rfl⟩ | ⟨-, rfl⟩⟩ := Store.exists_of_get?_modify h
  · exact ⟨f, hf, hg f⟩
  · exact ⟨f', hf, rfl⟩

theorem job_erase {j : ℕ} (i : ℕ) (f' : JobFiles) (h : (s.files.erase j).get? i = some f') :
    ∃ f, s.files.get? i = some f ∧ f'.job = f.job := ⟨f', (Store.of_get?_erase h).2, rfl⟩

end Same

theorem chunked_move (hm : Move cfg s l s') (hsh : State.SharedFiles cfg s) (h : Chunked cfg s) :
    Chunked cfg s' := by
  cases hm with
  | addCopyJob =>
    intro r x f hx hf
    obtain ⟨f', hf'⟩ := hsh.live r x hx
    have hf := (Store.get?_push_of_some hf').symm.trans hf
    cases hf
    exact h r x f hx hf'
  | ctorOpened | ctorFailed | opened | openFailed | close | notify =>
    exact h.of_same same_refl (job_modify (modifyFd_job _ _))
  | beginParts => exact h.of_same same_refl (job_modify fun _ => rfl)
  | @partPush i job p hm =>
    intro r x f hx hf
    rcases Store.of_get?_push hx with ⟨-, rfl⟩ | ⟨-, hx⟩
    · obtain ⟨hpart, f', hf', hjob⟩ := hsh.part i job p (by rw [hm]; rfl)
      have hf : s.files.get? i = some f := hf
      rw [hf] at hf'
      cases hf'
      exact hjob ▸ hpart
    · exact h r x f hx hf
  | takeGive | batch => exact h.of_same (same_modify fun _ => ⟨rfl, rfl, rfl, rfl⟩) job_refl
  | completion =>
    exact h.of_same (same_modify fun _ => CopyRunner.onCompletionEvent_same.toSamePart) job_refl
  | deleteShared => exact h.of_same same_erase (job_modify fun _ => rfl)
  | deleteLast => exact h.of_same same_erase job_erase
  | _ => exact h

theorem reachable_chunked {ok : State → Label → Prop} (h : (system cfg).ReachIn ok s) :
    Chunked cfg s := by
  refine h.invariant ?_ fun s l s' hr hs _ hstep =>
    chunked_move (step_move hstep).2 (reachable_sharedFiles hr) hs
  rintro s ⟨storage, rfl⟩
  exact fun r x f hx => by cases hx

/-! ## Runners are conserved -/

/-- A live runner never dangles. -/
theorem not_dangling {r : ℕ} (h : State.SharedFiles cfg s) (hr : ∃ x, s.runners.get? r = some x) :
    ¬ Dangling s r := by
  obtain ⟨x, hx⟩ := hr
  obtain ⟨f, hf⟩ := h.live r x hx
  rintro (hn | ⟨y, hy, hn⟩)
  · rw [hx] at hn; cases hn
  · rw [hx] at hy
    cases hy
    rw [hf] at hn; cases hn

theorem excluded_abort {fault : Fault} (hring : State.Ring s) (ho : State.Owned s) (hc : Counts s)
    (hf : State.SharedFiles cfg s) (h : AbortReason cfg s fault) : fault.excluded = false := by
  cases h with
  | chunkSizeZero | startNotIdle | submitFailed => rfl
  | dtor hp hr hj =>
    have hh := ho.hand _ (by rw [hp]; rfl) _ hr
    rw [hp] at hh
    exact absurd hh hj
  | submitJobs hp hr hj =>
    have hh := ho.hand _ (by rw [hp]; rfl) _ hr
    rw [hp] at hh
    exact absurd hh.jobs hj
  | giveBuffer hp hs hr hg =>
    have hb := (hc.taking _ hp).2
    unfold giveBufferFault at hg
    split at hg
    · split at hg
      · rename_i hn
        rw [hn] at hb; cases hb
      · split at hg
        · cases hg; rfl
        · split at hg <;> cases hg
          rfl
    · cases hg
  | startEmpty hp hs => exact absurd hs (hc.taking _ hp).1
  | dangling hp hd => exact absurd hd (not_dangling hf (ho.live _ (by simp [hp])))
  | danglingStart hp hs hd => exact absurd hd (not_dangling hf (ho.live _ (by simp [hs])))
  | danglingCqe hp hmem hd =>
    exact absurd hd (not_dangling hf (hring.live _ (mem_append_right _ (mem_map_of_mem hmem))))
  | danglingFile hm hn =>
    have hf := hf.ctor _ _ (by rw [hm]; rfl)
    obtain ⟨f, hf, -⟩ := hf
    rw [hf] at hn; cases hn

/-- No run ends in an excluded fault. -/
theorem reachable_not_excluded {ok : State → Label → Prop} (h : (system cfg).ReachIn ok s)
    (fault : Fault) (hx : fault.excluded = true) : s.halted ≠ some (.abort fault) := by
  refine h.invariant (P := fun s => s.halted ≠ some (.abort fault)) ?_
    fun s l s' hr hs _ hstep => ?_
  · rintro s ⟨storage, rfl⟩
    nofun
  · obtain ⟨hh, hm⟩ := step_move hstep
    cases hm with
    | abort ha =>
      intro he
      cases he
      have := excluded_abort (reachable_ring hr) (reachable_owned hr).1 (reachable_owned hr).2
        (reachable_sharedFiles hr) ha
      rw [hx] at this; cases this
    | submitExit | progressExit => nofun
    | _ =>
      intro he
      have he : s.halted = _ := he
      rw [hh] at he; cases he

/-- The requests outstanding at the top of the outer loop are those counted by the runners. -/
theorem submissionsRunning_eq (h : (system cfg).Reachable s) (hp : s.submit = .top) :
    s.submissionsRunning = s.runners.sum fun _ x => x.jobsRunning := by
  have hring := reachable_ring h
  rw [hring.sum_jobs, hring.submissions, hp]
  rfl

/-- When everything is done, no request is outstanding. -/
theorem tags_nil_of_isDone (h : (system cfg).Reachable s) (hd : isDone s = true) :
    tags s.sq s.chains s.cq = [] := by
  rw [eq_nil_iff_forall_not_mem]
  intro t ht
  obtain ⟨x, hx⟩ := (reachable_ring h).live t ht
  rw [(reachable_owned h).2.none_of_isDone hd] at hx
  cases hx

/-- Runners are conserved. At the top of the outer loop the runners alive are those waiting for their
start, those rescheduled and those with requests outstanding, each in one of these places only, and
the counters count them. No assertion about `jobsRunning` fires in any state and no runner is used
after its destruction, and when `isDone` holds every runner has been destroyed and nothing is
pending, rescheduled or in flight. -/
theorem runners_conserved (h : (system cfg).Reachable s) :
    (s.submit = .top →
      (s.copiesPendingStart ++ s.copiesPendingContinue).Nodup ∧
      (∀ r, (∃ x, s.runners.get? r = some x) ↔ r ∈ s.copiesPendingStart ∨
        r ∈ s.copiesPendingContinue ∨
        ∃ x, s.runners.get? r = some x ∧ (x.jobsRunning = 1 ∨ x.jobsRunning = 2)) ∧
      (∀ r x, s.runners.get? r = some x → (x.jobsRunning = 1 ∨ x.jobsRunning = 2) →
        r ∉ s.copiesPendingStart ∧ r ∉ s.copiesPendingContinue) ∧
      s.keepAliveCount = s.runners.size ∧
      s.copiesPendingStartCount = s.copiesPendingStart.length ∧
      (s.submissionsRunning = s.runners.sum fun _ x => x.jobsRunning) ∧
      ∀ r ∈ s.copiesPendingContinue, ∃ x, s.runners.get? r = some x ∧ x.buffer.isSome = true ∧
        x.savedError = none ∧ x.jobsRunning = 0 ∧ x.writeOffset < x.offset + x.size) ∧
    s.halted ≠ some (.abort .dtorJobsRunning) ∧ s.halted ≠ some (.abort .submitJobsRunning) ∧
    s.halted ≠ some (.abort .useAfterFree) ∧
    (isDone s = true → s.copiesPendingStart = [] ∧ s.copiesPendingContinue = [] ∧
      (∀ r, s.runners.get? r = none) ∧ s.sq = [] ∧ (∀ c ∈ s.chains, c.reqs = []) ∧ s.cq = []) := by
  obtain ⟨ho, hc⟩ := reachable_owned h
  have hring := reachable_ring h
  have hin : ∀ r, (∀ x, s.runners.get? r ≠ some x) →
      r ∉ s.copiesPendingStart ∧ r ∉ s.copiesPendingContinue := fun r hn => by
    constructor <;> intro hr <;> obtain ⟨x, hx⟩ := ho.live r (by simp [hr]) <;> exact hn x hx
  refine ⟨fun hp => ⟨?_, fun r => ⟨?_, ?_⟩, fun r x hx hj => ?_, hc.keepAlive, hc.startCount,
    submissionsRunning_eq h hp, fun r hr => ?_⟩, reachable_not_excluded h _ rfl,
    reachable_not_excluded h _ rfl, reachable_not_excluded h _ rfl, fun hd => ?_⟩
  · exact (nodup_append.mp ho.nodup).1
  · rintro ⟨x, hx⟩
    by_cases hj : x.jobsRunning = 0
    · have := ho.waits r x hx hj
      rw [hp] at this
      simp only [SubmitPc.hand, Option.toList_none, append_nil, mem_append] at this
      exact this.imp_right .inl
    · have := hring.jobs_le hx
      exact .inr (.inr ⟨x, hx, by omega⟩)
  · rintro (hr | hr | ⟨x, hx, -⟩)
    · exact ho.live r (by simp [hr])
    · exact ho.live r (by simp [hr])
    · exact ⟨x, hx⟩
  · refine ⟨fun hr => ?_, fun hr => ?_⟩
    · have := (ho.fresh r hr x hx).jobs
      omega
    · have := (ho.resumable r hr x hx).jobs
      omega
  · obtain ⟨x, hx⟩ := ho.live r (by simp [hr])
    have hres := ho.resumable r hr x hx
    exact ⟨x, hx, hres.buffer, hres.error, hres.jobs, hres.write⟩
  · have hnone := hc.none_of_isDone hd
    have htags := tags_nil_of_isDone h hd
    have hlists := fun r => hin r fun x hx => by rw [hnone r] at hx; cases hx
    simp only [tags, pendingReqs, append_eq_nil_iff, map_eq_nil_iff, flatMap_eq_nil_iff] at htags
    exact ⟨eq_nil_iff_forall_not_mem.mpr fun r => (hlists r).1,
      eq_nil_iff_forall_not_mem.mpr fun r => (hlists r).2, hnone, htags.1.1, htags.1.2, htags.2⟩

/-- The requests of a chunk are submitted, and the loop starts again. -/
def inFlightSteps : List Label :=
  oneChunkSteps ++ [.submit (.rand 0 0), .submit .tick, .submit (.submitted 2),
    .submit (.peeked none), .submit .tick]

theorem runners_conserved_inFlight : ∃ s, (system smallConfig).Reachable s ∧ s.submit = .top ∧
    (∃ x, s.runners.get? 0 = some x ∧ x.jobsRunning = 2) ∧ s.keepAliveCount = s.runners.size ∧
    s.submissionsRunning = s.runners.sum fun _ x => x.jobsRunning := by
  obtain ⟨s, hs, hp⟩ := exists_of_run smallConfig (smallStorage 8) inFlightSteps
    (fun s => decide (s.submit = .top) && (s.runners.get? 0).any (·.jobsRunning == 2))
    (by decide +kernel)
  simp only [Bool.and_eq_true, decide_eq_true_eq, Option.any_eq_true, beq_iff_eq] at hp
  obtain ⟨-, -, -, hkeep, -, hsub, -⟩ := (runners_conserved hs).1 hp.1
  exact ⟨s, hs, hp.1, hp.2, hkeep, hsub⟩

end CopyQueue

end Wcp
