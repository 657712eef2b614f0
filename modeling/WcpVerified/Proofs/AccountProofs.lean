import WcpVerified.Proofs.LeakProofs

/-!
# Proofs: the counter of used descriptors

The counter is never below what is reserved and open. It is above when a reservation was not given
back: `doOpen` does not do so when the file cannot be opened, and nothing does it for a descriptor
that is destroyed open.
-/

namespace Wcp

/-- The main thread holds a reservation and has not opened the file yet. -/
def MainPc.reserving : MainPc → ℕ
  | .ctor _ _ _ .opening => 1
  | _ => 0

/-- The submit thread holds a reservation and has not opened the file yet. -/
def SubmitPc.reserving : SubmitPc → ℕ
  | .ensure _ _ _ (.reserve .opening) => 1
  | _ => 0

namespace CopyQueue

variable {cfg : Config} {s s' : State} {l : Label}

/-- The number of open descriptors. -/
def openFds (files : Store JobFiles) : ℕ := files.sum fun _ f => f.openCount

/-- What the counter should be. -/
def accounted (s : State) : ℕ :=
  RESERVED_FD_COUNT + openFds s.files + s.main.reserving + s.submit.reserving

/-- The open that a step makes: the job, the side, and the answers to it. -/
def opening (s : State) : Label → Option (ℕ × Side × (ℕ → Except Errno Ino))
  | .main (.opened answers) =>
    match s.main with
    | .ctor f _ side .opening => some (f, side, answers)
    | _ => none
  | .submit (.opened answers) =>
    match s.submit with
    | .ensure _ r side (.reserve .opening) =>
      (s.runners.get? r).map fun x => (x.file, side, answers)
    | _ => none
  | _ => none

/-- If the step opens a file, it succeeds. -/
def OpenSucceeds (cfg : Config) (s : State) (l : Label) : Prop :=
  ∀ i side answers f e, opening s l = some (i, side, answers) → s.files.get? i = some f →
    myOpen cfg.strerror (f.fd side).path (f.fd side).oflag answers ≠ .error e

/-! ## One step -/

/-- The number of descriptors with a property. -/
def countFds (p : QueueFileDescriptor → Bool) (files : Store JobFiles) : ℕ :=
  files.sum fun _ f => (p f.sourceFd).toNat + (p f.destFd).toNat

/-- Changing the descriptor of one side changes the number of those with the property accordingly. -/
theorem countFds_modifyFd {files : Store JobFiles} {i : ℕ} {f : JobFiles}
    (p : QueueFileDescriptor → Bool) (side : Side) (g : QueueFileDescriptor → QueueFileDescriptor)
    (hf : files.get? i = some f) :
    countFds p (files.modify i fun y => y.modifyFd g side) + (p (f.fd side)).toNat =
      countFds p files + (p (g (f.fd side))).toNat := by
  have hsum := Store.sum_modify (f := fun _ f => (p (JobFiles.sourceFd f)).toNat + (p f.destFd).toNat)
    (g := fun y => y.modifyFd g side) hf
  unfold countFds
  cases side <;> simp only [JobFiles.modifyFd, JobFiles.fd] at hsum ⊢ <;> omega

/-- Changing the descriptor of one side changes the number of open ones accordingly. -/
theorem openFds_modifyFd {files : Store JobFiles} {i : ℕ} {f : JobFiles} (side : Side)
    (g : QueueFileDescriptor → QueueFileDescriptor) (hf : files.get? i = some f) :
    openFds (files.modify i fun y => y.modifyFd g side) + (f.fd side).isOpen.toNat =
      openFds files + (g (f.fd side)).isOpen.toNat :=
  countFds_modifyFd (·.isOpen) side g hf

theorem openFds_chunks {files : Store JobFiles} {i : ℕ} {k : JobFiles → ℕ} :
    openFds (files.modify i fun y => { y with chunksRemaining := k y }) = openFds files :=
  Store.sum_modify_eq fun _ _ => rfl

theorem openFds_opened {files : Store JobFiles} {i : ℕ} {f : JobFiles} {side : Side} {low : Bool}
    {ino : Ino} (hf : files.get? i = some f) (hd : (f.fd side).fd = .neverOpened) :
    openFds (files.modify i fun y => y.modifyFd (·.openedAs low ino) side) = openFds files + 1 := by
  have := openFds_modifyFd side (·.openedAs low ino) hf
  simpa [QueueFileDescriptor.isOpen, hd, QueueFileDescriptor.openedAs] using this

theorem openFds_same {files : Store JobFiles} {i : ℕ} {f : JobFiles} {side : Side}
    (g : QueueFileDescriptor → QueueFileDescriptor) (hf : files.get? i = some f)
    (hg : ∀ d, (g d).isOpen = d.isOpen) :
    openFds (files.modify i fun y => y.modifyFd g side) = openFds files := by
  have := openFds_modifyFd side g hf
  rw [hg] at this
  omega

theorem reserving_afterClose (caller : CloseCaller) (r : ℕ) (result : Option Error) :
    (afterClose caller r result).reserving = 0 := by
  cases caller <;> cases result <;> rfl

/-- The descriptors of a job are not open when its last runner is about to be destroyed. -/
def DestroyedClosed (s : State) : Prop :=
  ∀ r caller x f, s.submit = .deleting r caller → s.runners.get? r = some x →
    s.files.get? x.file = some f → f.chunksRemaining = 1 → f.openCount = 0

/-- What a step does to the account: nothing is ever booked too little, and nothing too much if no
open fails and no descriptor is destroyed open. -/
structure Booked (exact : Prop) (s s' : State) : Prop where
  le : accounted s ≤ s.fileDescriptorsUsed → accounted s' ≤ s'.fileDescriptorsUsed
  eq : exact → accounted s = s.fileDescriptorsUsed → accounted s' = s'.fileDescriptorsUsed

theorem Booked.of_eq {exact : Prop} (h : accounted s' = accounted s)
    (hu : s'.fileDescriptorsUsed = s.fileDescriptorsUsed) : Booked exact s s' where
  le hle := by rw [h, hu]; exact hle
  eq _ he := by rw [h, hu]; exact he

/-- A reservation is made. -/
theorem Booked.of_succ {exact : Prop} (h : accounted s' = accounted s + 1)
    (hu : s'.fileDescriptorsUsed = s.fileDescriptorsUsed + 1) : Booked exact s s' where
  le hle := by omega
  eq _ he := by omega

/-- A reservation is lost. -/
theorem Booked.of_lost {exact : Prop} (h : accounted s' ≤ accounted s)
    (hu : s'.fileDescriptorsUsed = s.fileDescriptorsUsed) (hno : ¬ exact) : Booked exact s s' where
  le hle := by omega
  eq he := absurd he hno

theorem account_move (hm : Move cfg s l s') (ht : Threads cfg s) (hfds : Fds cfg s)
    (hctor : CtorFds s) (hd : Descs s) :
    Booked (OpenSucceeds cfg s l ∧ DestroyedClosed s) s s' := by
  cases hm with
  | start hm hs =>
    refine .of_eq ?_ rfl
    have : s.submit.reserving = 0 := by
      have ha := ht.idle hs
      cases hp : s.submit <;> rw [hp] at ha <;> first | rfl | cases ha
    unfold accounted
    rw [this]
    rfl
  | @addCopyJob job hm =>
    refine .of_eq ?_ rfl
    have hpush : openFds (s.files.push (.create job)) = openFds s.files := Store.sum_push
    simp only [accounted, beginCopyJob, hpush, hm, MainPc.reserving]
  | ctorReserve hm hlt he =>
    refine .of_succ ?_ (congrArg (· + 1) he.symm)
    simp only [accounted, hm, MainPc.reserving]
    omega
  | ctorOpened hm hf =>
    refine .of_eq ?_ rfl
    simp only [accounted, hm, MainPc.reserving,
      openFds_opened hf ((hctor _ _ _ _ _ hm hf).1 (by intro hc; cases hc))]
    omega
  | ctorFailed hm hf ho =>
    refine .of_lost ?_ rfl fun hc => hc.1 _ _ _ _ _ (by simp [opening, hm]) hf ho
    simp only [accounted, hm, MainPc.reserving]
    rw [openFds_same (·.failedOpen) hf fun _ => rfl]
    omega
  | beginParts hm =>
    refine .of_eq ?_ rfl
    simp only [accounted, hm, MainPc.reserving, openFds_chunks]
  | partPush hm =>
    refine .of_eq ?_ rfl
    simp only [accounted, partStep, hm]
    split <;> rfl
  | joinFinish hm =>
    refine .of_eq ?_ rfl
    rcases hm with hm | ⟨hm, -⟩ <;> simp only [accounted, finishJoin, hm, MainPc.reserving]
  | reserve hp hlt he =>
    refine .of_succ ?_ (congrArg (· + 1) he.symm)
    simp only [accounted, hp, SubmitPc.reserving]
  | opened hp hr hf =>
    refine .of_eq ?_ rfl
    simp only [accounted, hp, SubmitPc.reserving, openFds_opened hf (fd_of_opening hfds hp hr hf)]
    omega
  | openFailed hp hr hf ho =>
    refine .of_lost ?_ rfl fun hc => hc.1 _ _ _ _ _ (by simp [opening, hp, hr]) hf ho
    simp only [accounted, hp, SubmitPc.reserving]
    rw [openFds_same (·.failedOpen) hf fun _ => rfl]
    omega
  | @ensured n r side x f hp =>
    refine .of_eq ?_ rfl
    simp only [accounted, hp, afterEnsure]
    cases side
    · rfl
    · dsimp only
      split <;> rfl
  | ensureFailed hp =>
    refine .of_eq ?_ rfl
    simp only [accounted, hp, afterEnsureFailed]
    split <;> rfl
  | closeNone hp =>
    refine .of_eq ?_ rfl
    simp only [accounted, hp, reserving_afterClose]
    rfl
  | close hp hr hf =>
    refine .of_eq ?_ rfl
    simp only [accounted, hp, SubmitPc.reserving]
    rw [openFds_same (·.closedByKernel) hf fun _ => rfl]
  | @notify caller r side result x f hp hr hf =>
    have hopen := (hd.notify r side x f (by rw [hp]; rfl) hr hf).1
    have hfds := openFds_modifyFd side (·.notifyClosed) hf
    rw [hopen] at hfds
    have hz : (f.fd side).notifyClosed.isOpen = false := rfl
    rw [hz] at hfds
    have hacc : accounted s = accounted { s with
        files := s.files.modify x.file fun y => y.modifyFd (·.notifyClosed) side
        fileDescriptorsUsed := s.fileDescriptorsUsed - 1
        submit := .closing caller r (.next side) result } + 1 := by
      simp only [accounted, hp, SubmitPc.reserving]
      simp only [Bool.toNat_true, Bool.toNat_false] at hfds
      omega
    exact ⟨fun hle => by dsimp only; omega, fun _ he => by dsimp only; omega⟩
  | @closeNext caller r side result hp =>
    refine .of_eq ?_ rfl
    simp only [accounted, hp, closeNext]
    cases side
    · rfl
    · dsimp only
      rw [reserving_afterClose]
      rfl
  | @record e caller hp =>
    refine .of_eq ?_ rfl
    simp only [accounted, hp, recordError]
    cases caller <;> rfl
  | @deleteShared r caller x f hp =>
    refine .of_eq ?_ rfl
    simp only [accounted, hp, openFds_chunks]
    cases caller <;> rfl
  | @deleteLast r caller x f hp hr hf hj h1 =>
    have herase : openFds (s.files.erase x.file) + f.openCount = openFds s.files :=
      Store.sum_erase hf
    have hpc : (afterDelete caller).reserving = 0 := by cases caller <;> rfl
    have hacc : accounted s = RESERVED_FD_COUNT + openFds (s.files.erase x.file) +
        s.main.reserving + (afterDelete caller).reserving + f.openCount := by
      rw [hpc]
      simp only [accounted, hp, SubmitPc.reserving]
      omega
    refine ⟨fun hle => ?_, fun hex he => ?_⟩
    · simp only [accounted] at hacc hle ⊢
      omega
    · have := hex.2 r caller x f hp hr hf h1
      simp only [accounted] at hacc he ⊢
      omega
  | completion hp =>
    refine .of_eq ?_ rfl
    simp only [accounted, hp]
    split <;> rfl
  | @event r x f hp =>
    refine .of_eq ?_ rfl
    simp only [accounted, hp]
    cases x.runnerResult <;> rfl
  | _ =>
    first
    | exact .of_eq rfl rfl
    | (have hp := ‹s.submit = _›
       exact .of_eq (by unfold accounted; rw [hp]; rfl) rfl)
    | (have hm := ‹s.main = _›
       exact .of_eq (by unfold accounted; rw [hm]; rfl) rfl)

theorem accounted_initial (storage : Storage) :
    accounted (initial cfg storage) = (initial cfg storage).fileDescriptorsUsed := by
  have : openFds (initial cfg storage).files = 0 := Store.sum_empty
  unfold accounted
  rw [this]
  rfl

/-- In every run, the counter covers what is reserved and open. -/
theorem reachable_accounted_le {ok : State → Label → Prop} (h : (system cfg).ReachIn ok s) :
    accounted s ≤ s.fileDescriptorsUsed := by
  refine h.invariant ?_ fun s l s' hr hs _ hstep => (account_move (step_move hstep).2
    (reachable_threads hr) (reachable_fds hr) (reachable_ctorFds hr) (reachable_descs hr)).le hs
  rintro s ⟨storage, rfl⟩
  exact (accounted_initial storage).le

/-- The steps that book every descriptor: no open fails, and no runner is overtaken by an error of
the other one of the last two. -/
def KeepsBooks (cfg : Config) (s : State) (l : Label) : Prop :=
  OpenSucceeds cfg s l ∧ NotOvertaken s l

theorem KeepsBooks.closesFiles (h : KeepsBooks cfg s l) : ClosesFiles cfg s l := by
  refine ⟨h.2, fun n r x f answers e hl hp hr hf _ ho => ?_⟩
  subst hl
  exact absurd ho (h.1 x.file .dest answers f e (by simp [opening, hp, hr]) hf)

theorem destroyedClosed_of_unleaked (h : Unleaked s) : DestroyedClosed s := by
  intro r caller x f hp hr hf h1
  have hsrc := h.of_deleting hp hr hf h1 .source
  have hdst := h.of_deleting hp hr hf h1 .dest
  simp only [JobFiles.fd] at hsrc hdst
  simp [JobFiles.openCount, hsrc, hdst]

/-- In the runs that book every descriptor, the counter is exact. -/
theorem reachIn_accounted_eq {ok : State → Label → Prop} (hok : ∀ s l, ok s l → KeepsBooks cfg s l)
    (h : (system cfg).ReachIn ok s) : accounted s = s.fileDescriptorsUsed := by
  refine h.invariant ?_ fun s l s' hr hs hc hstep => (account_move (step_move hstep).2
    (reachable_threads hr) (reachable_fds hr) (reachable_ctorFds hr) (reachable_descs hr)).eq
    ⟨(hok s l hc).1, destroyedClosed_of_unleaked
      (reachIn_unleaked (fun s l hc => (hok s l hc).closesFiles) hr)⟩ hs
  rintro s ⟨storage, rfl⟩
  exact accounted_initial storage

/-- Without runners, and with no job under construction, there are no descriptors. -/
theorem files_none (hsh : State.SharedFiles cfg s) (hr : ∀ r, s.runners.get? r = none)
    (hb : building s.main = none) (i : ℕ) : s.files.get? i = none := by
  cases hf : s.files.get? i with
  | none => rfl
  | some f =>
    have hc := hsh.chunks i f hf
    have hz : runnersOf s.runners i = 0 :=
      Store.sum_eq_zero fun r x hx => by rw [hr r] at hx; cases hx
    rw [hb, hz, pendingParts_none] at hc
    rcases hsh.pos i f hf with hpos | ⟨job, hc⟩
    · omega
    · rw [hb] at hc; cases hc

/-- In the runs in which no open fails and no runner is overtaken by an error of the other one of the
last two, `fileDescriptorsUsed` is exact whenever no thread is between a reservation and its open, or
between `close` and `notifyClosed`; and it is back at `RESERVED_FD_COUNT` when every runner has been
destroyed and no job is being added. -/
theorem accounting_exact (h : (system cfg).ReachIn (KeepsBooks cfg) s) :
    (s.main.reserving = 0 → s.submit.reserving = 0 → s.submit.notifying = none →
      s.fileDescriptorsUsed = RESERVED_FD_COUNT + openFds s.files) ∧
    ((∀ r, s.runners.get? r = none) → building s.main = none →
      s.fileDescriptorsUsed = RESERVED_FD_COUNT) := by
  have hacc := reachIn_accounted_eq (fun _ _ hc => hc) h
  refine ⟨fun hm hp _ => ?_, fun hr hb => ?_⟩
  · rw [accounted, hm, hp] at hacc
    omega
  · have hfiles : openFds s.files = 0 := Store.sum_eq_zero fun i f hf => by
      rw [files_none (reachable_sharedFiles h) hr hb i] at hf
      cases hf
    have hm : s.main.reserving = 0 := by
      cases hmain : s.main with
      | ctor => rw [hmain] at hb; cases hb
      | _ => rfl
    have hp : s.submit.reserving = 0 := by
      unfold SubmitPc.reserving
      split
      · rename_i n r side heq
        obtain ⟨x, hx⟩ := (reachable_owned h).1.live r (by simp [heq, SubmitPc.hand])
        rw [hr r] at hx
        cases hx
      · rfl
    rw [accounted, hm, hp, hfiles] at hacc
    omega

/-- A check that implies `KeepsBooks`. -/
def keepsBooksCheck (cfg : Config) (s : State) (l : Label) : Bool :=
  notOvertakenCheck s && match opening s l with
  | some (i, side, answers) => (s.files.get? i).all fun f =>
    (myOpen cfg.strerror (f.fd side).path (f.fd side).oflag answers).toOption.isSome
  | none => true

theorem keepsBooks_of_check (cfg : Config) (s : State) (l : Label)
    (h : keepsBooksCheck cfg s l = true) : KeepsBooks cfg s l := by
  unfold keepsBooksCheck at h
  obtain ⟨hdel, hopen⟩ := Bool.and_eq_true_iff.mp h
  refine ⟨fun i side answers f e ho hf he => ?_, notOvertaken_of_check hdel⟩
  simp [ho, hf, he, Except.toOption] at hopen

theorem accounting_exact_wholeCopy :
    (∃ s, (system smallConfig).ReachIn (KeepsBooks smallConfig) s ∧ s.submit = .batch 0 0 ∧
      s.fileDescriptorsUsed = RESERVED_FD_COUNT + openFds s.files ∧ s.fileDescriptorsUsed = 4) ∧
    ∃ s, (system smallConfig).ReachIn (KeepsBooks smallConfig) s ∧ s.submit = .checkDone ∧
      s.fileDescriptorsUsed = RESERVED_FD_COUNT := by
  constructor
  · obtain ⟨s, hs, hp⟩ := Transition.System.ReachIn.exists_of_runIn
      (keepsBooks_of_check smallConfig) (initial_init smallConfig (smallStorage 8)) oneChunkSteps
      (fun s => decide (s.submit = .batch 0 0 ∧ s.main = .joinAction .return ∧
        s.fileDescriptorsUsed = 4)) (by decide +kernel)
    obtain ⟨hpc, hm, hused⟩ := of_decide_eq_true hp
    exact ⟨s, hs, hpc, (accounting_exact hs).1 (by rw [hm]; rfl) (by rw [hpc]; rfl)
      (by rw [hpc]; rfl), hused⟩
  · obtain ⟨s, hs, hp⟩ := Transition.System.ReachIn.exists_of_runIn
      (keepsBooks_of_check smallConfig) (initial_init smallConfig (smallStorage 8)) (wholeCopySteps ++ ticks 3)
      (fun s => decide (s.submit = .checkDone ∧ s.main = .joinAction .return ∧
        s.keepAliveCount = 0)) (by decide +kernel)
    obtain ⟨hpc, hm, hk⟩ := of_decide_eq_true hp
    have hnone := Store.size_eq_zero.mp ((reachable_owned hs).2.keepAlive.symm.trans hk)
    exact ⟨s, hs, hpc, (accounting_exact hs).2 hnone (by rw [hm]; rfl)⟩

/-- The source of a job can be opened neither eagerly nor by the submit thread. -/
def unreadableSteps : List Label := List.flatten [
  addJobSteps (smallJob 8) openRefused (opensAs 2), [.start, .join .return], ticks 9,
  [.submit openRefused], ticks 2, [.submit (.closed (.ok ()))], ticks 1,
  [.submit (.closed (.ok ()))], ticks 6]

theorem reservations_lost : ∃ s, (system smallConfig).Reachable s ∧ s.submit = .checkDone ∧
    s.main = .joinAction .return ∧ s.keepAliveCount = 0 ∧ s.fileDescriptorsUsed = 4 ∧
    s.fileDescriptorsUsed ≠ RESERVED_FD_COUNT + openFds s.files := by
  obtain ⟨s, hs, hp⟩ := exists_of_run smallConfig (smallStorage 8) unreadableSteps
    (fun s => decide (s.submit = .checkDone ∧ s.main = .joinAction .return ∧
      s.keepAliveCount = 0 ∧ s.fileDescriptorsUsed = 4 ∧
      s.fileDescriptorsUsed ≠ RESERVED_FD_COUNT + openFds s.files)) (by decide +kernel)
  exact ⟨s, hs, of_decide_eq_true hp⟩

end CopyQueue

end Wcp
