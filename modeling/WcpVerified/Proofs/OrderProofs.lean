import WcpVerified.Proofs.AccountProofs
import WcpVerified.Proofs.ErrorProofs

/-!
# Proofs: which files hold descriptors

The runners in `copiesPendingStart` are in the order of their files. A descriptor that the submit
thread opened (`OpenPriority::High`) belongs to a file that is not behind any of them, and the
constructors have left two descriptors for it: so if the file at the front still needs descriptors
and nothing runs, only eager ones are open.
-/

namespace Wcp

/-- The descriptor is open, and its reservation was a `High` one. -/
def QueueFileDescriptor.high (d : QueueFileDescriptor) : Bool := d.isOpen && !d.low

/-- The descriptor is open, and its reservation was a `Low` one. -/
def QueueFileDescriptor.eager (d : QueueFileDescriptor) : Bool := d.isOpen && d.low

/-- The way of a runner whose files could not be opened. -/
def SubmitPc.failing : SubmitPc → Bool
  | .ensure _ _ _ (.failed _) | .closing (.addFailed _ _) _ _ _ | .deleting _ (.addFailed _ _)
  | .recording _ (.addFailed _) => true
  | _ => false

namespace CopyQueue

variable {cfg : Config} {s s' : State} {l : Label}

/-! ## Runs without failures -/

/-- No open fails, and no read or write completes with a result that its runner takes for a
failure. -/
structure Unfailing (cfg : Config) (s : State) (l : Label) : Prop where
  opens : OpenSucceeds cfg s l
  transfers : ∀ i c x f, l = .submit (.peeked (some i)) → s.cq[i]? = some c →
    s.runners.get? c.runner = some x → s.files.get? x.file = some f →
    savesError x (x.onCompletionEvent cfg.strerror cfg.modes f.sourceFd.path f.destFd.path
      c.event c.res) = false

/-- Nothing has failed so far. -/
structure Smooth (s : State) : Prop where
  errors : ∀ r x, s.runners.get? r = some x → x.savedError = none
  pc : s.submit.failing = false

theorem Smooth.of_modify (h : Smooth s) {r : ℕ} {g : CopyRunner → CopyRunner}
    (hr : s'.runners = s.runners.modify r g)
    (hg : ∀ x, s.runners.get? r = some x → (g x).savedError = none)
    (hp : s'.submit.failing = false) : Smooth s' where
  errors j y hy := by
    rw [hr] at hy
    obtain ⟨x, hx, ⟨rfl, rfl⟩ | ⟨-, rfl⟩⟩ := Store.exists_of_get?_modify hy
    · exact hg x hx
    · exact h.errors j y hx
  pc := hp

theorem failing_afterClose {caller : CloseCaller} {r : ℕ} {stage : CloseStage}
    {result result' : Option Error} (h : (SubmitPc.closing caller r stage result).failing = false) :
    (afterClose caller r result').failing = false := by
  cases caller with
  | addFailed => cases h
  | _ => cases result' <;> rfl

theorem failing_closing {caller : CloseCaller} {r : ℕ} {stage stage' : CloseStage}
    {result result' : Option Error} (h : (SubmitPc.closing caller r stage result).failing = false) :
    (SubmitPc.closing caller r stage' result').failing = false := by
  cases caller with
  | addFailed => cases h
  | _ => rfl

theorem smooth_move (hm : Move cfg s l s') (hok : Unfailing cfg s l) (h : Smooth s) : Smooth s' := by
  have hpc := h.pc
  cases hm with
  | partPush =>
    refine ⟨fun r x hx => ?_, hpc⟩
    rcases Store.of_get?_push hx with ⟨-, rfl⟩ | ⟨-, hx⟩
    · rfl
    · exact h.errors r x hx
  | takeGive hp hs hr => exact h.of_modify rfl (h.errors _) rfl
  | batch hp hr => exact h.of_modify rfl (h.errors _) rfl
  | openFailed hp hr hf ho => exact absurd ho (hok.opens _ _ _ _ _ (by simp [opening, hp, hr]) hf)
  | ensured hp =>
    refine ⟨h.errors, ?_⟩
    simp only [afterEnsure]
    split
    · rfl
    · split <;> rfl
  | ensureFailed hp =>
    rw [hp] at hpc
    cases hpc
  | closeEnter hp | closeNotOpen hp | close hp | notify hp =>
    rw [hp] at hpc
    exact ⟨h.errors, failing_closing hpc⟩
  | closeNone hp =>
    rw [hp] at hpc
    exact ⟨h.errors, failing_afterClose hpc⟩
  | @closeNext caller r side result hp =>
    rw [hp] at hpc
    cases side with
    | source => exact ⟨h.errors, failing_closing hpc⟩
    | dest => exact ⟨h.errors, failing_afterClose hpc⟩
  | @record e caller => exact ⟨h.errors, by cases caller <;> rfl⟩
  | @deleteShared r caller x f hp | @deleteLast r caller x f hp =>
    rw [hp] at hpc
    refine ⟨fun r x hx => h.errors r x (Store.of_get?_erase hx).2, ?_⟩
    cases caller with
    | addFailed => cases hpc
    | _ => rfl
  | @completion i c x y f hp hc hr hf hy =>
    refine h.of_modify rfl (fun x' hx' => ?_) ?_
    · rw [hr] at hx'
      cases hx'
      have hnot := hok.transfers i c x f rfl hc hr hf
      simpa [savesError, h.errors _ _ hr] using hnot
    · dsimp only
      split <;> rfl
  | @event r x => exact ⟨h.errors, by dsimp only; cases x.runnerResult <;> rfl⟩
  | _ =>
    first
    | exact ⟨h.errors, hpc⟩
    | exact ⟨h.errors, rfl⟩

theorem reachIn_smooth {ok : State → Label → Prop} (hok : ∀ s l, ok s l → Unfailing cfg s l)
    (h : (system cfg).ReachIn ok s) : Smooth s := by
  refine h.invariant ?_ fun s l s' _ hs hl hstep => smooth_move (step_move hstep).2 (hok s l hl) hs
  rintro s ⟨storage, rfl⟩
  exact ⟨fun r x hx => (by cases hx), rfl⟩

/-- Without failures the counter of descriptors is exact. -/
theorem reachIn_accounted {ok : State → Label → Prop} (hok : ∀ s l, ok s l → Unfailing cfg s l)
    (h : (system cfg).ReachIn ok s) : accounted s = s.fileDescriptorsUsed := by
  have hsmooth : (system cfg).ReachIn (fun s l => ok s l ∧ Smooth s) s :=
    h.and fun _ hr => reachIn_smooth hok hr
  refine reachIn_accounted_eq (fun s l hl => ⟨(hok s l hl.1).opens, ?_⟩) hsmooth
  intro r caller x f _ _ _ _ _ r' x' hx' _ _
  exact hl.2.errors r' x' hx'

/-! ## Eager descriptors -/

/-- What the constructors of descriptors have left over: with the reserved descriptors and the ones
opened eagerly, two more are within the cap. -/
def Spare (cfg : Config) (s : State) : Prop :=
  RESERVED_FD_COUNT + countFds (·.eager) s.files + s.main.reserving +
    RESERVED_HIGH_PRIORITY_FD_COUNT ≤ cfg.fileDescriptorCap

theorem Spare.of_le (h : Spare cfg s)
    (hf : countFds (·.eager) s'.files ≤ countFds (·.eager) s.files)
    (hm : s'.main.reserving ≤ s.main.reserving) : Spare cfg s' := by
  unfold Spare at h ⊢
  omega

theorem eager_le_open (files : Store JobFiles) : countFds (·.eager) files ≤ openFds files := by
  refine Store.sum_le_sum fun i f _ => ?_
  have hle : ∀ d : QueueFileDescriptor, d.eager.toNat ≤ d.isOpen.toNat := by
    intro d
    unfold QueueFileDescriptor.eager
    cases d.isOpen <;> cases d.low <;> decide
  exact Nat.add_le_add (hle _) (hle _)

theorem countFds_chunks {p : QueueFileDescriptor → Bool} {files : Store JobFiles} {i : ℕ}
    {k : JobFiles → ℕ} :
    countFds p (files.modify i fun y => { y with chunksRemaining := k y }) = countFds p files :=
  Store.sum_modify_eq fun _ _ => rfl

theorem countFds_le {p : QueueFileDescriptor → Bool} {files : Store JobFiles} {i : ℕ} {f : JobFiles}
    {side : Side} {g : QueueFileDescriptor → QueueFileDescriptor} (hf : files.get? i = some f)
    (hg : p (g (f.fd side)) = true → p (f.fd side) = true) :
    countFds p (files.modify i fun y => y.modifyFd g side) ≤ countFds p files := by
  have hsum := countFds_modifyFd p side g hf
  have hle : (p (g (f.fd side))).toNat ≤ (p (f.fd side)).toNat := by
    cases hp : p (g (f.fd side)) with
    | false => exact Nat.zero_le _
    | true => rw [hg hp]
  omega

theorem spare_move (hm : Move cfg s l s') (hctor : CtorFds s)
    (hacc : accounted s ≤ s.fileDescriptorsUsed) (h : Spare cfg s) : Spare cfg s' := by
  cases hm with
  | @addCopyJob job hm =>
    have hpush : countFds (·.eager) (s.files.push (.create job)) = countFds (·.eager) s.files :=
      Store.sum_push
    exact h.of_le hpush.le (by rw [hm]; exact le_rfl)
  | ctorReserve hm hlt he =>
    -- the counter covers the eager descriptors, and is two below the cap
    have hle := eager_le_open s.files
    have hcap := cfg.cap_ge
    unfold accounted at hacc
    unfold Spare
    simp only [minimumFileDescriptorCap, RESERVED_FD_COUNT, RESERVED_HIGH_PRIORITY_FD_COUNT,
      MainPc.reserving] at *
    omega
  | @ctorOpened i job side f ino answers hm hf =>
    have hnever := (hctor _ _ _ _ _ hm hf).1 (by intro hc; cases hc)
    have hsum := countFds_modifyFd (·.eager) side (·.openedAs true ino) hf
    have hbefore : (f.fd side).eager = false := by
      simp [QueueFileDescriptor.eager, QueueFileDescriptor.isOpen, hnever]
    have hafter : ((f.fd side).openedAs true ino).eager = true := rfl
    rw [hbefore, hafter] at hsum
    unfold Spare at h ⊢
    rw [hm] at h
    simp only [MainPc.reserving, Bool.toNat_true, Bool.toNat_false] at h hsum ⊢
    omega
  | ctorFailed hm hf => exact h.of_le (countFds_le hf id) (Nat.zero_le _)
  | beginParts => exact h.of_le countFds_chunks.le (Nat.zero_le _)
  | partPush =>
    refine h.of_le le_rfl ?_
    simp only [partStep]
    split <;> exact Nat.zero_le _
  | @opened n r side x f ino answers hp hr hf =>
    refine h.of_le (countFds_le hf fun he => ?_) le_rfl
    cases he
  | openFailed hp hr hf | close hp hr hf => exact h.of_le (countFds_le hf id) le_rfl
  | notify hp hr hf =>
    refine h.of_le (countFds_le hf fun he => ?_) le_rfl
    cases he
  | deleteShared => exact h.of_le countFds_chunks.le le_rfl
  | deleteLast hp hr hf =>
    refine h.of_le ?_ le_rfl
    have herase := Store.sum_erase (f := fun _ f => (JobFiles.sourceFd f).eager.toNat +
      f.destFd.eager.toNat) hf
    exact Nat.le.intro herase
  | _ =>
    first
    | exact h
    | exact h.of_le le_rfl (Nat.zero_le _)

theorem reachable_spare {ok : State → Label → Prop} (h : (system cfg).ReachIn ok s) :
    Spare cfg s := by
  refine h.invariant ?_ fun s l s' hr hs _ hstep => spare_move (step_move hstep).2
    (reachable_ctorFds hr) (reachable_accounted_le hr) hs
  rintro s ⟨storage, rfl⟩
  have hnone : countFds (·.eager) (initial cfg storage).files = 0 := Store.sum_empty
  unfold Spare
  rw [hnone]
  exact cfg.cap_ge

/-! ## The order of the files -/

/-- File `i` is not behind the file of any runner in `copiesPendingStart`. -/
def Ahead (s : State) (i : ℕ) : Prop :=
  ∀ r ∈ s.copiesPendingStart, ∀ x, s.runners.get? r = some x → i ≤ x.file

/-- The order of the files. The submit thread opens the descriptors of the file it starts with, and
only the runner it starts with has one of them opened and not the other. -/
structure InOrder (s : State) : Prop where
  sorted : s.copiesPendingStart.Pairwise fun r r' => ∀ x x', s.runners.get? r = some x →
    s.runners.get? r' = some x' → x.file ≤ x'.file
  newest : ∀ b, building s.main = some b → b.1 + 1 = s.files.next
  entry : ∀ r x f, s.submit.entry = some r → s.runners.get? r = some x →
    s.files.get? x.file = some f → f.Never → Ahead s x.file
  high : ∀ i f side, s.files.get? i = some f → (f.fd side).high = true → Ahead s i
  half : ∀ i f side, s.files.get? i = some f → (f.fd side).high = true → f.Never →
    ∃ r x, s.submit.entry = some r ∧ s.runners.get? r = some x ∧ x.file = i

/-- The descriptors of `files'` were opened before, as far as the submit thread has opened them. -/
def HighBefore (files files' : Store JobFiles) : Prop :=
  ∀ i f', files'.get? i = some f' → ∃ f : JobFiles, files.get? i = some f ∧ f.Later f' ∧
    ∀ side, (f'.fd side).high = true → (f.fd side).high = true

theorem HighBefore.refl (files : Store JobFiles) : HighBefore files files :=
  fun _ f hf => ⟨f, hf, f.later_refl, fun _ h => h⟩

theorem HighBefore.erase (files : Store JobFiles) (i : ℕ) : HighBefore files (files.erase i) :=
  fun _ f hf => ⟨f, (Store.of_get?_erase hf).2, f.later_refl, fun _ h => h⟩

theorem HighBefore.chunks (files : Store JobFiles) (i : ℕ) (k : JobFiles → ℕ) :
    HighBefore files (files.modify i fun y => { y with chunksRemaining := k y }) := by
  intro j f' hf'
  obtain ⟨f, hf, ⟨-, rfl⟩ | ⟨-, rfl⟩⟩ := Store.exists_of_get?_modify hf'
  · exact ⟨f, hf, fun side h => (by cases side <;> exact h), fun side h => (by cases side <;> exact h)⟩
  · exact ⟨f', hf, f'.later_refl, fun _ h => h⟩

theorem HighBefore.modifyFd {files : Store JobFiles} {i : ℕ} {side : Side}
    {g : QueueFileDescriptor → QueueFileDescriptor}
    (hn : ∀ d, (g d).fd = .neverOpened → d.fd = .neverOpened)
    (hg : ∀ d, (g d).high = true → d.high = true) :
    HighBefore files (files.modify i fun y => y.modifyFd g side) := by
  intro j f' hf'
  obtain ⟨f, hf, -⟩ := Store.exists_of_get?_modify hf'
  refine ⟨f, hf, fun side' h => ?_, fun side' h => ?_⟩
  all_goals
    obtain ⟨f₀, hf₀, ⟨-, -, hfd⟩ | ⟨-, hfd⟩⟩ := fd_of_modifyFd side' hf'
    all_goals
      rw [hf] at hf₀
      cases hf₀
      rw [hfd] at h
  · exact hn _ h
  · exact h
  · exact hg _ h
  · exact h

/-- A step that starts with no runner and opens no descriptor for one. -/
theorem InOrder.of_back (h : InOrder s) (hs : s'.copiesPendingStart = s.copiesPendingStart)
    (hr : ∀ r x', s'.runners.get? r = some x' → ∃ x, s.runners.get? r = some x ∧ x'.file = x.file)
    (hf : HighBefore s.files s'.files)
    (hnew : ∀ b, building s'.main = some b → b.1 + 1 = s'.files.next)
    (he : ∀ r, s'.submit.entry = some r → s.submit.entry = some r)
    (hkeep : ∀ r x, s.submit.entry = some r → s.runners.get? r = some x →
      (s'.submit.entry = some r ∧ ∃ x', s'.runners.get? r = some x' ∧ x'.file = x.file) ∨
      ∀ f', s'.files.get? x.file = some f' → ¬ f'.Never) : InOrder s' := by
  have hahead : ∀ i, Ahead s i → Ahead s' i := by
    intro i hi r hmem x' hx'
    obtain ⟨x, hx, hfile⟩ := hr r x' hx'
    rw [hfile]
    exact hi r (hs ▸ hmem) x hx
  refine ⟨?_, hnew, ?_, ?_, ?_⟩
  · rw [hs]
    refine h.sorted.imp fun {r r'} hle x x' hx hx' => ?_
    obtain ⟨y, hy, hfile⟩ := hr r x hx
    obtain ⟨y', hy', hfile'⟩ := hr r' x' hx'
    rw [hfile, hfile']
    exact hle y y' hy hy'
  · intro r x' f' hent hx' hf' hn
    obtain ⟨x, hx, hfile⟩ := hr r x' hx'
    obtain ⟨f, hfx, hlater, -⟩ := hf _ f' hf'
    rw [hfile] at hfx ⊢
    exact hahead _ (h.entry r x f (he r hent) hx hfx (hlater.never hn))
  · intro i f' side hf' hh
    obtain ⟨f, hfi, -, hhigh⟩ := hf i f' hf'
    exact hahead i (h.high i f side hfi (hhigh side hh))
  · intro i f' side hf' hh hn
    obtain ⟨f, hfi, hlater, hhigh⟩ := hf i f' hf'
    obtain ⟨r, x, hent, hx, rfl⟩ := h.half i f side hfi (hhigh side hh) (hlater.never hn)
    rcases hkeep r x hent hx with ⟨hent', x', hx', hfile⟩ | hnot
    · exact ⟨r, x', hent', hx', hfile⟩
    · exact absurd hn (hnot f' hf')

/-- A step that changes neither the queue nor the runner it starts with. -/
theorem InOrder.of_entry (h : InOrder s) (hs : s'.copiesPendingStart = s.copiesPendingStart)
    (hr : s'.runners = s.runners) (hf : HighBefore s.files s'.files)
    (hnew : ∀ b, building s'.main = some b → b.1 + 1 = s'.files.next)
    (he : s'.submit.entry = s.submit.entry) : InOrder s' := by
  refine h.of_back hs ?_ hf hnew (fun r hent => he ▸ hent) fun r x hent hx => ?_
  · rw [hr]
    exact keep_refl
  · exact .inl ⟨he.trans hent, x, by rw [hr]; exact hx, rfl⟩

/-- A step of the submit thread with no runner at hand that it starts with, before or after. -/
theorem InOrder.of_none (h : InOrder s) (hs : s'.copiesPendingStart = s.copiesPendingStart)
    (hr : ∀ r x', s'.runners.get? r = some x' → ∃ x, s.runners.get? r = some x ∧ x'.file = x.file)
    (hf : HighBefore s.files s'.files)
    (hnew : ∀ b, building s'.main = some b → b.1 + 1 = s'.files.next)
    (he : s.submit.entry = none) (he' : s'.submit.entry = none) : InOrder s' := by
  refine h.of_back hs hr hf hnew (fun r hent => ?_) fun r x hent => ?_
  · rw [he'] at hent
    cases hent
  · rw [he] at hent
    cases hent

/-- The submit thread starts with runner `r`. -/
theorem InOrder.start (h : InOrder s) {r : ℕ} (hsub : s'.copiesPendingStart.Sublist s.copiesPendingStart)
    (hr : ∀ r x', s'.runners.get? r = some x' → ∃ x, s.runners.get? r = some x ∧ x'.file = x.file)
    (hf : s'.files = s.files) (hm : s'.main = s.main) (he : s.submit.entry = none)
    (he' : s'.submit.entry = some r)
    (hentry : ∀ x f, s.runners.get? r = some x → s.files.get? x.file = some f → f.Never →
      ∀ r' ∈ s'.copiesPendingStart, ∀ x', s.runners.get? r' = some x' → x.file ≤ x'.file) :
    InOrder s' := by
  refine ⟨?_, ?_, ?_, ?_, ?_⟩
  · refine (h.sorted.sublist hsub).imp fun {r r'} hle x x' hx hx' => ?_
    obtain ⟨y, hy, hfile⟩ := hr r x hx
    obtain ⟨y', hy', hfile'⟩ := hr r' x' hx'
    rw [hfile, hfile']
    exact hle y y' hy hy'
  · rw [hm, hf]
    exact h.newest
  · intro j x' f hent hx' hfx hn r' hmem y' hy'
    rw [he'] at hent
    cases hent
    obtain ⟨x, hx, hfile⟩ := hr _ x' hx'
    obtain ⟨y, hy, hfile'⟩ := hr r' y' hy'
    rw [hf] at hfx
    rw [hfile] at hfx ⊢
    rw [hfile']
    exact hentry x f hx hfx hn r' hmem y hy
  · intro i f side hfi hh r' hmem y' hy'
    obtain ⟨y, hy, hfile'⟩ := hr r' y' hy'
    rw [hfile']
    exact h.high i f side (hf ▸ hfi) hh r' (hsub.subset hmem) y hy
  · intro i f side hfi hh hn
    obtain ⟨j, x, hent, -⟩ := h.half i f side (hf ▸ hfi) hh hn
    rw [he] at hent
    cases hent

/-! ## Empty files -/

/-- An empty file has one part. -/
def OnePart (s : State) : Prop :=
  ∀ i f, s.files.get? i = some f → f.job.stxSize = 0 → f.chunksRemaining ≤ 1

theorem OnePart.modify (h : OnePart s) {j : ℕ} {g : JobFiles → JobFiles}
    (hg : ∀ f, s.files.get? j = some f → (g f).job = f.job ∧
      (f.job.stxSize = 0 → f.chunksRemaining ≤ 1 → (g f).chunksRemaining ≤ 1)) :
    ∀ i f, (s.files.modify j g).get? i = some f → f.job.stxSize = 0 → f.chunksRemaining ≤ 1 := by
  intro i f' hf' hz
  obtain ⟨f, hf, ⟨rfl, rfl⟩ | ⟨-, rfl⟩⟩ := Store.exists_of_get?_modify hf'
  · rw [(hg f hf).1] at hz
    exact (hg f hf).2 hz (h _ f hf hz)
  · exact h i f' hf hz

theorem onePart_move (hm : Move cfg s l s') (hsh : State.SharedFiles cfg s) (h : OnePart s) :
    OnePart s' := by
  cases hm with
  | addCopyJob =>
    intro i f hf hz
    rcases Store.of_get?_push hf with ⟨-, rfl⟩ | ⟨-, hf⟩
    · exact Nat.zero_le _
    · exact h i f hf hz
  | @beginParts i job hm =>
    refine h.modify fun f hf => ⟨rfl, fun hz _ => ?_⟩
    obtain ⟨f', hf', hjob, -⟩ := hsh.ctor i job (by rw [hm]; rfl)
    rw [hf] at hf'
    cases hf'
    simp only [partCount, ← hjob, hz, if_true, le_refl]
  | ctorOpened | ctorFailed | opened | openFailed | close | notify =>
    exact h.modify fun f _ => ⟨modifyFd_job _ _ f, fun _ hle => by rw [modifyFd_chunks]; exact hle⟩
  | deleteShared =>
    refine h.modify fun f _ => ⟨rfl, fun _ hle => ?_⟩
    show f.chunksRemaining - 1 ≤ 1
    omega
  | deleteLast => exact fun i f hf => h i f (Store.of_get?_erase hf).2
  | _ => exact h

theorem reachable_onePart {ok : State → Label → Prop} (h : (system cfg).ReachIn ok s) :
    OnePart s := by
  refine h.invariant ?_ fun s l s' hr hs _ hstep => onePart_move (step_move hstep).2
    (reachable_sharedFiles hr) hs
  rintro s ⟨storage, rfl⟩ i f hf
  cases hf

/-! ## Every step keeps the order -/

theorem entry_of_not_alive {pc : SubmitPc} (h : pc.alive = false) : pc.entry = none := by
  cases pc <;> first | rfl | cases h

/-- The runner that is deleted after an empty file was the last of its job. -/
theorem chunks_of_emptyFile (hsh : State.SharedFiles cfg s) (hch : Chunked cfg s) (hone : OnePart s)
    (hhand : Handled s) {r n : ℕ} {x : CopyRunner} {f : JobFiles}
    (hp : s.submit = .deleting r (.emptyFile n)) (hr : s.runners.get? r = some x)
    (hf : s.files.get? x.file = some f) : f.chunksRemaining = 1 := by
  have hclean := hhand r x f (by rw [hp]; rfl) hr hf
  rw [hp] at hclean
  have hz : f.job.stxSize = 0 := (hch r x f hr hf).size_eq_zero_iff.mp hclean.2.1
  have hle := hone _ f hf hz
  have hpos := runnersOf_pos hr
  have hchunks := hsh.chunks _ f hf
  omega

theorem inOrder_push (h : InOrder s) (hsh : State.SharedFiles cfg s) (ho : State.Owned s) {i : ℕ}
    {job : Job} {p : Part} (hm : s.main = .part i job p .push) :
    InOrder (partStep cfg i job p .push s) := by
  have hnew : i + 1 = s.files.next := h.newest _ (by rw [hm]; rfl)
  -- no file is behind the one that is being added
  have hfile : ∀ r x, s.runners.get? r = some x → x.file ≤ i := by
    intro r x hx
    obtain ⟨f, hf⟩ := hsh.live r x hx
    have := Store.lt_next hf
    omega
  have hold : ∀ r ∈ s.copiesPendingStart, ∀ x', (s.runners.push
      (.create i p.offset p.size p.alignment)).get? r = some x' → s.runners.get? r = some x' := by
    intro r hmem x' hx'
    rcases Store.of_get?_push hx' with ⟨rfl, -⟩ | ⟨-, hx'⟩
    · obtain ⟨y, hy⟩ := ho.live s.runners.next (by simp [hmem])
      exact absurd (Store.lt_next hy) (lt_irrefl _)
    · exact hx'
  have hahead : ∀ j, j ≤ i → Ahead s j → Ahead (partStep cfg i job p .push s) j := by
    intro j hj ha r hmem x' hx'
    rcases List.mem_append.mp hmem with hmem | hmem
    · exact ha r hmem x' (hold r hmem x' hx')
    · rw [List.mem_singleton] at hmem
      rw [hmem] at hx'
      have hx' := Store.get?_push_self.symm.trans hx'
      cases hx'
      exact hj
  refine ⟨?_, ?_, ?_, ?_, ?_⟩
  · show (s.copiesPendingStart ++ [s.runners.next]).Pairwise _
    rw [List.pairwise_append]
    refine ⟨?_, List.pairwise_singleton _ _, ?_⟩
    · refine h.sorted.imp_of_mem fun {r r'} hmem hmem' hle x x' hx hx' => ?_
      exact hle x x' (hold r hmem x hx) (hold r' hmem' x' hx')
    · intro r hmem r' hmem' x x' hx hx'
      rw [List.mem_singleton] at hmem'
      rw [hmem'] at hx'
      have hx' := Store.get?_push_self.symm.trans hx'
      cases hx'
      exact hfile r x (hold r hmem x hx)
  · intro b hb
    simp only [partStep] at hb ⊢
    split at hb
    · cases hb
    · cases hb
      exact hnew
  · intro r x' f hent hx' hf hn
    have hhand : s.submit.hand = some r := SubmitPc.hand_of_entry hent
    obtain ⟨y, hy⟩ := ho.live r (by simp [hhand])
    have hx : s.runners.get? r = some x' := by
      rw [← hx', hy]
      exact (Store.get?_push_of_some hy).symm
    exact hahead _ (hfile r x' hx) (h.entry r x' f hent hx hf hn)
  · intro j f side hf hh
    have hlt : j < s.files.next := Store.lt_next hf
    exact hahead j (by omega) (h.high j f side hf hh)
  · intro j f side hf hh hn
    obtain ⟨r, x, hent, hx, hxj⟩ := h.half j f side hf hh hn
    exact ⟨r, x, hent, Store.get?_push_of_some hx, hxj⟩

theorem inOrder_addCopyJob (h : InOrder s) (hsh : State.SharedFiles cfg s) {job : Job} :
    InOrder (beginCopyJob job s) := by
  refine ⟨h.sorted, ?_, ?_, ?_, ?_⟩
  · intro b hb
    cases hb
    rfl
  · intro r x f hent hx hf hn
    obtain ⟨f', hf'⟩ := hsh.live r x hx
    have hsome := (Store.get?_push_of_some hf').symm.trans hf
    cases hsome
    exact h.entry r x f hent hx hf' hn
  · intro i f side hf hh
    rcases Store.of_get?_push hf with ⟨-, rfl⟩ | ⟨-, hf⟩
    · cases side <;> cases hh
    · exact h.high i f side hf hh
  · intro i f side hf hh hn
    rcases Store.of_get?_push hf with ⟨-, rfl⟩ | ⟨-, hf⟩
    · cases side <;> cases hh
    · exact h.half i f side hf hh hn

theorem inOrder_opened (h : InOrder s) (hfds : Fds cfg s) {n r : ℕ} {side : Side} {x : CopyRunner}
    {f : JobFiles} {ino : Ino} {storage : Storage}
    (hp : s.submit = .ensure n r side (.reserve .opening)) (hr : s.runners.get? r = some x)
    (hf : s.files.get? x.file = some f) :
    InOrder { s with
      files := s.files.modify x.file fun y => y.modifyFd (·.openedAs false ino) side
      storage := storage
      submit := .ensure n r side (.reserve .done) } := by
  have hent : s.submit.entry = some r := by rw [hp]; rfl
  have hfd := fd_of_opening hfds hp hr hf
  have hnever : f.Never := by
    cases side with
    | source => exact .inl hfd
    | dest => exact .inr hfd
  refine ⟨h.sorted, h.newest, ?_, ?_, ?_⟩
  · intro j y f' hj hy hf' hn
    cases hj
    rw [hr] at hy
    cases hy
    exact h.entry r x f hent hr hf hnever
  · intro i f' side' hf' hh
    obtain ⟨f₀, hf₀, ⟨rfl, -, -⟩ | ⟨-, hfd'⟩⟩ := fd_of_modifyFd side' hf'
    · exact h.entry r x f hent hr hf hnever
    · rw [hfd'] at hh
      exact h.high i f₀ side' hf₀ hh
  · intro i f' side' hf' hh hn
    by_cases hi : x.file = i
    · exact ⟨r, x, rfl, hr, hi⟩
    · rw [Store.get?_modify_of_ne (Ne.symm hi)] at hf'
      obtain ⟨j, y, hj, hy⟩ := h.half i f' side' hf' hh hn
      rw [hent] at hj
      cases hj
      exact ⟨r, y, rfl, hy⟩

theorem closing_entry (caller : CloseCaller) (r : ℕ) (stage stage' : CloseStage)
    (result result' : Option Error) : (SubmitPc.closing caller r stage result).entry =
      (SubmitPc.closing caller r stage' result').entry := by
  cases caller <;> rfl

theorem inOrder_move (hm : Move cfg s l s') (hsm : Smooth s) (ht : Threads cfg s)
    (ho : State.Owned s) (hsh : State.SharedFiles cfg s) (hch : Chunked cfg s) (hone : OnePart s)
    (hhand : Handled s) (hfds : Fds cfg s) (h : InOrder s) : InOrder s' := by
  have hfail := hsm.pc
  have hdelete : ∀ {r : ℕ} {x : CopyRunner} {f : JobFiles} {caller : DeleteCaller},
      s.submit = .deleting r caller → s.runners.get? r = some x → s.files.get? x.file = some f →
      (∃ n, caller = .emptyFile n ∧ f.chunksRemaining = 1) ∨ s.submit.entry = none := by
    intro r x f caller hp hr hf
    rw [hp] at hfail ⊢
    cases caller with
    | completion => exact .inr rfl
    | addFailed => cases hfail
    | emptyFile n => exact .inl ⟨n, rfl, chunks_of_emptyFile hsh hch hone hhand hp hr hf⟩
  cases hm with
  | start hm hs =>
    exact h.of_none rfl keep_refl (.refl _) h.newest (entry_of_not_alive (ht.idle hs)) rfl
  | addCopyJob hm => exact inOrder_addCopyJob h hsh
  | ctorLoad hm | ctorSkip hm | ctorReserve hm | ctorNext hm =>
    refine h.of_entry rfl rfl (.refl _) (fun b hb => ?_) rfl
    cases hb
    exact h.newest _ (by rw [hm]; rfl)
  | ctorOpened hm =>
    refine h.of_entry rfl rfl (.modifyFd (by intro d hd; cases hd) (by intro d hd; cases hd)) (fun b hb => ?_) rfl
    cases hb
    exact h.newest _ (by rw [hm]; rfl)
  | ctorFailed hm =>
    refine h.of_entry rfl rfl (.modifyFd (fun _ h => h) (fun _ h => h)) (fun b hb => ?_) rfl
    cases hb
    exact h.newest _ (by rw [hm]; rfl)
  | @beginParts i job hm =>
    refine h.of_entry rfl rfl (HighBefore.chunks _ _ _) (fun b hb => ?_) rfl
    cases hb
    exact h.newest (i, job, none) (by rw [hm]; rfl)
  | partTotal hm | partEta hm =>
    refine h.of_entry rfl rfl (.refl _) (fun b hb => ?_) rfl
    cases hb
    exact h.newest _ (by rw [hm]; rfl)
  | partPush hm => exact inOrder_push h hsh ho hm
  | join | joinAction | joinUnlock | joinFinish =>
    exact h.of_entry rfl rfl (.refl _) (by intro b hb; cases hb) rfl
  | pickContinue hp hc =>
    refine h.start (List.Sublist.refl _) keep_refl rfl rfl (by rw [hp]; rfl) rfl fun x f hx hf hn => ?_
    -- a runner that is rescheduled has its files open
    refine absurd hn (hfds.started _ x f hx hf (fun hs => ?_) (by rw [hp]; intro hc; cases hc))
    have hnodup := ho.nodup.of_append_left
    rw [hc, List.nodup_append] at hnodup
    exact hnodup.2.2 _ hs _ List.mem_cons_self rfl
  | @take n r rest x f hp hs hr hf =>
    refine h.start (by rw [hs]; exact List.sublist_cons_self _ _) keep_refl rfl rfl (by rw [hp]; rfl) rfl
      fun x f hx hf hn r' hmem x' hx' => ?_
    have hsorted := h.sorted
    rw [hs, List.pairwise_cons] at hsorted
    exact hsorted.1 r' hmem x x' hx hx'
  | @takeGive n r b rest x f hp hs hr hf =>
    refine h.start (by rw [hs]; exact List.sublist_cons_self _ _) (keep_modify fun _ => rfl) rfl rfl
      (by rw [hp]; rfl) rfl fun x f hx hf hn r' hmem x' hx' => ?_
    have hsorted := h.sorted
    rw [hs, List.pairwise_cons] at hsorted
    exact hsorted.1 r' hmem x x' hx hx'
  | opened hp hr hf => exact inOrder_opened h hfds hp hr hf
  | openFailed hp =>
    exact h.of_entry rfl rfl (.modifyFd (fun _ h => h) (fun _ h => h)) h.newest (by rw [hp]; rfl)
  | @ensured n r side x f hp hr hf =>
    by_cases hb : side = .dest ∧ x.size ≠ 0
    · -- the runner goes on to its requests with both files open
      obtain ⟨rfl, hz⟩ := hb
      have ha := hfds.admitted r x f (by rw [hp]; rfl) hr hf
      rw [hp] at ha
      have hpc : afterEnsure n r .dest x = .batch n r := if_neg hz
      refine h.of_back rfl keep_refl (.refl _) h.newest (fun j hent => ?_) fun j y hent hy => .inr ?_
      · rw [hpc] at hent
        cases hent
      · rw [hp] at hent
        cases hent
        rw [hr] at hy
        cases hy
        intro f' hf' hn
        rw [hf] at hf'
        cases hf'
        rcases hn with hn | hn
        · exact ha.1 hz hn
        · exact ha.2 hn
    · refine h.of_entry rfl rfl (.refl _) h.newest ?_
      rw [hp]
      cases side with
      | source => rfl
      | dest =>
        have hz : x.size = 0 := by simpa using hb
        simp only [afterEnsure, hz, if_true]
        rfl
  | ensureFailed hp =>
    rw [hp] at hfail
    cases hfail
  | batch hp => exact h.of_none rfl (keep_modify fun _ => rfl) (.refl _) h.newest (by rw [hp]; rfl) rfl
  | close hp =>
    exact h.of_entry rfl rfl (.modifyFd (fun _ h => h) (fun _ h => h)) h.newest
      (by rw [hp]; exact closing_entry ..)
  | notify hp =>
    exact h.of_entry rfl rfl (.modifyFd (by intro d hd; cases hd) (by intro d hd; cases hd)) h.newest (by rw [hp]; exact closing_entry ..)
  | closeEnter hp | closeNotOpen hp =>
    exact h.of_entry rfl rfl (.refl _) h.newest (by rw [hp]; exact closing_entry ..)
  | closeNone hp => exact h.of_entry rfl rfl (.refl _) h.newest (by rw [hp]; exact afterClose_entry ..)
  | @closeNext caller r side result hp =>
    refine h.of_entry rfl rfl (.refl _) h.newest ?_
    rw [hp]
    cases side with
    | source => exact closing_entry ..
    | dest => exact afterClose_entry ..
  | @record e caller hp =>
    refine h.of_entry rfl rfl (.refl _) h.newest ?_
    rw [hp]
    cases caller <;> rfl
  | @deleteShared r caller x f hp hr hf hj h1 =>
    rcases hdelete hp hr hf with ⟨n, -, hone⟩ | he
    · exact absurd hone h1
    · exact h.of_none rfl keep_erase (HighBefore.chunks _ _ _) h.newest he (by cases caller <;> rfl)
  | @deleteLast r caller x f hp hr hf hj h1 =>
    refine h.of_back rfl keep_erase (.erase _ _) h.newest (fun j hent => ?_) fun j y hent hy => .inr ?_
    · cases caller <;> cases hent
    · rw [hp] at hent
      have hj : j = r := by cases caller <;> cases hent <;> rfl
      subst hj
      rw [hr] at hy
      cases hy
      intro f' hf'
      exact absurd rfl (Store.of_get?_erase hf').1
  | completion hp =>
    refine h.of_none rfl (keep_modify fun _ => CopyRunner.onCompletionEvent_same.file) (.refl _)
      h.newest (by rw [hp]; rfl) ?_
    dsimp only
    split <;> rfl
  | @event r x f hp =>
    refine h.of_none rfl keep_refl (.refl _) h.newest (by rw [hp]; rfl) ?_
    dsimp only
    cases x.runnerResult <;> rfl
  | _ =>
    first
    | exact h.of_entry rfl rfl (.refl _) h.newest rfl
    | (have hp := ‹s.submit = _›
       exact h.of_entry rfl rfl (.refl _) h.newest (congrArg SubmitPc.entry hp).symm)

theorem inOrder_initial (storage : Storage) : InOrder (initial cfg storage) where
  sorted := .nil
  newest b hb := by cases hb
  entry r x f hent := by cases hent
  high i f side hf := by cases hf
  half i f side hf := by cases hf

theorem reachIn_inOrder {ok : State → Label → Prop} (hok : ∀ s l, ok s l → Unfailing cfg s l)
    (h : (system cfg).ReachIn ok s) : InOrder s := by
  refine h.invariant ?_ fun s l s' hr hs _ hstep => inOrder_move (step_move hstep).2
    (reachIn_smooth hok hr) (reachable_threads hr) (reachable_owned hr).1 (reachable_sharedFiles hr)
    (reachable_chunked hr) (reachable_onePart hr) (reachable_handled hr) (reachable_fds hr) hs
  rintro s ⟨storage, rfl⟩
  exact inOrder_initial storage

end CopyQueue

end Wcp
