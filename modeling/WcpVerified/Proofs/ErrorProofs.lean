import WcpVerified.Proofs.AccountProofs

/-!
# Proofs: a failure is recorded before the queue is done

A failure is first held by someone: by the runner that saved it, or by a local variable of the
submit thread. Two failures escape. After a failed `addToBatch` the runner is deleted before its
error is recorded, and in between `isDone` may already hold; and the eager open of the source of an
empty file is never tried again. In the runs without these two, `isDone` finds every failure
recorded.
-/

namespace Wcp

/-- Whether the submit thread has an error in a local variable and will pass it to `onError`. -/
def SubmitPc.holdsError : SubmitPc → Bool
  | .ensure _ _ _ (.failed _) => true
  | .closing (.addFailed _ _) _ _ _ => true
  | .closing .finished _ _ result | .closing (.emptyFile _) _ _ result => result.isSome
  | .recording _ _ => true
  | .deleting _ (.addFailed _ _) => true
  | _ => false

theorem SubmitPc.holdsError_of_not_alive {pc : SubmitPc} (h : pc.alive = false) :
    pc.holdsError = false := by
  cases pc <;> first | rfl | cases h

namespace CopyRunner

variable {strerror : Errno → List Char} {modes : DebugModes} {src dst : Path} {x : CopyRunner}

theorem runnerResult_finished (h : x.runnerResult = .finished) : x.savedError = none := by
  unfold runnerResult at h
  split at h
  · split at h
    · cases h
    · assumption
  · cases h

theorem onCompletionEvent_isSome {ev : EventType} {res : ℤ} (h : x.savedError.isSome = true) :
    (x.onCompletionEvent strerror modes src dst ev res).savedError.isSome = true := by
  rw [onCompletionEvent_savedError h]
  exact h

/-- The result of a failed transfer makes the runner save an error, unless it has one already. -/
theorem savedError_of_isFailure {c : Cqe} (h : CopyQueue.Cqe.isFailure c = true) :
    (x.onCompletionEvent strerror modes src dst c.event c.res).savedError.isSome = true := by
  by_cases hs : x.savedError.isSome = true
  · exact onCompletionEvent_isSome hs
  · unfold CopyQueue.Cqe.isFailure at h
    unfold onCompletionEvent
    dsimp only
    rw [if_neg hs]
    cases hev : c.event with
    | read =>
      rw [hev] at h
      have hle : spoof modes x.readOverride c.res ≤ 0 := by
        rcases lt_or_eq_of_le (of_decide_eq_true h) with hlt | heq
        · rw [spoof_neg _ _ _ hlt]; exact hlt.le
        · exact (spoof_le modes x.readOverride c.res heq.ge).trans heq.le
      simp only [onRead, readError]
      split
      · rfl
      · rw [if_pos (by omega)]; rfl
    | write =>
      rw [hev] at h
      simp only [Bool.and_eq_true, decide_eq_true_eq] at h
      simp only [onWrite, writeError]
      rw [spoof_neg _ _ _ h.1, if_pos h]
      rfl

end CopyRunner

namespace CopyQueue

variable {cfg : Config} {s s' : State} {l : Label}

/-! ## The failures that escape -/

/-- When `isDone` becomes true between the deletion of a runner that could not be started and the
call of `onError` for it, an error is already recorded. It becomes true when that runner is the last
one, or when `join` is called in between. -/
structure RecordsInTime (s : State) (l : Label) : Prop where
  last : ∀ r n e, l = .submit .tick → s.submit = .deleting r (.addFailed n e) →
    s.state = .additionComplete → s.keepAliveCount = 1 → s.errored = true
  join : ∀ action n e, l = .join action → s.submit = .recording e (.addFailed n) →
    s.keepAliveCount = 0 → s.errored = true

/-- The eager open of the source of an empty file does not fail. -/
def EmptySourceOpens (cfg : Config) (s : State) (l : Label) : Prop :=
  ∀ i job answers f e, l = .main (.opened answers) → s.main = .ctor i job .source .opening →
    job.stxSize = 0 → s.files.get? i = some f →
    myOpen cfg.strerror f.sourceFd.path f.sourceFd.oflag answers ≠ .error e

/-- The steps that lose no failure. -/
def ReportsFailures (cfg : Config) (s : State) (l : Label) : Prop :=
  RecordsInTime s l ∧ EmptySourceOpens cfg s l

/-! ## The runner at hand -/

/-- What is known of the runner `x` at hand, of its files and of the recorded errors, on the way to
the runner's destruction. -/
def Clean (errored : Bool) (x : CopyRunner) (f : JobFiles) : SubmitPc → Prop
  | .closing .saveError _ _ _ | .event _ | .recording _ (.completion _) => True
  | .closing (.emptyFile _) _ _ _ =>
    x.savedError = none ∧ x.size = 0 ∧ f.destFd.fd ≠ .neverOpened
  | .recording _ (.emptyFile _ _) => x.savedError = none ∧ x.size = 0
  | .deleting _ (.emptyFile _) =>
    x.savedError = none ∧ x.size = 0 ∧ (errored = true ∨ f.destFd.fd ≠ .neverOpened)
  | .deleting _ .completion => x.savedError = none ∨ errored = true
  | _ => x.savedError = none

def Handled (s : State) : Prop :=
  ∀ r x f, s.submit.hand = some r → s.runners.get? r = some x → s.files.get? x.file = some f →
    Clean s.errored x f s.submit

theorem Clean.of_errored {errored : Bool} {x : CopyRunner} {f : JobFiles} {pc : SubmitPc}
    (h : Clean errored x f pc) : Clean true x f pc := by
  unfold Clean at h ⊢
  split at h
  · trivial
  · trivial
  · trivial
  · exact h
  · exact h
  · exact ⟨h.1, h.2.1, .inl rfl⟩
  · exact .inr rfl
  · exact h

theorem clean_afterClose {errored : Bool} {x : CopyRunner} {f : JobFiles} {caller : CloseCaller}
    {r : ℕ} {stage : CloseStage} {result result' : Option Error}
    (h : Clean errored x f (.closing caller r stage result)) :
    Clean errored x f (afterClose caller r result') := by
  cases caller with
  | saveError => trivial
  | finished | addFailed => cases result' <;> exact h
  | emptyFile =>
    cases result' with
    | none => exact ⟨h.1, h.2.1, .inr h.2.2⟩
    | some e => exact ⟨h.1, h.2.1⟩

/-- No runner is at hand. -/
theorem Handled.of_none (hn : s'.submit.hand = none) : Handled s' := by
  intro r x f hr
  rw [hn] at hr
  cases hr

/-- The runner at hand, and its objects. -/
theorem Handled.of_hand {r : ℕ} {x : CopyRunner} {f : JobFiles} (hp : s'.submit.hand = some r)
    (hx : s'.runners.get? r = some x) (hf : s'.files.get? x.file = some f)
    (hc : Clean s'.errored x f s'.submit) : Handled s' := by
  intro j y g hj hy hg
  rw [hp] at hj
  cases hj
  rw [hx] at hy
  cases hy
  rw [hf] at hg
  cases hg
  exact hc

/-- A step that leaves the submit thread and the objects of the runners alone. -/
theorem Handled.of_main (h : Handled s) (hp : s'.submit = s.submit) (he : s'.errored = s.errored)
    (hr : ∀ r x, s.submit.hand = some r → s'.runners.get? r = some x → s.runners.get? r = some x)
    (hf : ∀ r x, s.runners.get? r = some x → s'.files.get? x.file = s.files.get? x.file) :
    Handled s' := by
  intro r x f hh hx hf'
  rw [hp] at hh ⊢
  have hx := hr r x hh hx
  rw [hf r x hx] at hf'
  rw [he]
  exact h r x f hh hx hf'

theorem handled_move (hm : Move cfg s l s') (ht : Threads cfg s) (ho : State.Owned s)
    (hsh : State.SharedFiles cfg s) (hfds : Fds cfg s) (h : Handled s) : Handled s' := by
  have herr : ∀ {n r side stage x}, s.submit = .ensure n r side stage →
      s.runners.get? r = some x → x.savedError = none := by
    intro n r side stage x hp hx
    have := ho.hand r (by rw [hp]; rfl) x hx
    rw [hp] at this
    exact CopyRunner.Startable.error this
  have hbuild : ∀ {i job side stage}, s.main = .ctor i job side stage → ∀ g r x,
      s.runners.get? r = some x → (s.files.modify i g).get? x.file = s.files.get? x.file :=
    fun hm g r x hx => Store.get?_modify_of_ne (file_ne_building hsh (by rw [hm]; rfl) hx)
  cases hm with
  | addCopyJob =>
    refine h.of_main rfl rfl (fun _ _ _ hx => hx) fun r x hx => ?_
    obtain ⟨f, hf⟩ := hsh.live r x hx
    rw [hf]
    exact Store.get?_push_of_some hf
  | walkError => exact fun r x f hh hx hf => (h r x f hh hx hf).of_errored
  | ctorOpened hm | ctorFailed hm | beginParts hm =>
    exact h.of_main rfl rfl (fun _ _ _ hx => hx) (hbuild hm _)
  | partPush hm =>
    refine h.of_main rfl rfl (fun r x hh hx => ?_) fun _ _ _ => rfl
    obtain ⟨y, hy⟩ := ho.live r (by simp [hh])
    rw [← hx, hy]
    exact (Store.get?_push_of_some hy).symm
  | joinFinish hm hp =>
    refine .of_none ?_
    change s.submit.hand = none
    rw [returned_of_joinFinish ht hm hp]
    rfl
  | pickContinue hp hc =>
    intro r x f hh hx hf
    cases hh
    exact (ho.resumable _ (by rw [hc]; exact List.mem_cons_self) x hx).error
  | take hp hs hr hf =>
    exact .of_hand rfl hr hf (ho.fresh _ (by rw [hs]; exact List.mem_cons_self) _ hr).error
  | takeGive hp hs hr hf =>
    exact .of_hand rfl (Store.get?_modify_self hr) hf
      (ho.fresh _ (by rw [hs]; exact List.mem_cons_self) _ hr).error
  | starting hp hr hf =>
    have hx := ho.hand _ (by rw [hp]; rfl) _ hr
    rw [hp] at hx
    exact .of_hand rfl hr hf (CopyRunner.Startable.error hx)
  | checkNever hp hr hf | checkOpened hp hr hf | checkClosed hp hr hf =>
    exact .of_hand rfl hr hf (herr hp hr)
  | load hp | retry hp | reserve hp =>
    intro r x f hh hx hf
    cases hh
    exact herr hp hx
  | opened hp hr hf | openFailed hp hr hf =>
    exact .of_hand rfl hr (Store.get?_modify_self hf) (herr hp hr)
  | @ensured n r side x f hp hr hf =>
    refine .of_hand (afterEnsure_hand ..) hr hf ?_
    have hx := herr hp hr
    cases side with
    | source => exact hx
    | dest =>
      have ha := hfds.admitted r x f (by rw [hp]; rfl) hr hf
      rw [hp] at ha
      simp only [afterEnsure]
      split
      · rename_i hz
        exact ⟨hx, hz, ha.2⟩
      · exact hx
  | ensureFailed hp hr hf =>
    refine .of_hand (afterEnsureFailed_hand ..) hr hf ?_
    have hx := herr hp hr
    simp only [afterEnsureFailed]
    split
    · rename_i hz
      exact ⟨hx, hz⟩
    · exact hx
  | @closeEnter caller r result x f hp hr hf | @closeNotOpen caller r side result x f answer hp hr hf =>
    have hx := h r x f (by rw [hp]; rfl) hr hf
    rw [hp] at hx
    refine .of_hand rfl hr hf ?_
    cases caller <;> exact hx
  | @closeNone caller r result x f hp hr hf =>
    have hx := h r x f (by rw [hp]; rfl) hr hf
    rw [hp] at hx
    exact .of_hand (afterClose_hand ..) hr hf (clean_afterClose hx)
  | @close caller r side result x f answer hp hr hf =>
    have hx := h r x f (by rw [hp]; rfl) hr hf
    rw [hp] at hx
    refine .of_hand rfl hr (Store.get?_modify_self hf) ?_
    cases caller <;> cases side <;> exact hx
  | @notify caller r side result x f hp hr hf =>
    have hx := h r x f (by rw [hp]; rfl) hr hf
    rw [hp] at hx
    refine .of_hand rfl hr (Store.get?_modify_self hf) ?_
    cases caller with
    | saveError => trivial
    | finished | addFailed => exact hx
    | emptyFile =>
      cases side with
      | source => exact hx
      | dest => exact ⟨hx.1, hx.2.1, by intro hc; cases hc⟩
  | @closeNext caller r side result hp =>
    obtain ⟨x, f, hr, hf⟩ := hand_objects ho hsh (show s.submit.hand = some r by rw [hp]; rfl)
    have hx := h r x f (by rw [hp]; rfl) hr hf
    rw [hp] at hx
    cases side with
    | source =>
      refine .of_hand rfl hr hf ?_
      cases caller <;> exact hx
    | dest => exact .of_hand (afterClose_hand ..) hr hf (clean_afterClose hx)
  | @record e caller hp =>
    intro r x f hh hx hf
    have hh : (afterError caller).hand = some r := hh
    rw [afterError_hand] at hh
    have hc := h r x f (by rw [hp]; exact hh) hx hf
    rw [hp] at hc
    cases caller with
    | finished => exact hc
    | completion => exact .inr rfl
    | addFailed => cases hh
    | emptyFile => exact ⟨hc.1, hc.2, .inl rfl⟩
  | @finish r x f hp hr hf =>
    have hx := h r x f (by rw [hp]; rfl) hr hf
    rw [hp] at hx
    exact .of_hand rfl hr hf (.inl hx)
  | deleteShared | deleteLast => exact .of_none (afterDelete_hand _)
  | completion hp =>
    intro r x f hh hx hf
    dsimp only
    split <;> trivial
  | @event r x f hp hr hf =>
    cases hres : x.runnerResult with
    | error e => exact .of_hand rfl hr hf trivial
    | finished => exact .of_hand rfl hr hf (CopyRunner.runnerResult_finished hres)
    | _ => exact .of_none rfl
  | _ =>
    first
    | exact h
    | exact .of_none rfl

theorem reachable_handled {ok : State → Label → Prop} (h : (system cfg).ReachIn ok s) :
    Handled s := by
  refine h.invariant ?_ fun s l s' hr hs _ hstep => handled_move (step_move hstep).2
    (reachable_threads hr) (reachable_owned hr).1 (reachable_sharedFiles hr) (reachable_fds hr) hs
  rintro s ⟨storage, rfl⟩
  exact .of_none rfl

/-! ## The sources of empty files -/

/-- No open of the source of an empty file has failed. -/
def EmptySources (s : State) : Prop :=
  ∀ i f, s.files.get? i = some f → f.job.stxSize = 0 → f.sourceFd.openFailed = false

theorem EmptySources.of_back (h : EmptySources s)
    (hf : ∀ i f', s'.files.get? i = some f' → ∃ f, s.files.get? i = some f ∧ f'.job = f.job ∧
      (f'.job.stxSize = 0 → f'.sourceFd.openFailed = true → f.sourceFd.openFailed = true)) :
    EmptySources s' := by
  intro i f' hf' hz
  obtain ⟨f, hget, hjob, himp⟩ := hf i f' hf'
  have hold := h i f hget (hjob ▸ hz)
  by_contra hc
  rw [himp hz (by simpa using hc)] at hold
  cases hold

/-- A change of one side of a job that makes no open of an empty file's source fail. -/
theorem EmptySources.modifyFd (h : EmptySources s) {j : ℕ} {side : Side}
    {g : QueueFileDescriptor → QueueFileDescriptor}
    (hg : ∀ f, s.files.get? j = some f → f.job.stxSize = 0 → side = .source →
      (g f.sourceFd).openFailed = true → f.sourceFd.openFailed = true)
    (hs : s'.files = s.files.modify j fun y => y.modifyFd g side) : EmptySources s' := by
  refine h.of_back fun i f' hf' => ?_
  rw [hs] at hf'
  obtain ⟨f, hf, ⟨rfl, rfl⟩ | ⟨-, rfl⟩⟩ := Store.exists_of_get?_modify hf'
  · refine ⟨f, hf, modifyFd_job _ _ _, fun hz hfail => ?_⟩
    rw [modifyFd_job] at hz
    cases side with
    | source => exact hg f hf hz rfl hfail
    | dest => exact hfail
  · exact ⟨f', hf, rfl, fun _ hfail => hfail⟩

theorem emptySources_move (hm : Move cfg s l s') (hopen : EmptySourceOpens cfg s l)
    (hsh : State.SharedFiles cfg s) (hch : Chunked cfg s) (hsrc : SourceNonempty s)
    (h : EmptySources s) : EmptySources s' := by
  cases hm with
  | addCopyJob =>
    intro i f hf hz
    rcases Store.of_get?_push hf with ⟨-, rfl⟩ | ⟨-, hf⟩
    · rfl
    · exact h i f hf hz
  | @ctorFailed i job side x e answers hm hf he =>
    refine h.modifyFd (fun f hget hz hside => ?_) rfl
    rw [hf] at hget
    cases hget
    subst hside
    obtain ⟨f', hf', hjob, -⟩ := hsh.ctor i job (by rw [hm]; rfl)
    rw [hf] at hf'
    cases hf'
    exact absurd he (hopen i job answers x e rfl hm (hjob ▸ hz) hf)
  | @openFailed n r side x f e answers hp hr hf =>
    refine h.modifyFd (fun g hget hz hside => ?_) rfl
    rw [hf] at hget
    cases hget
    subst hside
    exact absurd ((hch r x f hr hf).size_eq_zero_iff.mpr hz) (hsrc _ _ _ _ hp hr)
  | ctorOpened | opened => exact h.modifyFd (fun _ _ _ _ hfail => by cases hfail) rfl
  | close | notify => exact h.modifyFd (fun _ _ _ _ hfail => hfail) rfl
  | beginParts | deleteShared =>
    refine h.of_back fun i f' hf' => ?_
    obtain ⟨f, hf, ⟨-, rfl⟩ | ⟨-, rfl⟩⟩ := Store.exists_of_get?_modify hf'
    · exact ⟨f, hf, rfl, fun _ hfail => hfail⟩
    · exact ⟨f', hf, rfl, fun _ hfail => hfail⟩
  | deleteLast => exact fun i f hf => h i f (Store.of_get?_erase hf).2
  | _ => exact h

theorem reachIn_emptySources {ok : State → Label → Prop}
    (hok : ∀ s l, ok s l → EmptySourceOpens cfg s l) (h : (system cfg).ReachIn ok s) :
    EmptySources s := by
  refine h.invariant ?_ fun s l s' hr hs hc hstep => emptySources_move (step_move hstep).2
    (hok s l hc) (reachable_sharedFiles hr) (reachable_chunked hr) (reachable_sourceNonempty hr) hs
  rintro s ⟨storage, rfl⟩
  exact fun i f hf => by cases hf

/-! ## Failures are recorded or held -/

/-- A failure is recorded, or saved by a runner, or in a local variable of the submit thread. -/
def Noted (s : State) : Prop :=
  s.failed = true → s.errored = true ∨
    (∃ r x, s.runners.get? r = some x ∧ x.savedError.isSome = true) ∨ s.submit.holdsError = true

theorem Noted.of_held (h : s'.submit.holdsError = true) : Noted s' := fun _ => .inr (.inr h)

theorem Noted.of_errored (h : s'.errored = true) : Noted s' := fun _ => .inl h

/-- Nothing that was noted is forgotten. -/
theorem Noted.of_keep (h : Noted s) (hf : s'.failed = s.failed) (he : s'.errored = s.errored)
    (hr : ∀ r x, s.runners.get? r = some x → x.savedError.isSome = true →
      ∃ x', s'.runners.get? r = some x' ∧ x'.savedError.isSome = true)
    (hp : s.submit.holdsError = true → s'.submit.holdsError = true) : Noted s' := by
  intro hfail
  rcases h (hf ▸ hfail) with herr | ⟨r, x, hx, hs⟩ | hheld
  · exact .inl (he ▸ herr)
  · obtain ⟨x', hx', hs'⟩ := hr r x hx hs
    exact .inr (.inl ⟨r, x', hx', hs'⟩)
  · exact .inr (.inr (hp hheld))

theorem saved_self (r : ℕ) (x : CopyRunner) (hx : s.runners.get? r = some x)
    (hs : x.savedError.isSome = true) :
    ∃ x', s.runners.get? r = some x' ∧ x'.savedError.isSome = true := ⟨x, hx, hs⟩

theorem saved_modify {j : ℕ} {g : CopyRunner → CopyRunner}
    (hg : ∀ x : CopyRunner, x.savedError.isSome = true → (g x).savedError.isSome = true) (r : ℕ)
    (x : CopyRunner) (hx : s.runners.get? r = some x) (hs : x.savedError.isSome = true) :
    ∃ x', (s.runners.modify j g).get? r = some x' ∧ x'.savedError.isSome = true := by
  by_cases hj : r = j
  · subst hj
    exact ⟨g x, Store.get?_modify_self hx, hg x hs⟩
  · exact ⟨x, by rw [Store.get?_modify_of_ne hj, hx], hs⟩

theorem holdsError_afterClose {caller : CloseCaller} {r : ℕ} {stage : CloseStage}
    {result : Option Error} (h : (SubmitPc.closing caller r stage result).holdsError = true) :
    (afterClose caller r result).holdsError = true := by
  cases caller with
  | saveError => cases h
  | addFailed => rfl
  | finished | emptyFile =>
    cases result with
    | none => cases h
    | some e => rfl

/-- A runner is destroyed. It had no error, or its error is recorded, or held. -/
theorem Noted.delete (h : Noted s) (hh : Handled s) {r : ℕ} {caller : DeleteCaller}
    {x : CopyRunner} {f : JobFiles} (hp : s.submit = .deleting r caller)
    (hx : s.runners.get? r = some x) (hf : s.files.get? x.file = some f)
    (hfail : s'.failed = true → s.failed = true ∨ s.errored = true ∨ ∃ n e, caller = .addFailed n e)
    (he : s'.errored = s.errored) (hr : s'.runners = s.runners.erase r)
    (hp' : s'.submit = afterDelete caller) : Noted s' := by
  have hc := hh r x f (by rw [hp]; rfl) hx hf
  rw [hp] at hc
  cases caller with
  | addFailed n e => exact .of_held (by rw [hp']; rfl)
  | completion | emptyFile =>
    intro hfail'
    rcases hfail hfail' with hold | herr | ⟨n, e, he⟩
    · rcases h hold with herr | ⟨j, y, hy, hs⟩ | hheld
      · exact .inl (he ▸ herr)
      · by_cases hj : j = r
        · subst hj
          rw [hx] at hy
          cases hy
          first
          | (rcases hc with hc | hc
             · rw [hc] at hs; cases hs
             · exact .inl (he ▸ hc))
          | (rw [hc.1] at hs; cases hs)
        · exact .inr (.inl ⟨j, y, by rw [hr, Store.get?_erase_of_ne hj, hy], hs⟩)
      · rw [hp] at hheld; cases hheld
    · exact .inl (he ▸ herr)
    · cases he

/-- When the last runner of a job is destroyed and an open of the job has failed, the failure is
recorded, or the one that is about to be. -/
theorem noted_of_openFailed (ho : State.Owned s) (hch : Chunked cfg s) (hfds : Fds cfg s)
    (hd : Descs s) (hh : Handled s) (hes : EmptySources s) {r : ℕ} {caller : DeleteCaller}
    {x : CopyRunner} {f : JobFiles} (hp : s.submit = .deleting r caller)
    (hx : s.runners.get? r = some x) (hf : s.files.get? x.file = some f) (side : Side)
    (hfail : (f.fd side).openFailed = true) :
    s.errored = true ∨ ∃ n e, caller = .addFailed n e := by
  have hnever : (f.fd side).fd = .neverOpened := by
    by_contra hc
    rw [(hd.hist _ f side hf).openFailed_eq hc] at hfail
    cases hfail
  cases caller with
  | addFailed n e => exact .inr ⟨n, e, rfl⟩
  | completion =>
    refine absurd ?_ (hfds.started r x f hx hf (fun hs => ?_) (by rw [hp]; nofun))
    · cases side with
      | source => exact .inl hnever
      | dest => exact .inr hnever
    · exact ho.hand_notMem (show s.submit.hand = some r by rw [hp]; rfl) r (by simp [hs]) rfl
  | emptyFile n =>
    have hc := hh r x f (by rw [hp]; rfl) hx hf
    rw [hp] at hc
    cases side with
    | source =>
      rw [JobFiles.fd, hes _ f hf ((hch r x f hx hf).size_eq_zero_iff.mp hc.2.1)] at hfail
      cases hfail
    | dest => exact .inl (hc.2.2.resolve_right fun hne => hne hnever)

theorem noted_move (hm : Move cfg s l s') (ht : Threads cfg s) (ho : State.Owned s)
    (hch : Chunked cfg s) (hfds : Fds cfg s) (hd : Descs s) (hh : Handled s)
    (hes : EmptySources s) (h : Noted s) : Noted s' := by
  cases hm with
  | start hm hs =>
    refine h.of_keep rfl rfl saved_self fun hc => ?_
    rw [SubmitPc.holdsError_of_not_alive (ht.idle hs)] at hc
    cases hc
  | walkError => exact .of_errored rfl
  | partPush =>
    exact h.of_keep rfl rfl (fun r x hx hs => ⟨x, Store.get?_push_of_some hx, hs⟩) fun hc => hc
  | joinFinish => exact fun hc => by cases hc
  | takeGive hp | batch hp =>
    exact h.of_keep rfl rfl (saved_modify fun _ hs => hs) fun hc => by rw [hp] at hc; cases hc
  | openFailed => exact .of_held rfl
  | ensureFailed =>
    refine .of_held ?_
    simp only [afterEnsureFailed]
    split <;> rfl
  | @closeEnter caller r result x f hp | @closeNotOpen caller r side result x f answer hp
  | @notify caller r side result x f hp =>
    refine h.of_keep rfl rfl saved_self fun hc => ?_
    rw [hp] at hc
    cases caller <;> exact hc
  | closeNone hp =>
    refine h.of_keep rfl rfl saved_self fun hc => ?_
    rw [hp] at hc
    exact holdsError_afterClose hc
  | @closeNext caller r side result hp =>
    refine h.of_keep rfl rfl saved_self fun hc => ?_
    rw [hp] at hc
    cases side with
    | source => cases caller <;> exact hc
    | dest => exact holdsError_afterClose hc
  | @close caller r side result x f answer hp hr =>
    cases he : myClose cfg.strerror answer with
    | none =>
      refine h.of_keep (by simp) rfl saved_self fun hc => ?_
      rw [hp] at hc
      cases caller <;> cases result <;> exact hc
    | some e =>
      -- the error is returned, unless another one is reported in its place
      cases caller with
      | saveError =>
        have hx := ho.hand r (by rw [hp]; rfl) x hr
        rw [hp] at hx
        exact fun _ => .inr (.inl ⟨r, x, hr, hx.2⟩)
      | addFailed => exact .of_held rfl
      | finished | emptyFile => cases result <;> exact .of_held rfl
  | record => exact .of_errored rfl
  | deleteShared hp hr hf => exact h.delete hh hp hr hf .inl rfl rfl rfl
  | @deleteLast r caller x f hp hr hf =>
    refine h.delete hh hp hr hf (fun hfail => ?_) rfl rfl rfl
    simp only [Bool.or_eq_true] at hfail
    rcases hfail with (hfail | hfail) | hfail
    · exact .inl hfail
    · exact .inr (noted_of_openFailed ho hch hfds hd hh hes hp hr hf .source hfail)
    · exact .inr (noted_of_openFailed ho hch hfds hd hh hes hp hr hf .dest hfail)
  | @completion i c x y f hp hc hr =>
    by_cases hfail : Cqe.isFailure c = true
    · exact fun _ => .inr (.inl ⟨c.runner, _, Store.get?_modify_self hr,
        CopyRunner.savedError_of_isFailure hfail⟩)
    · refine h.of_keep (by simp [hfail]) rfl
        (saved_modify fun _ hs => CopyRunner.onCompletionEvent_isSome hs) fun hc => ?_
      rw [hp] at hc
      cases hc
  | _ =>
    first
    | exact h
    | (have hp := ‹s.submit = _›
       exact h.of_keep rfl rfl saved_self fun hc => by rw [hp] at hc; cases hc)

theorem reachIn_noted {ok : State → Label → Prop} (hok : ∀ s l, ok s l → EmptySourceOpens cfg s l)
    (h : (system cfg).ReachIn ok s) : Noted s := by
  refine h.invariant ?_ fun s l s' hr hs _ hstep => noted_move (step_move hstep).2
    (reachable_threads hr) (reachable_owned hr).1 (reachable_chunked hr) (reachable_fds hr)
    (reachable_descs hr) (reachable_handled hr) (reachIn_emptySources hok hr) hs
  rintro s ⟨storage, rfl⟩
  exact fun hc => by cases hc

/-! ## In time -/

/-- Between the deletion of a runner that could not be started and `onError`, the queue is not done
unless an error is recorded. -/
def InTime (s : State) : Prop :=
  ∀ e n, s.submit = .recording e (.addFailed n) → isDone s = true → s.errored = true

theorem isDone_iff : isDone s = true ↔ s.state = .additionComplete ∧ s.keepAliveCount = 0 := by
  simp [isDone]

theorem inTime_move (hm : Move cfg s l s') (hrec : RecordsInTime s l) (hc : Counts s)
    (h : InTime s) : InTime s' := by
  cases hm with
  | join hm hs =>
    intro e n hp hd
    exact hrec.join _ n e rfl hp (isDone_iff.mp hd).2
  | walkError => exact fun _ _ _ _ => rfl
  | partPush =>
    intro e n hp hd
    exact absurd (isDone_iff.mp hd).2 (Nat.succ_ne_zero _)
  | joinFinish => exact fun e n hp hd => by cases (isDone_iff.mp hd).1
  | @ensured n r side x =>
    intro e n' hp
    have hh := afterEnsure_hand n r side x
    rw [show afterEnsure n r side x = _ from hp] at hh
    cases hh
  | @ensureFailed n r side e x =>
    intro e' n' hp
    have hh := afterEnsureFailed_hand n r x e
    rw [show afterEnsureFailed n r x e = _ from hp] at hh
    cases hh
  | @closeNone caller r result =>
    intro e n hp
    have hh := afterClose_hand caller r result
    rw [show afterClose caller r result = _ from hp] at hh
    cases hh
  | @closeNext caller r side result =>
    intro e n hp
    cases side with
    | source => cases hp
    | dest =>
      have hh := afterClose_hand caller r result
      rw [show afterClose caller r result = _ from hp] at hh
      cases hh
  | record => exact fun _ _ _ _ => rfl
  | @deleteShared r caller x f hp hr | @deleteLast r caller x f hp hr =>
    intro e n hp' hd
    obtain ⟨hs, hk⟩ := isDone_iff.mp hd
    have hpos := Store.size_pos hr
    have hk : s.keepAliveCount - 1 = 0 := hk
    rw [← hc.keepAlive] at hpos
    cases caller <;> cases hp'
    exact hrec.last r _ _ rfl hp hs (by omega)
  | completion =>
    intro e n hp
    dsimp only at hp
    split at hp <;> cases hp
  | @event r x =>
    intro e n hp
    dsimp only at hp
    cases hres : x.runnerResult <;> rw [hres] at hp <;> cases hp
  | _ =>
    first
    | exact h
    | exact fun e n hp => by cases hp

theorem reachIn_inTime {ok : State → Label → Prop} (hok : ∀ s l, ok s l → RecordsInTime s l)
    (h : (system cfg).ReachIn ok s) : InTime s := by
  refine h.invariant ?_ fun s l s' hr hs hc hstep => inTime_move (step_move hstep).2
    (hok s l hc) (reachable_owned hr).2 hs
  rintro s ⟨storage, rfl⟩
  exact fun e n hp => by cases hp

/-- The submit thread has a runner at hand when it holds an error, unless the runner was deleted
already. -/
theorem hand_of_holdsError {pc : SubmitPc} (h : pc.holdsError = true) :
    (∃ r, pc.hand = some r) ∨ ∃ e n, pc = .recording e (.addFailed n) := by
  unfold SubmitPc.holdsError at h
  split at h
  · exact .inl ⟨_, rfl⟩
  · exact .inl ⟨_, rfl⟩
  · exact .inl ⟨_, rfl⟩
  · exact .inl ⟨_, rfl⟩
  · rename_i e caller
    cases caller with
    | addFailed n => exact .inr ⟨e, n, rfl⟩
    | finished | completion | emptyFile => exact .inl ⟨_, rfl⟩
  · exact .inl ⟨_, rfl⟩
  · cases h

/-- When the queue is done, every failure is recorded. -/
theorem errored_of_isDone (ho : State.Owned s) (hc : Counts s) (hn : Noted s) (hi : InTime s)
    (hd : isDone s = true) (hf : s.failed = true) : s.errored = true := by
  rcases hn hf with herr | ⟨r, x, hx, -⟩ | hheld
  · exact herr
  · rw [hc.none_of_isDone hd r] at hx; cases hx
  · rcases hand_of_holdsError hheld with ⟨r, hr⟩ | ⟨e, n, hp⟩
    · obtain ⟨x, hx⟩ := ho.live r (by simp [hr])
      rw [hc.none_of_isDone hd r] at hx; cases hx
    · exact hi e n hp hd

/-- `join` returns after everything is done. -/
theorem isDone_of_joinFinish (ht : Threads cfg s)
    (hm : s.main = .joinSubmit ∨ s.main = .joinProgress ∧ s.progress = .returned)
    (hp : s.main = .joinSubmit → s.submit = .returned ∧ cfg.showingProgress = false) :
    isDone s = true := by
  have hj := ht.joining
  have hs : s.state = .additionComplete := by
    rcases hm with hm | ⟨hm, -⟩ <;> rw [hm] at hj <;> simpa [MainPc.joining] using hj.symm
  exact isDone_iff.mpr ⟨hs, ht.returned (returned_of_joinFinish ht hm hp) hs⟩

theorem reachIn_errored {ok : State → Label → Prop} (hok : ∀ s l, ok s l → ReportsFailures cfg s l)
    (h : (system cfg).ReachIn ok s) (hd : isDone s = true) (hf : s.failed = true) :
    s.errored = true :=
  errored_of_isDone (reachable_owned h).1 (reachable_owned h).2
    (reachIn_noted (fun s l hc => (hok s l hc).2) h) (reachIn_inTime (fun s l hc => (hok s l hc).1) h)
    hd hf

/-- In the runs that lose no failure: when `isDone` holds and something has failed, `errored` is set;
the status passed to `_exit`, by whichever thread, and the value returned by `join` say so. -/
theorem failures_reported (h : (system cfg).ReachIn (ReportsFailures cfg) s) :
    (isDone s = true → s.failed = true → s.errored = true) ∧
    (∀ errored, s.halted = some (.exit errored) → s.failed = true → errored = true) ∧
    ∀ l s', step cfg s l = some s' → s'.joined ≠ s.joined → s.failed = true →
      s'.joined = s.joined ++ [false] := by
  refine ⟨reachIn_errored (fun _ _ hc => hc) h, ?_, fun l s' hstep hne hf => ?_⟩
  · refine h.invariant (P := fun s => ∀ errored, s.halted = some (.exit errored) →
      s.failed = true → errored = true) ?_ fun s l s' hr _ _ hstep => ?_
    · rintro s ⟨storage, rfl⟩
      exact fun _ hc => by cases hc
    · obtain ⟨hh, hm⟩ := step_move hstep
      have hexit : isDone s = true → ∀ errored, some (Halt.exit s.errored) = some (.exit errored) →
          s.failed = true → errored = true := by
        rintro hd errored he hf
        cases he
        exact reachIn_errored (fun _ _ hc => hc) hr hd hf
      cases hm with
      | submitExit hp hd => exact hexit hd
      | progressExit hp => exact hexit ((reachable_threads hr).ended hp)
      | abort => exact fun _ hc => by cases hc
      | _ =>
        intro errored hc
        have hc : s.halted = _ := hc
        rw [hh] at hc
        cases hc
  · have hm := (step_move hstep).2
    cases hm with
    | joinFinish hm hp =>
      have hd := isDone_of_joinFinish (reachable_threads h) hm hp
      simp [finishJoin, reachIn_errored (fun _ _ hc => hc) h hd hf]
    | _ => exact absurd rfl hne

/-- A check that implies `ReportsFailures`: no `addToBatch` fails, and no empty file is opened
eagerly. -/
def reportsCheck (s : State) (_ : Label) : Bool :=
  (match s.submit with
    | .deleting _ (.addFailed _ _) | .recording _ (.addFailed _) => false
    | _ => true) &&
  match s.main with
  | .ctor _ job .source .opening => job.stxSize != 0
  | _ => true

theorem reportsFailures_of_check (s : State) (l : Label) (h : reportsCheck s l = true) :
    ReportsFailures cfg s l := by
  unfold reportsCheck at h
  obtain ⟨hpc, hmain⟩ := Bool.and_eq_true_iff.mp h
  refine ⟨⟨fun r n e _ hp => ?_, fun action n e _ hp => ?_⟩, fun i job answers f e _ hm hz => ?_⟩
  · rw [hp] at hpc; cases hpc
  · rw [hp] at hpc; cases hpc
  · simp [hm, hz] at hmain

/-- The only chunk of a file cannot be read. -/
def readErrorSteps : List Label := List.flatten [oneChunkSteps, [.submit (.rand 0 0)], ticks 1,
  [.submit (.submitted 2), .kernel 0 (-5), .kernel 0 (-125), .submit (.peeked (some 0))], ticks 1,
  [.submit (.closed (.ok ()))], ticks 2, [.submit (.closed (.ok ()))], ticks 4,
  [.submit (.peeked (some 0))], ticks 5]

theorem failures_reported_readError :
    ∃ s, (system smallConfig).ReachIn (ReportsFailures smallConfig) s ∧ isDone s = true ∧
      s.failed = true ∧ s.errored = true := by
  obtain ⟨s, hs, hp⟩ := Transition.System.ReachIn.exists_of_runIn reportsFailures_of_check
    (initial_init smallConfig (smallStorage 8)) readErrorSteps
    (fun s => isDone s && s.failed) (by decide +kernel)
  obtain ⟨hd, hf⟩ := Bool.and_eq_true_iff.mp hp
  exact ⟨s, hs, hd, hf, (failures_reported hs).1 hd hf⟩

/-- A queue that shows its progress. -/
def progressConfig : Config := { smallConfig with showingProgress := true }

/-- The source of the only job cannot be opened, and the progress thread looks at the queue after
the runner was deleted and before the error is recorded. -/
def exitTooEarlySteps : List Label := List.flatten [
  addJobSteps (smallJob 8) openRefused (opensAs 2),
  [.start, .join .exitProcessNoCleanup, .main .tick], ticks 9, [.submit openRefused], ticks 2,
  [.submit (.closed (.ok ()))], ticks 1, [.submit (.closed (.ok ()))], ticks 3,
  [.progress, .progress]]

theorem failure_lost_at_exit : ∃ s, (system progressConfig).Reachable s ∧ isDone s = true ∧
    s.failed = true ∧ s.errored = false ∧ s.halted = some (.exit false) := by
  obtain ⟨s, hs, hp⟩ := exists_of_run progressConfig (smallStorage 8) exitTooEarlySteps
    (fun s => decide (isDone s = true ∧ s.failed = true ∧ s.errored = false ∧
      s.halted = some (.exit false))) (by decide +kernel)
  exact ⟨s, hs, of_decide_eq_true hp⟩

end CopyQueue

end Wcp
