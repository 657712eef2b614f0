import WcpVerified.Proofs.DescriptorProofs

/-!
# Proofs: when the descriptors of a job are closed

The last runner of a job closes its descriptors when it finishes, or when it saves its first error.
Two things go wrong. A runner that has saved an error while others were left may itself become the
last one, and is then destroyed without another look at the descriptors. And an empty file whose
destination cannot be opened is dropped without closing its source. In the runs without these two,
every descriptor that was opened is closed before it is destroyed.
-/

namespace Wcp

namespace CopyQueue

variable {cfg : Config} {s s' : State} {l : Label}

/-- No runner of the last two of a job is destroyed while the other one has saved an error. -/
def NotOvertaken (s : State) (l : Label) : Prop :=
  ∀ r caller x f, l = .submit .tick → s.submit = .deleting r caller → s.runners.get? r = some x →
    s.files.get? x.file = some f → f.chunksRemaining = 2 →
    ∀ r' x', s.runners.get? r' = some x' → r' ≠ r → x'.file = x.file → x'.savedError = none

/-- The destination of an empty file does not fail to open while the source is open. -/
def EmptyFileOpens (cfg : Config) (s : State) (l : Label) : Prop :=
  ∀ n r x f answers e, l = .submit (.opened answers) →
    s.submit = .ensure n r .dest (.reserve .opening) → s.runners.get? r = some x →
    s.files.get? x.file = some f → x.size = 0 →
    myOpen cfg.strerror f.destFd.path f.destFd.oflag answers = .error e → f.sourceFd.isOpen = false

/-- The runner has made its last call of `handleFileClose`, or will not make one. -/
def PastClose (pc : SubmitPc) (r : ℕ) (x : CopyRunner) : Prop :=
  match pc with
  | .closing caller r' _ _ => x.savedError.isSome = true ∧ (caller = .saveError → r' ≠ r)
  | .ensure _ r' _ (.failed _) => x.savedError.isSome = true ∨ r' = r ∧ x.size = 0
  | .finishing r' | .deleting r' _ => x.savedError.isSome = true ∨ r' = r
  | .recording _ caller => x.savedError.isSome = true ∨ caller.runner? = some r
  | _ => x.savedError.isSome = true

/-- The descriptors of a job whose only runner is past its last `handleFileClose` are not open. -/
def Unleaked (s : State) : Prop :=
  ∀ r x f, s.runners.get? r = some x → s.files.get? x.file = some f → f.chunksRemaining = 1 →
    PastClose s.submit r x → ∀ side, (f.fd side).isOpen = false

/-- Everything the step leaves open was open before, at a runner that was past its last
`handleFileClose` before. -/
theorem Unleaked.of_back (h : Unleaked s)
    (hback : ∀ r x' f', s'.runners.get? r = some x' → s'.files.get? x'.file = some f' →
      f'.chunksRemaining = 1 → PastClose s'.submit r x' →
      (∀ side, (f'.fd side).isOpen = false) ∨ ∃ x f, s.runners.get? r = some x ∧
        s.files.get? x.file = some f ∧ f.chunksRemaining = 1 ∧ PastClose s.submit r x ∧
        ∀ side, (f.fd side).isOpen = false → (f'.fd side).isOpen = false) : Unleaked s' := by
  intro r x' f' hx' hf' h1 hpast side
  rcases hback r x' f' hx' hf' h1 hpast with hclosed | ⟨x, f, hx, hf, h1, hpast, himp⟩
  · exact hclosed side
  · exact himp side (h r x f hx hf h1 hpast side)

/-- Only the place of the submit thread changes. -/
theorem Unleaked.of_pc (h : Unleaked s) (hr : s'.runners = s.runners) (hf : s'.files = s.files)
    (hp : ∀ r x, PastClose s'.submit r x → PastClose s.submit r x) : Unleaked s' := by
  intro r x f hx hf' h1 hpast side
  exact h r x f (hr ▸ hx) (hf ▸ hf') h1 (hp r x hpast) side

/-- The runners get no new error. -/
theorem Unleaked.of_runners (h : Unleaked s) (hf : s'.files = s.files)
    (hr : ∀ r x', s'.runners.get? r = some x' → PastClose s'.submit r x' →
      ∃ x, s.runners.get? r = some x ∧ x'.file = x.file ∧ PastClose s.submit r x) :
    Unleaked s' := by
  refine h.of_back fun r x' f' hx' hf' h1 hpast => .inr ?_
  obtain ⟨x, hx, hfile, hp⟩ := hr r x' hx' hpast
  exact ⟨x, f', hx, by rw [← hfile, ← hf]; exact hf', h1, hp, fun _ ho => ho⟩

/-- The source is opened only for files that are not empty. -/
def SourceNonempty (s : State) : Prop :=
  ∀ n r stage x, s.submit = .ensure n r .source stage → s.runners.get? r = some x → x.size ≠ 0

theorem sourceNonempty_move (hm : Move cfg s l s') (ho : State.Owned s) (h : SourceNonempty s) :
    SourceNonempty s' := by
  cases hm with
  | starting hp hr =>
    intro n r stage x hc hx
    simp only at hc
    split at hc <;> cases hc
    rw [hr] at hx
    cases hx
    assumption
  | partPush hm =>
    intro n r stage x hc hx
    have hc : s.submit = _ := hc
    obtain ⟨y, hy⟩ := ho.live r (by simp [hc, SubmitPc.hand])
    have hx := (Store.get?_push_of_some hy).symm.trans hx
    cases hx
    exact h n r stage x hc hy
  | ensured hp =>
    intro n r stage x hc
    simp only [afterEnsure] at hc
    split at hc
    · cases hc
    · split at hc <;> cases hc
  | ensureFailed hp =>
    intro n r stage x hc
    simp only [afterEnsureFailed] at hc
    split at hc <;> cases hc
  | @closeNone caller r result =>
    intro n r' stage x hc
    cases caller <;> cases result <;> cases hc
  | @closeNext caller r side result =>
    intro n r' stage x hc
    cases side
    · cases hc
    · cases caller <;> cases result <;> cases hc
  | @record e caller => intro n r stage x hc; cases caller <;> cases hc
  | @deleteShared r caller | @deleteLast r caller =>
    intro n r stage x hc; cases caller <;> cases hc
  | completion =>
    intro n r stage x hc
    dsimp only at hc
    split at hc <;> cases hc
  | @event r x =>
    intro n r stage x' hc
    dsimp only at hc
    cases hres : x.runnerResult <;> rw [hres] at hc <;> cases hc
  | _ =>
    first
    | exact h
    | (have hp := ‹s.submit = _›
       intro n r stage x hc hx
       cases hc
       exact h _ _ _ _ hp hx)
    | exact fun n r stage x hc => by cases hc

theorem reachable_sourceNonempty {ok : State → Label → Prop} (h : (system cfg).ReachIn ok s) :
    SourceNonempty s := by
  refine h.invariant ?_ fun s l s' hr hs _ hstep => sourceNonempty_move (step_move hstep).2
    (reachable_owned hr).1 hs
  rintro s ⟨storage, rfl⟩
  exact fun n r stage x hc => by cases hc

theorem pastClose_of_error {pc : SubmitPc} {r : ℕ} {x : CopyRunner}
    (h : x.savedError.isSome = true) (hp : ∀ stage result, pc ≠ .closing .saveError r stage result) :
    PastClose pc r x := by
  unfold PastClose
  split
  · refine ⟨h, ?_⟩
    rintro rfl rfl
    exact hp _ _ rfl
  · exact .inl h
  · exact .inl h
  · exact .inl h
  · exact .inl h
  · exact h

theorem error_or_hand {pc : SubmitPc} {r : ℕ} {x : CopyRunner} (h : PastClose pc r x) :
    x.savedError.isSome = true ∨ pc.hand = some r := by
  unfold PastClose at h
  split at h
  · exact .inl h.1
  · exact h.imp_right fun hc => congrArg some hc.1
  · exact h.imp_right fun hc => congrArg some hc
  · exact h.imp_right fun hc => congrArg some hc
  · exact h
  · exact .inl h

theorem runnerResult_error {x : CopyRunner} {e : Error} (h : x.runnerResult = .error e) :
    x.savedError = some e := by
  unfold CopyRunner.runnerResult at h
  split at h
  · split at h
    · cases h; assumption
    · split at h <;> cases h
  · cases h

/-- Another runner than the one whose files were closed. -/
theorem pastClose_afterClose {caller : CloseCaller} {r j : ℕ} {stage : CloseStage}
    {result result' : Option Error} {y : CopyRunner}
    (h : PastClose (afterClose caller r result') j y) (hj : j ≠ r) :
    PastClose (.closing caller r stage result) j y := by
  refine ⟨?_, fun _ => hj.symm⟩
  cases caller with
  | saveError => exact h
  | addFailed => exact h.resolve_right hj.symm
  | finished | emptyFile =>
    cases result' with
    | none => exact h.resolve_right hj.symm
    | some e => exact h.resolve_right fun hc => hj (Option.some.inj hc).symm

/-- `handleFileClose` returns, having closed the descriptors if it had to. -/
theorem Unleaked.afterClose (h : Unleaked s) {caller : CloseCaller} {r : ℕ}
    {stage : CloseStage} {result result' : Option Error} {x : CopyRunner} {f : JobFiles}
    (hp : s.submit = .closing caller r stage result) (hx : s.runners.get? r = some x)
    (hf : s.files.get? x.file = some f)
    (hclosed : f.chunksRemaining = 1 → ∀ side, (f.fd side).isOpen = false)
    (hr : s'.runners = s.runners) (hfs : s'.files = s.files)
    (hp' : s'.submit = CopyQueue.afterClose caller r result') : Unleaked s' := by
  intro j y g hy hg h1 hpast side
  rw [hr] at hy
  rw [hfs] at hg
  by_cases hj : j = r
  · subst hj
    rw [hx] at hy
    cases hy
    rw [hf] at hg
    cases hg
    exact hclosed h1 side
  · rw [hp'] at hpast
    exact h j y g hy hg h1 (hp ▸ pastClose_afterClose hpast hj) side

theorem unleaked_move (hm : Move cfg s l s') (hov : NotOvertaken s l) (hem : EmptyFileOpens cfg s l)
    (ht : Threads cfg s) (ho : State.Owned s) (hsh : State.SharedFiles cfg s) (hfds : Fds cfg s)
    (hc : Closing s) (hsrc : SourceNonempty s) (h : Unleaked s) : Unleaked s' := by
  -- the adding thread changes no object of a runner
  have hmain : ∀ {i : ℕ} {job : Job} {side : Side} {stage : ReserveStage} {g : JobFiles → JobFiles},
      s.main = .ctor i job side stage → s'.runners = s.runners →
      s'.files = s.files.modify i g → s'.submit = s.submit → Unleaked s' := by
    intro i job side stage g hm hr hf hp r x f hx hf' h1 hpast
    rw [hr] at hx
    rw [hf, Store.get?_modify_of_ne (file_ne_building hsh (by rw [hm]; rfl) hx)] at hf'
    exact h r x f hx hf' h1 (hp ▸ hpast)
  cases hm with
  | start hm hs =>
    refine h.of_pc rfl rfl fun r x hpast => pastClose_of_error hpast fun stage result hp => ?_
    have := ht.idle hs
    rw [hp] at this
    cases this
  | addCopyJob =>
    intro r x f hx hf h1 hpast
    obtain ⟨f', hf'⟩ := hsh.live r x hx
    have hf := (Store.get?_push_of_some hf').symm.trans hf
    cases hf
    exact h r x f hx hf' h1 hpast
  | ctorOpened hm => exact hmain hm rfl rfl rfl
  | ctorFailed hm => exact hmain hm rfl rfl rfl
  | beginParts hm => exact hmain hm rfl rfl rfl
  | partPush hm =>
    refine h.of_runners rfl fun r x hx hpast => ?_
    rcases Store.of_get?_push hx with ⟨rfl, rfl⟩ | ⟨-, hx⟩
    · rcases error_or_hand hpast with hc | hh
      · cases hc
      · have hh : s.submit.hand = some s.runners.next := hh
        obtain ⟨y, hy⟩ := ho.live s.runners.next (by simp [hh])
        exact absurd (Store.lt_next hy) (lt_irrefl _)
    · exact ⟨x, hx, rfl, hpast⟩
  | takeGive hp | batch hp =>
    refine h.of_runners rfl fun r x hx hpast => ?_
    obtain ⟨y, hy, ⟨-, rfl⟩ | ⟨-, rfl⟩⟩ := Store.exists_of_get?_modify hx
    · exact ⟨y, hy, rfl, by rw [hp]; exact hpast⟩
    · exact ⟨x, hy, rfl, by rw [hp]; exact hpast⟩
  | @opened n r side x f ino answers hp hr hf =>
    refine h.of_back fun j y g hy hg h1 hpast => .inr ?_
    obtain ⟨g₀, hg₀, ⟨hfile, rfl⟩ | ⟨-, rfl⟩⟩ := Store.exists_of_get?_modify hg
    · -- the job has one runner, and that has saved no error
      rw [modifyFd_chunks] at h1
      rw [hfile, hf] at hg₀
      cases hg₀
      have hj := runner_unique hsh hr hy hf h1 hfile
      subst hj
      have hy : s.runners.get? j = some y := hy
      rw [hr] at hy
      cases hy
      have hstart := ho.hand j (by rw [hp]; rfl) x hr
      rw [hp] at hstart
      have herr : x.savedError.isSome = true := hpast
      rw [hstart.error] at herr
      cases herr
    · exact ⟨y, g, hy, hg₀, h1, by rw [hp]; exact hpast, fun _ ho => ho⟩
  | @openFailed n r side x f e answers hp hr hf hfail =>
    refine h.of_back fun j y g hy hg h1 hpast => ?_
    obtain ⟨g₀, hg₀, hcase⟩ := Store.exists_of_get?_modify hg
    have hkeep : ∀ sd, (g.fd sd).isOpen = (g₀.fd sd).isOpen := by
      intro sd
      rcases hcase with ⟨-, rfl⟩ | ⟨-, rfl⟩
      · cases side <;> cases sd <;> rfl
      · rfl
    have hchunks : g.chunksRemaining = g₀.chunksRemaining := by
      rcases hcase with ⟨-, rfl⟩ | ⟨-, rfl⟩
      · exact modifyFd_chunks _ _ _
      · rfl
    rcases hpast with herr | ⟨rfl, hz⟩
    · exact .inr ⟨y, g₀, hy, hg₀, hchunks ▸ h1, by rw [hp]; exact herr,
        fun sd ho => (hkeep sd).trans ho⟩
    · -- an empty file, whose source is not open
      have hy : s.runners.get? r = some y := hy
      rw [hr] at hy
      cases hy
      rw [hf] at hg₀
      cases hg₀
      have hnever := fd_of_opening hfds hp hr hf
      cases side with
      | source => exact absurd hz (hsrc _ _ _ _ hp hr)
      | dest =>
        refine .inl fun sd => (hkeep sd).trans ?_
        cases sd with
        | source => exact hem n r x f answers e rfl hp hr hf hz hfail
        | dest => simp only [JobFiles.fd] at hnever; simp [JobFiles.fd, QueueFileDescriptor.isOpen, hnever]
  | @ensured n r side x f hp =>
    refine h.of_pc rfl rfl fun j y hpast => ?_
    rw [hp]
    simp only [afterEnsure] at hpast
    split at hpast
    · exact hpast
    · split at hpast
      · exact hpast.1
      · exact hpast
  | @ensureFailed n r side e x f hp hr =>
    refine h.of_runners rfl fun j y hy hpast => ⟨y, hy, rfl, ?_⟩
    rw [hp]
    simp only [afterEnsureFailed] at hpast
    split at hpast
    · rename_i hz
      refine hpast.imp_right fun hc => ?_
      cases hc
      have hy : s.runners.get? r = some y := hy
      rw [hr] at hy
      cases hy
      exact ⟨rfl, hz⟩
    · exact .inl hpast.1
  | closeNone hp hr hf h1 => exact h.afterClose hp hr hf (fun hc => absurd hc h1) rfl rfl rfl
  | @close caller r side result x f answer hp =>
    refine h.of_back fun j y g hy hg h1 hpast => .inr ?_
    obtain ⟨g₀, hg₀, ⟨-, rfl⟩ | ⟨-, rfl⟩⟩ := Store.exists_of_get?_modify hg
    · rw [modifyFd_chunks] at h1
      refine ⟨y, g₀, hy, hg₀, h1, by rw [hp]; exact hpast, fun sd ho => ?_⟩
      cases side <;> cases sd <;> exact ho
    · exact ⟨y, g, hy, hg₀, h1, by rw [hp]; exact hpast, fun _ ho => ho⟩
  | @notify caller r side result x f hp =>
    refine h.of_back fun j y g hy hg h1 hpast => .inr ?_
    obtain ⟨g₀, hg₀, ⟨-, rfl⟩ | ⟨-, rfl⟩⟩ := Store.exists_of_get?_modify hg
    · rw [modifyFd_chunks] at h1
      refine ⟨y, g₀, hy, hg₀, h1, by rw [hp]; exact hpast, fun sd ho => ?_⟩
      cases side <;> cases sd <;> first | exact ho | rfl
    · exact ⟨y, g, hy, hg₀, h1, by rw [hp]; exact hpast, fun _ ho => ho⟩
  | @closeNext caller r side result hp =>
    cases side with
    | source => exact h.of_pc rfl rfl fun j y hpast => by rw [hp]; exact hpast
    | dest =>
      obtain ⟨x, f, hx, hf⟩ := hand_objects ho hsh (show s.submit.hand = some r by rw [hp]; rfl)
      have hst := hc.stage _ _ _ _ _ _ hp hx hf
      refine h.afterClose hp hx hf (fun _ side => ?_) rfl rfl rfl
      cases side with
      | source => exact hst.2.1
      | dest => exact hst.2.2
  | @record e caller hp =>
    refine h.of_pc rfl rfl fun j y hpast => ?_
    rw [hp]
    cases caller with
    | addFailed => exact .inl hpast
    | finished | completion | emptyFile => exact hpast.imp_right fun hc => congrArg some hc
  | @deleteShared r caller x f hp hr hf hj h1 =>
    refine h.of_back fun j y g hy hg hone hpast => ?_
    obtain ⟨hjr, hy⟩ := Store.of_get?_erase hy
    have herr : y.savedError.isSome = true := (error_or_hand hpast).resolve_right (by simp)
    obtain ⟨g₀, hg₀, ⟨hfile, rfl⟩ | ⟨-, rfl⟩⟩ := Store.exists_of_get?_modify hg
    · -- the other one of the last two
      rw [hfile, hf] at hg₀
      cases hg₀
      have hpos := hsh.chunks _ _ hf
      have := runnersOf_pos hr
      dsimp only at hone
      have := hov r caller x f rfl hp hr hf (by omega) j y hy hjr hfile
      rw [this] at herr
      cases herr
    · exact .inr ⟨y, g, hy, hg₀, hone, by rw [hp]; exact .inl herr, fun _ ho => ho⟩
  | @deleteLast r caller x f hp hr hf hj h1 =>
    refine h.of_back fun j y g hy hg hone hpast => ?_
    have herr : y.savedError.isSome = true := (error_or_hand hpast).resolve_right (by simp)
    exact .inr ⟨y, g, (Store.of_get?_erase hy).2, (Store.of_get?_erase hg).2, hone,
      by rw [hp]; exact .inl herr, fun _ ho => ho⟩
  | @completion i c x y f hp hcq hr hf hy =>
    refine h.of_runners rfl fun j z hz hpast => ?_
    obtain ⟨z₀, hz₀, ⟨rfl, rfl⟩ | ⟨hj, rfl⟩⟩ := Store.exists_of_get?_modify hz
    · rw [hr] at hz₀
      cases hz₀
      refine ⟨x, hr, CopyRunner.onCompletionEvent_same.file, ?_⟩
      rw [hp]
      dsimp only at hpast
      split at hpast
      · exact absurd rfl (hpast.2 rfl)
      · rename_i hs
        have hsome : y.savedError.isSome = true := hy ▸ hpast
        rw [savesError, hsome, Bool.and_true, Bool.not_eq_true, Option.isNone_eq_false_iff] at hs
        exact hs
    · refine ⟨z, hz₀, rfl, ?_⟩
      rw [hp]
      dsimp only at hpast
      split at hpast
      · exact hpast.1
      · exact hpast
  | @event r x f hp hr =>
    refine h.of_runners rfl fun j y hy hpast => ⟨y, hy, rfl, ?_⟩
    rw [hp]
    dsimp only at hpast
    cases hres : x.runnerResult <;> rw [hres] at hpast
    · rcases hpast with herr | hc
      · exact herr
      · cases hc
        have hy : s.runners.get? r = some y := hy
        rw [hr] at hy
        cases hy
        change x.savedError.isSome = true
        rw [runnerResult_error hres]
        rfl
    · exact hpast
    · exact hpast.1
    · exact hpast
  | _ =>
    first
    | exact h
    | (have hp := ‹s.submit = _›
       exact h.of_pc rfl rfl fun _ _ hc => by rw [hp]; exact hc)

/-- The steps that leave no descriptor open. -/
def ClosesFiles (cfg : Config) (s : State) (l : Label) : Prop :=
  NotOvertaken s l ∧ EmptyFileOpens cfg s l

theorem reachIn_unleaked {ok : State → Label → Prop} (hok : ∀ s l, ok s l → ClosesFiles cfg s l)
    (h : (system cfg).ReachIn ok s) : Unleaked s := by
  refine h.invariant ?_ fun s l s' hr hs hc hstep => unleaked_move (step_move hstep).2
    (hok s l hc).1 (hok s l hc).2 (reachable_threads hr) (reachable_owned hr).1
    (reachable_sharedFiles hr) (reachable_fds hr) (reachable_closing hr)
    (reachable_sourceNonempty hr) hs
  rintro s ⟨storage, rfl⟩
  exact fun r x f hx => by cases hx

/-- The descriptors are not open when they are destroyed. -/
theorem Unleaked.of_deleting (h : Unleaked s) {r : ℕ} {caller : DeleteCaller} {x : CopyRunner}
    {f : JobFiles} (hp : s.submit = .deleting r caller) (hr : s.runners.get? r = some x)
    (hf : s.files.get? x.file = some f) (h1 : f.chunksRemaining = 1) (side : Side) :
    (f.fd side).isOpen = false :=
  h r x f hr hf h1 (by rw [hp]; exact .inr rfl) side

theorem debugFailures_move (hm : Move cfg s l s') (ho : State.Owned s)
    (hsh : State.SharedFiles cfg s) (hc : Closing s) (hu : Unleaked s) (h : s.debugFailures = []) :
    s'.debugFailures = [] := by
  cases hm with
  | checkClosed hp hr hf hd => exact absurd hd (ensured_not_closed ho hsh hc hp hr hf)
  | deleteLast hp hr hf hj h1 =>
    have hsrc := hu.of_deleting hp hr hf h1 .source
    have hdst := hu.of_deleting hp hr hf h1 .dest
    simp only [JobFiles.fd] at hsrc hdst
    simp [h, destroyedFailures, hsrc, hdst]
  | _ => exact h

/-- In the runs in which no runner is overtaken by an error of the other one of the last two, and no
empty file fails to open its destination with its source open: each descriptor is opened at most
once and closed at most once, those that were opened have been closed when the last runner of their
job is destroyed, and neither `ensureOpened` nor the destructor meets a descriptor it asserts
against. -/
theorem descriptors_closed_once (h : (system cfg).ReachIn (ClosesFiles cfg) s) :
    s.debugFailures = [] ∧
    (∀ i f side, s.files.get? i = some f →
      (f.fd side).closes ≤ (f.fd side).opens ∧ (f.fd side).opens ≤ 1) ∧
    ∀ r caller x f, s.submit = .deleting r caller → s.runners.get? r = some x →
      s.files.get? x.file = some f → f.chunksRemaining = 1 → ∀ side,
        ((f.fd side).fd = .closed ∨ (f.fd side).fd = .neverOpened) ∧
        (f.fd side).closes = (f.fd side).opens := by
  have hd := reachable_descs h
  refine ⟨?_, fun i f side hf => (hd.hist i f side hf).le, fun r caller x f hp hr hf h1 side => ?_⟩
  · refine h.invariant (P := fun s => s.debugFailures = []) ?_ fun s l s' hr hs _ hstep => ?_
    · rintro s ⟨storage, rfl⟩
      rfl
    · exact debugFailures_move (step_move hstep).2 (reachable_owned hr).1 (reachable_sharedFiles hr)
        (reachable_closing hr) (reachIn_unleaked (fun _ _ hc => hc) hr) hs
  · exact (hd.hist _ f side hf).eq_of_not_open
      ((reachIn_unleaked (fun _ _ hc => hc) h).of_deleting hp hr hf h1 side)

/-- A check that implies `NotOvertaken`: no runner is destroyed when its job has two left. -/
def notOvertakenCheck (s : State) : Bool :=
  match s.submit with
  | .deleting r _ => (s.runners.get? r).all fun x =>
    (s.files.get? x.file).all fun f => f.chunksRemaining != 2
  | _ => true

theorem notOvertaken_of_check (h : notOvertakenCheck s = true) : NotOvertaken s l := by
  intro r caller x f _ hp hr hf h2
  simp [notOvertakenCheck, hp, hr, hf, h2] at h

/-- A check that implies `ClosesFiles`: the submit thread opens no file either. -/
def closesFilesCheck (s : State) (l : Label) : Bool :=
  notOvertakenCheck s && match l with
  | .submit (.opened _) => false
  | _ => true

theorem closesFiles_of_check (s : State) (l : Label) (h : closesFilesCheck s l = true) :
    ClosesFiles cfg s l := by
  unfold closesFilesCheck at h
  obtain ⟨hdel, hopen⟩ := Bool.and_eq_true_iff.mp h
  refine ⟨notOvertaken_of_check hdel, fun n r x f answers e hl => ?_⟩
  subst hl
  cases hopen

/-- The requests of one chunk complete in full, and its runner closes the files. -/
def wholeCopySteps : List Label := List.flatten [oneChunkSteps, [.submit (.rand 0 0)], ticks 1,
  [.submit (.submitted 2), .kernel 0 8, .kernel 0 8, .submit (.peeked (some 0))], ticks 2,
  [.submit (.peeked (some 0))], ticks 2, [.submit (.closed (.ok ()))], ticks 2,
  [.submit (.closed (.ok ()))], ticks 3]

theorem descriptors_closed_once_wholeCopy :
    ∃ s x f, (system smallConfig).ReachIn (ClosesFiles smallConfig) s ∧
      s.submit = .deleting 0 .completion ∧ s.runners.get? 0 = some x ∧
      s.files.get? x.file = some f ∧ f.destFd.opens = 1 ∧ f.destFd.closes = 1 := by
  obtain ⟨s, hs, hp⟩ := Transition.System.ReachIn.exists_of_runIn closesFiles_of_check
    (initial_init smallConfig (smallStorage 8)) wholeCopySteps
    (fun s => decide (s.submit = .deleting 0 .completion) && (s.runners.get? 0).any fun x =>
      (s.files.get? x.file).any fun f => f.chunksRemaining == 1 && f.destFd.opens == 1)
    (by decide +kernel)
  simp only [Bool.and_eq_true, decide_eq_true_eq, Option.any_eq_true, beq_iff_eq] at hp
  obtain ⟨hpc, x, hx, f, hf, h1, hopens⟩ := hp
  have hclosed := ((descriptors_closed_once hs).2.2 0 _ x f hpc hx hf h1 .dest).2
  exact ⟨s, x, f, hs, hpc, hx, hf, hopens, hclosed.trans hopens⟩

/-- The first chunk of a file of two fails to be read, and the second one is copied before the
cancelled write of the first is seen. -/
def overtakenSteps : List Label := List.flatten [
  addJobSteps (smallJob 16) (opensAs 1) (opensAs 2), List.replicate 3 (.main .tick),
  [.start, .join .return], ticks 10, [.submit (.rand 0 0)], ticks 9, [.submit (.rand 0 0)], ticks 1,
  [.submit (.submitted 4), .kernel 0 (-5), .kernel 0 (-125), .kernel 1 8, .kernel 1 8],
  -- the failed read: two chunks remain, so nothing is closed
  [.submit (.peeked (some 0))], ticks 3,
  -- the second chunk: two chunks remain still
  [.submit (.peeked (some 1))], ticks 2, [.submit (.peeked (some 1))], ticks 5,
  -- the cancelled write: the last runner only counts it
  [.submit (.peeked (some 0))], ticks 3]

theorem descriptor_destroyed_open :
    ∃ s, (system smallConfig).Reachable s ∧ s.debugFailures = [.destroyedOpen, .destroyedOpen] := by
  obtain ⟨s, hs, hp⟩ := exists_of_run smallConfig (smallStorage 16) overtakenSteps
    (fun s => decide (s.debugFailures = [.destroyedOpen, .destroyedOpen])) (by decide +kernel)
  exact ⟨s, hs, of_decide_eq_true hp⟩

end CopyQueue

end Wcp
