import WcpVerified.Proofs.ReservationProofs

/-!
# Proofs: descriptors are opened and closed once

What holds in every run: a descriptor is opened at most once and closed at most once, and only when
its job has one runner left, which is not started again. That the last runner of a job always closes
the descriptors is not true; `WcpVerified.Proofs.LeakProofs` has the condition.
-/

namespace Wcp

namespace QueueFileDescriptor

/-- How often a descriptor was opened and closed, by its state. Between `close` and `notifyClosed`
it still counts as open. -/
def Hist (d : QueueFileDescriptor) : Prop :=
  match d.fd with
  | .neverOpened => d.opens = 0 ∧ d.closes = 0
  | .opened _ => d.opens = 1 ∧ d.closes ≤ 1 ∧ d.openFailed = false
  | .closed => d.opens = 1 ∧ d.closes = 1 ∧ d.openFailed = false

variable {d : QueueFileDescriptor}

theorem Hist.openedAs (h : d.Hist) (hd : d.fd = .neverOpened) (low : Bool) (ino : Ino) :
    (d.openedAs low ino).Hist := by
  rw [Hist, hd] at h
  exact ⟨by rw [QueueFileDescriptor.openedAs, h.1],
    by rw [QueueFileDescriptor.openedAs, h.2]; omega, rfl⟩

theorem Hist.failedOpen (h : d.Hist) (hd : d.fd = .neverOpened) : d.failedOpen.Hist := by
  rw [Hist, hd] at h
  simpa only [Hist, QueueFileDescriptor.failedOpen, hd] using h

/-- The last attempt to open a descriptor did not fail if it was opened. -/
theorem Hist.openFailed_eq (h : d.Hist) (hd : d.fd ≠ .neverOpened) : d.openFailed = false := by
  unfold Hist at h
  split at h
  · exact absurd ‹_› hd
  · exact h.2.2
  · exact h.2.2

theorem Hist.closedByKernel (h : d.Hist) (ho : d.isOpen = true) (hc : d.closes ≠ 1) :
    d.closedByKernel.Hist ∧ d.closedByKernel.closes = 1 := by
  unfold isOpen at ho
  split at ho
  · rename_i ino hd
    rw [Hist, hd] at h
    obtain ⟨hopens, hcloses, hfailed⟩ := h
    simp only [Hist, QueueFileDescriptor.closedByKernel, hd]
    exact ⟨⟨hopens, by omega, hfailed⟩, by omega⟩
  · cases ho

theorem Hist.notifyClosed (h : d.Hist) (ho : d.isOpen = true) (hc : d.closes = 1) :
    d.notifyClosed.Hist := by
  unfold isOpen at ho
  split at ho
  · rename_i ino hd
    rw [Hist, hd] at h
    exact ⟨h.1, hc, h.2.2⟩
  · cases ho

theorem Hist.le (h : d.Hist) : d.closes ≤ d.opens ∧ d.opens ≤ 1 := by
  unfold Hist at h
  split at h <;> omega

theorem Hist.eq_of_not_open (h : d.Hist) (ho : d.isOpen = false) :
    (d.fd = .closed ∨ d.fd = .neverOpened) ∧ d.closes = d.opens := by
  unfold Hist at h
  split at h
  · rename_i hd
    exact ⟨.inr hd, by omega⟩
  · rename_i hd
    simp [isOpen, hd] at ho
  · rename_i hd
    exact ⟨.inl hd, by omega⟩

end QueueFileDescriptor

/-- The descriptor between `close` and `notifyClosed`. -/
def SubmitPc.notifying : SubmitPc → Option (ℕ × Side)
  | .closing _ r (.notify side) _ => some (r, side)
  | _ => none

@[simp] theorem JobFiles.fd_modifyFd (f : JobFiles) (g : QueueFileDescriptor → QueueFileDescriptor)
    (side : Side) : (f.modifyFd g side).fd side = g (f.fd side) := by
  cases side <;> rfl

theorem JobFiles.fd_modifyFd_of_ne (f : JobFiles) (g : QueueFileDescriptor → QueueFileDescriptor)
    {side side' : Side} (h : side' ≠ side) : (f.modifyFd g side).fd side' = f.fd side' := by
  cases side <;> cases side' <;> first | rfl | exact absurd rfl h

/-- Where a descriptor comes from when one side of a job was changed. -/
theorem fd_of_modifyFd {files : Store JobFiles} {i j : ℕ} {side : Side} {f' : JobFiles}
    {g : QueueFileDescriptor → QueueFileDescriptor} (side' : Side)
    (h : (files.modify j fun y => y.modifyFd g side).get? i = some f') :
    ∃ f, files.get? i = some f ∧
      (i = j ∧ side' = side ∧ f'.fd side' = g (f.fd side') ∨
        ¬ (i = j ∧ side' = side) ∧ f'.fd side' = f.fd side') := by
  obtain ⟨f, hf, ⟨rfl, rfl⟩ | ⟨hij, rfl⟩⟩ := Store.exists_of_get?_modify h
  · refine ⟨f, hf, ?_⟩
    by_cases hs : side' = side
    · subst hs; exact .inl ⟨rfl, rfl, f.fd_modifyFd g side'⟩
    · exact .inr ⟨fun hc => hs hc.2, f.fd_modifyFd_of_ne g hs⟩
  · exact ⟨f', hf, .inr ⟨fun hc => hij hc.1, rfl⟩⟩

namespace CopyQueue

variable {cfg : Config} {s s' : State} {l : Label}

/-! ## The descriptors of a job that is being constructed -/

/-- The constructor of a descriptor works on one that was never opened. -/
def CtorFds (s : State) : Prop :=
  ∀ i job side stage f, s.main = .ctor i job side stage → s.files.get? i = some f →
    (stage ≠ .done → (f.fd side).fd = .neverOpened) ∧
    (side = .source → f.destFd.fd = .neverOpened)

theorem CtorFds.of_main {job : Job} {i : ℕ} {side side' : Side} {stage stage' : ReserveStage}
    (h : CtorFds s) (hm : s.main = .ctor i job side stage) (hf : s'.files = s.files)
    (hm' : s'.main = .ctor i job side' stage')
    (hnext : ∀ f : JobFiles, (stage ≠ .done → (f.fd side).fd = .neverOpened) ∧
      (side = .source → f.destFd.fd = .neverOpened) →
      (stage' ≠ .done → (f.fd side').fd = .neverOpened) ∧
      (side' = .source → f.destFd.fd = .neverOpened)) : CtorFds s' := by
  intro j job' sd st f hj hget
  rw [hm'] at hj
  cases hj
  exact hnext f (h i job side stage f hm (hf ▸ hget))

theorem ctorFds_move (hm : Move cfg s l s') (hsh : State.SharedFiles cfg s) (h : CtorFds s) :
    CtorFds s' := by
  -- the submit thread changes the descriptors of runners only
  have hother : ∀ {j : ℕ} {x : CopyRunner}, s.runners.get? j = some x →
      ∀ files' : Store JobFiles, (∀ i, i ≠ x.file → files'.get? i = s.files.get? i) →
      ∀ i job side stage f, s.main = .ctor i job side stage → files'.get? i = some f →
        (stage ≠ .done → (f.fd side).fd = .neverOpened) ∧
        (side = .source → f.destFd.fd = .neverOpened) := by
    intro j x hx files' hfiles i job side stage f hmain hf
    have hne := file_ne_building hsh (show building s.main = some (i, job, none) by rw [hmain]; rfl) hx
    rw [hfiles i hne.symm] at hf
    exact h i job side stage f hmain hf
  cases hm with
  | addCopyJob =>
    intro i job side stage f hmain hf
    cases hmain
    simp only [beginCopyJob, Store.get?_push_self, Option.some.injEq] at hf
    subst hf
    exact ⟨fun _ => rfl, fun _ => rfl⟩
  | ctorLoad hm => exact h.of_main hm rfl rfl fun f hf => ⟨fun _ => hf.1 nofun, hf.2⟩
  | ctorSkip hm => exact h.of_main hm rfl rfl fun f hf => ⟨fun hc => absurd rfl hc, hf.2⟩
  | ctorReserve hm => exact h.of_main hm rfl rfl fun f hf => ⟨fun _ => hf.1 nofun, hf.2⟩
  | ctorNext hm => exact h.of_main hm rfl rfl fun f hf => ⟨fun _ => hf.2 rfl, nofun⟩
  | ctorOpened hm hf | ctorFailed hm hf =>
    intro i job side stage f hmain hget
    cases hmain
    rw [Store.get?_modify_self hf] at hget
    cases hget
    refine ⟨fun hc => absurd rfl hc, ?_⟩
    rintro rfl
    exact (h _ _ _ _ _ hm hf).2 rfl
  | partPush hm =>
    intro i job side stage f hmain
    simp only [partStep] at hmain
    split at hmain <;> cases hmain
  | joinFinish => exact fun i job side stage f hmain => by cases hmain
  | opened hp hr | openFailed hp hr | close hp hr | notify hp hr | deleteShared hp hr =>
    exact hother hr _ fun i hi => Store.get?_modify_of_ne hi
  | deleteLast hp hr => exact hother hr _ fun i hi => Store.get?_erase_of_ne hi
  | _ => first | exact h | exact fun i job side stage f hmain => by cases hmain

theorem reachable_ctorFds {ok : State → Label → Prop} (h : (system cfg).ReachIn ok s) :
    CtorFds s := by
  refine h.invariant ?_ fun s l s' hr hs _ hstep =>
    ctorFds_move (step_move hstep).2 (reachable_sharedFiles hr) hs
  rintro s ⟨storage, rfl⟩
  exact fun i job side stage f hmain => by cases hmain

/-! ## Opened once, closed once -/

/-- The history of the descriptors. -/
structure Descs (s : State) : Prop where
  hist : ∀ i f side, s.files.get? i = some f → (f.fd side).Hist
  busy : ∀ i f side, s.files.get? i = some f → (f.fd side).isOpen = true →
    (f.fd side).closes = 1 → ∃ r x, s.submit.notifying = some (r, side) ∧
      s.runners.get? r = some x ∧ x.file = i
  notify : ∀ r side x f, s.submit.notifying = some (r, side) → s.runners.get? r = some x →
    s.files.get? x.file = some f → (f.fd side).isOpen = true ∧ (f.fd side).closes = 1

theorem descs_initial (storage : Storage) : Descs (initial cfg storage) where
  hist i f side hf := by cases hf
  busy i f side hf := by cases hf
  notify r side x f hr := by cases hr

/-- Away from `notifyClosed`, no open descriptor has been closed. -/
theorem Descs.closes_ne (h : Descs s) (hn : s.submit.notifying = none) {i : ℕ} {f : JobFiles}
    {side : Side} (hf : s.files.get? i = some f) (ho : (f.fd side).isOpen = true) :
    (f.fd side).closes ≠ 1 := by
  intro hc
  obtain ⟨r, x, hr, -⟩ := h.busy i f side hf ho hc
  rw [hn] at hr
  cases hr

/-- The descriptors of `files'` have a history, and those closed and not yet marked so were it
before. -/
def Derived (files files' : Store JobFiles) : Prop :=
  ∀ i f' side, files'.get? i = some f' → (f'.fd side).Hist ∧
    ((f'.fd side).isOpen = true → (f'.fd side).closes = 1 →
      ∃ f, files.get? i = some f ∧ (f.fd side).isOpen = true ∧ (f.fd side).closes = 1)

/-- A step of the submit thread that starts and ends away from `notifyClosed`. -/
theorem Descs.of_submit (h : Descs s) (hn : s.submit.notifying = none)
    (hn' : s'.submit.notifying = none) (hf : Derived s.files s'.files) : Descs s' where
  hist i f' side hf' := (hf i f' side hf').1
  busy i f' side hf' ho hc := by
    obtain ⟨f, hf, ho, hc⟩ := (hf i f' side hf').2 ho hc
    exact absurd hc (h.closes_ne hn hf ho)
  notify r side x f hr := by rw [hn'] at hr; cases hr

theorem hand_of_notifying {pc : SubmitPc} {r : ℕ} {side : Side}
    (h : pc.notifying = some (r, side)) : pc.hand = some r := by
  unfold SubmitPc.notifying at h
  split at h
  · cases h; rfl
  · cases h

/-- A step that leaves the submit thread and the objects of the runners alone. -/
theorem Descs.of_main (h : Descs s) (ho : State.Owned s) (hn : s'.submit = s.submit)
    (hr : ∀ r x, s.runners.get? r = some x → s'.runners.get? r = some x)
    (hf : Derived s.files s'.files)
    (hold : ∀ r x, s.runners.get? r = some x → s'.files.get? x.file = s.files.get? x.file) :
    Descs s' where
  hist i f' side hf' := (hf i f' side hf').1
  busy i f' side hf' hopen hc := by
    obtain ⟨f, hf, hopen, hc⟩ := (hf i f' side hf').2 hopen hc
    obtain ⟨r, x, hr', hx, hxi⟩ := h.busy i f side hf hopen hc
    exact ⟨r, x, hn ▸ hr', hr r x hx, hxi⟩
  notify r side x f hnot hx hf' := by
    rw [hn] at hnot
    obtain ⟨y, hy⟩ := ho.live r (by simp [hand_of_notifying hnot])
    rw [hr r y hy] at hx
    cases hx
    rw [hold r x hy] at hf'
    exact h.notify r side x f hnot hy hf'

theorem afterClose_notifying (caller : CloseCaller) (r : ℕ) (result : Option Error) :
    (afterClose caller r result).notifying = none := by
  cases caller <;> cases result <;> rfl

theorem afterEnsure_notifying (n r : ℕ) (side : Side) (x : CopyRunner) :
    (afterEnsure n r side x).notifying = none := by
  unfold afterEnsure
  split
  · rfl
  · split <;> rfl

theorem afterEnsureFailed_notifying (n r : ℕ) (x : CopyRunner) (e : Error) :
    (afterEnsureFailed n r x e).notifying = none := by
  unfold afterEnsureFailed
  split <;> rfl

theorem notifying_of_not_alive {pc : SubmitPc} (h : pc.alive = false) : pc.notifying = none := by
  cases pc <;> first | rfl | cases h

section Moves

theorem Descs.derived (h : Descs s) : Derived s.files s.files :=
  fun i f side hf => ⟨h.hist i f side hf, fun ho hc => ⟨f, hf, ho, hc⟩⟩

theorem Descs.derived_push (h : Descs s) (job : Job) :
    Derived s.files (s.files.push (.create job)) := by
  intro i f side hf
  rcases Store.of_get?_push hf with ⟨-, rfl⟩ | ⟨-, hf⟩
  · cases side <;> exact ⟨⟨rfl, rfl⟩, nofun⟩
  · exact h.derived i f side hf

theorem Descs.derived_modify (h : Descs s) {j : ℕ} {g : JobFiles → JobFiles}
    (hg : ∀ f side, s.files.get? j = some f → ((g f).fd side).Hist ∧
      (((g f).fd side).isOpen = true → ((g f).fd side).closes = 1 →
        (f.fd side).isOpen = true ∧ (f.fd side).closes = 1)) :
    Derived s.files (s.files.modify j g) := by
  intro i f' side hf'
  obtain ⟨f, hf, ⟨rfl, rfl⟩ | ⟨-, rfl⟩⟩ := Store.exists_of_get?_modify hf'
  · exact ⟨(hg f side hf).1, fun ho hc => ⟨f, hf, (hg f side hf).2 ho hc⟩⟩
  · exact h.derived i f' side hf

theorem Descs.derived_erase (h : Descs s) (j : ℕ) : Derived s.files (s.files.erase j) := by
  intro i f side hf
  have hf := (Store.of_get?_erase hf).2
  exact ⟨h.hist i f side hf, fun ho hc => ⟨f, hf, ho, hc⟩⟩

/-- A change of `chunksRemaining`. -/
theorem Descs.derived_chunks (h : Descs s) (j : ℕ) (k : JobFiles → ℕ) :
    Derived s.files (s.files.modify j fun y => { y with chunksRemaining := k y }) := by
  refine h.derived_modify fun f side hf => ?_
  have := h.hist j f side hf
  cases side <;> exact ⟨this, fun ho hc => ⟨ho, hc⟩⟩

/-- A change of the descriptor of one side. -/
theorem Descs.derived_modifyFd (h : Descs s) {j : ℕ} {side : Side}
    {g : QueueFileDescriptor → QueueFileDescriptor}
    (hg : ∀ f, s.files.get? j = some f → (f.fd side).Hist → (g (f.fd side)).Hist ∧
      ((g (f.fd side)).isOpen = true → (g (f.fd side)).closes = 1 →
        (f.fd side).isOpen = true ∧ (f.fd side).closes = 1)) :
    Derived s.files (s.files.modify j fun y => y.modifyFd g side) := by
  intro i f' side' hf'
  obtain ⟨f, hf, ⟨rfl, rfl, he⟩ | ⟨-, he⟩⟩ := fd_of_modifyFd side' hf'
  · rw [he]
    have := hg f hf (h.hist i f side' hf)
    exact ⟨this.1, fun ho hc => ⟨f, hf, this.2 ho hc⟩⟩
  · rw [he]
    exact ⟨h.hist i f side' hf, fun ho hc => ⟨f, hf, ho, hc⟩⟩

/-- A successful open of a descriptor that was never opened. -/
theorem Descs.derived_opened (h : Descs s) {j : ℕ} {side : Side} {low : Bool} {ino : Ino}
    (hd : ∀ f, s.files.get? j = some f → (f.fd side).fd = .neverOpened) :
    Derived s.files (s.files.modify j fun y => y.modifyFd (·.openedAs low ino) side) := by
  refine h.derived_modifyFd fun f hf hh => ⟨hh.openedAs (hd f hf) low ino, fun _ hc => ?_⟩
  rw [QueueFileDescriptor.Hist, hd f hf] at hh
  have hz : (f.fd side).closes = 1 := hc
  omega

theorem Descs.derived_failedOpen (h : Descs s) {j : ℕ} {side : Side}
    (hd : ∀ f, s.files.get? j = some f → (f.fd side).fd = .neverOpened) :
    Derived s.files (s.files.modify j fun y => y.modifyFd (·.failedOpen) side) :=
  h.derived_modifyFd fun f hf hh => ⟨hh.failedOpen (hd f hf), fun ho hc => ⟨ho, hc⟩⟩

/-- At the end of the reservation, the descriptor to be opened was never opened. -/
theorem fd_of_opening (hfds : Fds cfg s) {n r : ℕ} {side : Side} {x : CopyRunner} {f : JobFiles}
    (hp : s.submit = .ensure n r side (.reserve .opening)) (hr : s.runners.get? r = some x)
    (hf : s.files.get? x.file = some f) : (f.fd side).fd = .neverOpened := by
  have ha := hfds.admitted r x f (by rw [hp]; rfl) hr hf
  rw [hp] at ha
  cases side with
  | source => exact ha.1
  | dest => exact ha.2

theorem descs_move (hm : Move cfg s l s') (ht : Threads cfg s) (ho : State.Owned s)
    (hsh : State.SharedFiles cfg s) (hfds : Fds cfg s) (hctor : CtorFds s) (h : Descs s) :
    Descs s' := by
  have hbuilding : ∀ {i job side stage}, s.main = .ctor i job side stage → ∀ g r x,
      s.runners.get? r = some x → (s.files.modify i g).get? x.file = s.files.get? x.file :=
    fun hm g r x hx => Store.get?_modify_of_ne (file_ne_building hsh (by rw [hm]; rfl) hx)
  cases hm with
  | start hm hs =>
    exact h.of_submit (notifying_of_not_alive (ht.idle hs)) rfl h.derived
  | addCopyJob =>
    refine h.of_main ho rfl (fun _ _ hx => hx) (h.derived_push _) fun r x hx => ?_
    obtain ⟨f, hf⟩ := hsh.live r x hx
    rw [hf]
    exact Store.get?_push_of_some hf
  | ctorOpened hm hf =>
    refine h.of_main ho rfl (fun _ _ hx => hx) (h.derived_opened fun f hf => ?_) (hbuilding hm _)
    exact (hctor _ _ _ _ _ hm hf).1 nofun
  | ctorFailed hm hf =>
    refine h.of_main ho rfl (fun _ _ hx => hx) (h.derived_failedOpen fun f hf => ?_) (hbuilding hm _)
    exact (hctor _ _ _ _ _ hm hf).1 nofun
  | beginParts hm =>
    exact h.of_main ho rfl (fun _ _ hx => hx) (h.derived_chunks _ _) (hbuilding hm _)
  | partPush hm =>
    exact h.of_main ho rfl (fun _ _ hx => Store.get?_push_of_some hx) h.derived fun _ _ _ => rfl
  | opened hp hr hf =>
    refine h.of_submit (by rw [hp]; rfl) rfl (h.derived_opened fun f hf => ?_)
    exact fd_of_opening hfds hp hr hf
  | openFailed hp hr =>
    refine h.of_submit (by rw [hp]; rfl) rfl (h.derived_failedOpen fun f hf => ?_)
    exact fd_of_opening hfds hp hr hf
  | ensured hp => exact h.of_submit (by rw [hp]; rfl) (afterEnsure_notifying ..) h.derived
  | ensureFailed hp => exact h.of_submit (by rw [hp]; rfl) (afterEnsureFailed_notifying ..) h.derived
  | closeNone hp => exact h.of_submit (by rw [hp]; rfl) (afterClose_notifying ..) h.derived
  | @closeNext caller r side result hp =>
    cases side with
    | source => exact h.of_submit (by rw [hp]; rfl) rfl h.derived
    | dest => exact h.of_submit (by rw [hp]; rfl) (afterClose_notifying ..) h.derived
  | @close caller r side result x f answer hp hr hf hopen =>
    have hn : s.submit.notifying = none := by rw [hp]; rfl
    have hclosed := (h.hist _ f side hf).closedByKernel hopen (h.closes_ne hn hf hopen)
    refine ⟨fun i f' side' hf' => ?_, fun i f' side' hf' ho' hc => ?_, fun j side' y g hj hy hg => ?_⟩
    · obtain ⟨g, hg, ⟨rfl, rfl, he⟩ | ⟨-, he⟩⟩ := fd_of_modifyFd side' hf' <;> rw [he]
      · rw [hf] at hg
        cases hg
        exact hclosed.1
      · exact h.hist i g side' hg
    · obtain ⟨g, hg, ⟨rfl, rfl, -⟩ | ⟨-, he⟩⟩ := fd_of_modifyFd side' hf'
      · exact ⟨r, x, rfl, hr, rfl⟩
      · rw [he] at ho' hc
        exact absurd hc (h.closes_ne hn hg ho')
    · cases hj
      rw [show s.runners.get? r = some y from hy] at hr
      cases hr
      rw [Store.get?_modify_self hf] at hg
      cases hg
      rw [JobFiles.fd_modifyFd]
      exact ⟨hopen, hclosed.2⟩
  | @notify caller r side result x f hp hr hf =>
    have hn : s.submit.notifying = some (r, side) := by rw [hp]; rfl
    have hnow := h.notify r side x f hn hr hf
    refine ⟨fun i f' side' hf' => ?_, fun i f' side' hf' ho' hc => ?_, fun j side' y g hj => by cases hj⟩
    · obtain ⟨g, hg, ⟨rfl, rfl, he⟩ | ⟨-, he⟩⟩ := fd_of_modifyFd side' hf' <;> rw [he]
      · rw [hf] at hg
        cases hg
        exact (h.hist _ f side' hf).notifyClosed hnow.1 hnow.2
      · exact h.hist i g side' hg
    · -- another descriptor cannot be between its two calls
      obtain ⟨g, hg, ⟨rfl, rfl, he⟩ | ⟨hne, he⟩⟩ := fd_of_modifyFd side' hf' <;> rw [he] at ho' hc
      · cases ho'
      · obtain ⟨r', x', hr', hx', rfl⟩ := h.busy i g side' hg ho' hc
        rw [hn] at hr'
        cases hr'
        rw [hr] at hx'
        cases hx'
        exact absurd ⟨rfl, rfl⟩ hne
  | @record e caller hp => cases caller <;> exact h.of_submit (by rw [hp]; rfl) rfl h.derived
  | @deleteShared r caller x f hp =>
    exact h.of_submit (by rw [hp]; rfl) (by cases caller <;> rfl) (h.derived_chunks _ _)
  | @deleteLast r caller x f hp =>
    exact h.of_submit (by rw [hp]; rfl) (by cases caller <;> rfl) (h.derived_erase _)
  | completion hp =>
    refine h.of_submit (by rw [hp]; rfl) ?_ h.derived
    dsimp only
    split <;> rfl
  | @event r x f hp =>
    refine h.of_submit (by rw [hp]; rfl) ?_ h.derived
    dsimp only
    cases x.runnerResult <;> rfl
  | _ =>
    first
    | exact ⟨h.hist, h.busy, h.notify⟩
    | (have hp := ‹s.submit = _›
       exact h.of_submit (by rw [hp]; rfl) rfl h.derived)

end Moves

theorem reachable_descs {ok : State → Label → Prop} (h : (system cfg).ReachIn ok s) : Descs s := by
  refine h.invariant ?_ fun s l s' hr hs _ hstep => descs_move (step_move hstep).2
    (reachable_threads hr) (reachable_owned hr).1 (reachable_sharedFiles hr) (reachable_fds hr)
    (reachable_ctorFds hr) hs
  rintro s ⟨storage, rfl⟩
  exact descs_initial storage

/-! ## A closed descriptor belongs to a runner that is not started again -/

/-- The runner whose files are being closed, or that is about to be destroyed. -/
def dying : SubmitPc → Option ℕ
  | .closing _ r _ _ | .finishing r | .deleting r _ => some r
  | .recording _ caller => caller.runner?
  | _ => none

/-- How far `handleFileClose` has come. Past its test, the runner is the last one of its job. -/
def StageOk (f : JobFiles) : CloseStage → Prop
  | .enter => True
  | .close .source | .notify .source => f.chunksRemaining = 1
  | .next .source | .close .dest | .notify .dest =>
    f.chunksRemaining = 1 ∧ f.sourceFd.isOpen = false
  | .next .dest => f.chunksRemaining = 1 ∧ f.sourceFd.isOpen = false ∧ f.destFd.isOpen = false

theorem StageOk.chunks {f : JobFiles} {stage : CloseStage} (h : StageOk f stage)
    (hs : stage ≠ .enter) : f.chunksRemaining = 1 := by
  unfold StageOk at h
  split at h
  · exact absurd rfl hs
  · exact h
  · exact h
  · exact h.1
  · exact h.1
  · exact h.1
  · exact h.1

/-- When and by whom descriptors are closed. -/
structure Closing (s : State) : Prop where
  stage : ∀ caller r stage result x f, s.submit = .closing caller r stage result →
    s.runners.get? r = some x → s.files.get? x.file = some f → StageOk f stage
  closed : ∀ i f side, s.files.get? i = some f → (f.fd side).fd = .closed →
    f.chunksRemaining = 1 ∧ ∃ r x, s.runners.get? r = some x ∧ x.file = i ∧
      (x.savedError.isSome = true ∨ dying s.submit = some r)

/-- A job that has one part left has one runner. -/
theorem runner_unique (hsh : State.SharedFiles cfg s) {r r' : ℕ} {x x' : CopyRunner} {f : JobFiles}
    (hr : s.runners.get? r = some x) (hr' : s.runners.get? r' = some x')
    (hf : s.files.get? x.file = some f) (h1 : f.chunksRemaining = 1) (he : x'.file = x.file) :
    r' = r := by
  by_contra hne
  have hc := hsh.chunks x.file f hf
  have h2 := Store.add_le_sum (f := fun _ y => if y.file = x.file then 1 else 0) hr' hr hne
  rw [if_pos he, if_pos rfl] at h2
  unfold runnersOf at hc
  omega

theorem closing_initial (storage : Storage) : Closing (initial cfg storage) where
  stage caller r stage result x f hp := by cases hp
  closed i f side hf := by cases hf

/-- The descriptors of `files'` that are closed were closed before. -/
def ClosedBefore (files files' : Store JobFiles) : Prop :=
  ∀ i f' side, files'.get? i = some f' → (f'.fd side).fd = .closed →
    ∃ f, files.get? i = some f ∧ (f.fd side).fd = .closed ∧ f'.chunksRemaining = f.chunksRemaining

theorem ClosedBefore.refl (files : Store JobFiles) : ClosedBefore files files :=
  fun _ f _ hf hc => ⟨f, hf, hc, rfl⟩

theorem ClosedBefore.modifyFd {files : Store JobFiles} {j : ℕ} {side : Side}
    {g : QueueFileDescriptor → QueueFileDescriptor} (hg : ∀ d, (g d).fd = .closed → d.fd = .closed) :
    ClosedBefore files (files.modify j fun y => y.modifyFd g side) := by
  intro i f' side' hf' hc
  obtain ⟨f, hf, hcase⟩ := fd_of_modifyFd side' hf'
  have hchunks : f'.chunksRemaining = f.chunksRemaining := by
    obtain ⟨f₂, hf₂, ⟨-, rfl⟩ | ⟨-, rfl⟩⟩ := Store.exists_of_get?_modify hf'
    · rw [hf] at hf₂
      cases hf₂
      exact modifyFd_chunks g side f
    · rw [hf] at hf₂
      cases hf₂
      rfl
  refine ⟨f, hf, ?_, hchunks⟩
  rcases hcase with ⟨-, -, he⟩ | ⟨-, he⟩
  · exact hg _ (he ▸ hc)
  · exact he ▸ hc

/-- A step of the submit thread that closes nothing. -/
theorem Closing.of_submit (h : Closing s) (hf : ClosedBefore s.files s'.files)
    (hr : ∀ r x, s.runners.get? r = some x → ∃ x', s'.runners.get? r = some x' ∧
      x'.file = x.file ∧ (x.savedError.isSome = true → x'.savedError.isSome = true))
    (hd : ∀ r x', dying s.submit = some r → s'.runners.get? r = some x' →
      x'.savedError.isSome = true ∨ dying s'.submit = some r)
    (hstage : ∀ caller r stage result x f, s'.submit = .closing caller r stage result →
      s'.runners.get? r = some x → s'.files.get? x.file = some f → StageOk f stage) :
    Closing s' where
  stage := hstage
  closed i f' side hf' hc := by
    obtain ⟨f, hf, hc, hch⟩ := hf i f' side hf' hc
    obtain ⟨h1, r, x, hx, hxi, hwhy⟩ := h.closed i f side hf hc
    obtain ⟨x', hx', hfile, hse⟩ := hr r x hx
    refine ⟨hch.trans h1, r, x', hx', hfile.trans hxi, ?_⟩
    rcases hwhy with hwhy | hwhy
    · exact .inl (hse hwhy)
    · exact hd r x' hwhy hx'

section Moves

/-- Runners that keep their jobs and their errors. -/
theorem errors_self (r : ℕ) (x : CopyRunner) (h : s.runners.get? r = some x) :
    ∃ x', s.runners.get? r = some x' ∧ x'.file = x.file ∧
      (x.savedError.isSome = true → x'.savedError.isSome = true) := ⟨x, h, rfl, fun he => he⟩

theorem errors_modify {j : ℕ} {g : CopyRunner → CopyRunner} (hg : ∀ x, (g x).file = x.file)
    (he : ∀ x, x.savedError.isSome = true → (g x).savedError.isSome = true) (r : ℕ) (x : CopyRunner)
    (h : s.runners.get? r = some x) :
    ∃ x', (s.runners.modify j g).get? r = some x' ∧ x'.file = x.file ∧
      (x.savedError.isSome = true → x'.savedError.isSome = true) := by
  by_cases hj : r = j
  · subst hj; exact ⟨_, Store.get?_modify_self h, hg x, he x⟩
  · exact ⟨x, by rw [Store.get?_modify_of_ne hj, h], rfl, fun he => he⟩

theorem afterClose_dying {caller : CloseCaller} (hc : caller ≠ .saveError) (r : ℕ)
    (result : Option Error) : dying (afterClose caller r result) = some r := by
  cases caller <;> first | exact absurd rfl hc | cases result <;> rfl

theorem afterClose_ne_closing (caller : CloseCaller) (r : ℕ) (result : Option Error)
    (caller' : CloseCaller) (r' : ℕ) (stage : CloseStage) (result' : Option Error) :
    afterClose caller r result ≠ .closing caller' r' stage result' := by
  cases caller <;> cases result <;> nofun

/-- A step that leaves the submit thread and the objects of the runners alone. -/
theorem Closing.of_main (h : Closing s) (ho : State.Owned s) (hp : s'.submit = s.submit)
    (hr : ∀ r x, s.runners.get? r = some x → s'.runners.get? r = some x)
    (hf : ClosedBefore s.files s'.files)
    (hold : ∀ r x, s.runners.get? r = some x → s'.files.get? x.file = s.files.get? x.file) :
    Closing s' := by
  refine h.of_submit hf (fun r x hx => ⟨x, hr r x hx, rfl, fun he => he⟩)
    (fun r x' hd _ => .inr (hp ▸ hd)) fun caller r stage result x f hc hx hf' => ?_
  rw [hp] at hc
  obtain ⟨y, hy⟩ := ho.live r (by simp [hc, SubmitPc.hand])
  rw [hr r y hy] at hx
  cases hx
  rw [hold r x hy] at hf'
  exact h.stage caller r stage result x f hc hy hf'

/-- `handleFileClose` goes on with the same runner. -/
theorem Closing.of_closing (h : Closing s) {caller : CloseCaller} {r : ℕ} {stage stage' : CloseStage}
    {result result' : Option Error} {x : CopyRunner} {f f' : JobFiles}
    (hp : s.submit = .closing caller r stage result) (hx : s.runners.get? r = some x)
    (hr : s'.runners = s.runners) (hp' : s'.submit = .closing caller r stage' result')
    (hf : ClosedBefore s.files s'.files) (hf' : s'.files.get? x.file = some f')
    (hfx : s.files.get? x.file = some f) (hs : StageOk f stage → StageOk f' stage') :
    Closing s' := by
  refine h.of_submit hf (by rw [hr]; exact errors_self) (fun j x' hj _ => .inr ?_)
    fun caller' r' st res y g hc hy hg => ?_
  · rw [hp] at hj
    rw [hp']
    exact hj
  · rw [hp'] at hc
    cases hc
    rw [hr, hx] at hy
    cases hy
    rw [hf'] at hg
    cases hg
    exact hs (h.stage caller r stage result x f hp hx hfx)

/-- `handleFileClose` returns: a runner that goes on has saved an error. -/
theorem Closing.afterClose (h : Closing s) (ho : State.Owned s) {caller : CloseCaller} {r : ℕ}
    {stage : CloseStage} {result result' : Option Error}
    (hp : s.submit = .closing caller r stage result) (hf : s'.files = s.files)
    (hr : s'.runners = s.runners) (hp' : s'.submit = afterClose caller r result') : Closing s' := by
  refine h.of_submit (hf ▸ .refl _) (by rw [hr]; exact errors_self) (fun j x' hj hx' => ?_)
    fun caller' r' st res x f hc => ?_
  · rw [hp] at hj
    cases hj
    rw [hp']
    by_cases hc : caller = .saveError
    · have hh := ho.hand r (by rw [hp]; rfl) x' (hr ▸ hx')
      rw [hp, hc] at hh
      exact .inl hh.2
    · exact .inr (afterClose_dying hc r result')
  · rw [hp'] at hc
    exact absurd hc (afterClose_ne_closing _ _ _ _ _ _ _)

/-- A runner is destroyed. -/
theorem Closing.delete (h : Closing s) {r : ℕ} {caller : DeleteCaller} {x : CopyRunner}
    {f : JobFiles} (hp : s.submit = .deleting r caller) (hx : s.runners.get? r = some x)
    (hf : s.files.get? x.file = some f) (hr : s'.runners = s.runners.erase r)
    (hp' : s'.submit = afterDelete caller)
    (hfs : ∀ i f', s'.files.get? i = some f' → i ≠ x.file ∧ s.files.get? i = some f' ∨
      i = x.file ∧ f.chunksRemaining ≠ 1 ∧ ∀ side, f'.fd side = f.fd side) : Closing s' where
  stage caller' r' st res y g hc := by
    rw [hp'] at hc
    cases caller <;> cases hc
  closed i f' side hf' hc := by
    rcases hfs i f' hf' with ⟨hi, hf'⟩ | ⟨rfl, hne, hfd⟩
    · obtain ⟨h1, r', x', hx', hxi, hwhy⟩ := h.closed i f' side hf' hc
      have hr' : r' ≠ r := by
        rintro rfl
        rw [hx] at hx'
        cases hx'
        exact hi hxi.symm
      refine ⟨h1, r', x', by rw [hr, Store.get?_erase_of_ne hr']; exact hx', hxi, .inl ?_⟩
      refine hwhy.resolve_right fun hd => hr' ?_
      rw [hp] at hd
      exact (Option.some.inj hd).symm
    · rw [hfd side] at hc
      exact absurd (h.closed _ f side hf hc).1 hne

theorem closing_move (hm : Move cfg s l s') (ht : Threads cfg s) (ho : State.Owned s)
    (hsh : State.SharedFiles cfg s) (h : Closing s) : Closing s' := by
  -- a job under construction has no runner, so none of its descriptors is closed
  have hbuild : ∀ {i : ℕ} {job : Job} {side : Side} {stage : ReserveStage} {f : JobFiles},
      s.main = .ctor i job side stage → s.files.get? i = some f → ∀ sd, (f.fd sd).fd ≠ .closed := by
    intro i job side stage f hm hf sd hc
    obtain ⟨-, r, x, hx, hxi, -⟩ := h.closed i f sd hf hc
    exact file_ne_building hsh (by rw [hm]; rfl) hx hxi
  cases hm with
  | start hm hs =>
    refine h.of_submit (.refl _) errors_self (fun r x' hc => ?_) fun _ _ _ _ _ _ hc => by cases hc
    have ha := ht.idle hs
    cases hp : s.submit <;> rw [hp] at ha hc <;> first | cases hc; done | cases ha
  | addCopyJob =>
    refine h.of_main ho rfl (fun _ _ hx => hx) (fun i f side hf hc => ?_) fun r x hx => ?_
    · rcases Store.of_get?_push hf with ⟨-, rfl⟩ | ⟨-, hf⟩
      · cases side <;> cases hc
      · exact ⟨f, hf, hc, rfl⟩
    · obtain ⟨f, hf⟩ := hsh.live r x hx
      rw [hf]
      exact Store.get?_push_of_some hf
  | ctorOpened hm hf =>
    exact h.of_main ho rfl (fun _ _ hx => hx) (.modifyFd fun _ hc => by cases hc) fun r x hx =>
      Store.get?_modify_of_ne (file_ne_building hsh (by rw [hm]; rfl) hx)
  | ctorFailed hm hf =>
    exact h.of_main ho rfl (fun _ _ hx => hx) (.modifyFd fun _ hc => hc) fun r x hx =>
      Store.get?_modify_of_ne (file_ne_building hsh (by rw [hm]; rfl) hx)
  | beginParts hm =>
    refine h.of_main ho rfl (fun _ _ hx => hx) (fun i f' side hf' hc => ?_) fun r x hx =>
      Store.get?_modify_of_ne (file_ne_building hsh (by rw [hm]; rfl) hx)
    obtain ⟨f, hf, ⟨rfl, rfl⟩ | ⟨-, rfl⟩⟩ := Store.exists_of_get?_modify hf'
    · cases side with
      | source => exact absurd hc (hbuild hm hf .source)
      | dest => exact absurd hc (hbuild hm hf .dest)
    · exact ⟨f', hf, hc, rfl⟩
  | partPush =>
    exact h.of_main ho rfl (fun _ _ hx => Store.get?_push_of_some hx) (.refl _) fun _ _ _ => rfl
  | takeGive hp | batch hp =>
    exact h.of_submit (.refl _) (errors_modify (fun _ => rfl) fun _ he => he)
      (fun _ _ hc => by rw [hp] at hc; cases hc) fun _ _ _ _ _ _ hc => by cases hc
  | opened hp =>
    exact h.of_submit (.modifyFd fun _ hc => by cases hc) errors_self
      (fun _ _ hc => by rw [hp] at hc; cases hc) fun _ _ _ _ _ _ hc => by cases hc
  | openFailed hp =>
    exact h.of_submit (.modifyFd fun _ hc => hc) errors_self
      (fun _ _ hc => by rw [hp] at hc; cases hc) fun _ _ _ _ _ _ hc => by cases hc
  | @ensured n r side x f hp =>
    refine h.of_submit (.refl _) errors_self (fun _ _ hc => by rw [hp] at hc; cases hc)
      fun _ _ _ _ _ _ hc => ?_
    simp only [afterEnsure] at hc
    split at hc
    · cases hc
    · split at hc <;> cases hc
      exact fun _ _ => trivial
  | ensureFailed hp =>
    refine h.of_submit (.refl _) errors_self (fun _ _ hc => by rw [hp] at hc; cases hc)
      fun _ _ _ _ _ _ hc => ?_
    simp only [afterEnsureFailed] at hc
    split at hc <;> cases hc
    exact fun _ _ => trivial
  | closeEnter hp hr hf h1 => exact h.of_closing hp hr rfl rfl (.refl _) hf hf fun _ => h1
  | closeNone hp => exact h.afterClose ho hp rfl rfl rfl
  | @close caller r side result x f answer hp hr hf =>
    refine h.of_closing hp hr rfl rfl (.modifyFd fun _ hc => hc) (Store.get?_modify_self hf) hf
      fun hs => ?_
    cases side with
    | source => exact hs
    | dest => exact hs
  | @closeNotOpen caller r side result x f answer hp hr hf hopen =>
    refine h.of_closing hp hr rfl rfl (.refl _) hf hf fun hs => ?_
    cases side with
    | source => exact ⟨hs, hopen⟩
    | dest => exact ⟨hs.1, hs.2, hopen⟩
  | @notify caller r side result x f hp hr hf =>
    have hst := h.stage _ _ _ _ _ _ hp hr hf
    refine ⟨fun caller' r' st res y g hc hy hg => ?_, fun i f' side' hf' hc => ?_⟩
    · cases hc
      rw [show s.runners.get? r = some y from hy] at hr
      cases hr
      rw [Store.get?_modify_self hf] at hg
      cases hg
      cases side with
      | source => exact ⟨hst, rfl⟩
      | dest => exact ⟨hst.1, hst.2, rfl⟩
    · obtain ⟨g, hg, ⟨rfl, rfl⟩ | ⟨-, rfl⟩⟩ := Store.exists_of_get?_modify hf'
      · rw [hf] at hg
        cases hg
        rw [modifyFd_chunks]
        exact ⟨hst.chunks (by intro hc; cases hc), r, x, hr, rfl, .inr rfl⟩
      · obtain ⟨h1, r', x', hx', hxi, hwhy⟩ := h.closed i f' side' hg hc
        rw [hp] at hwhy
        exact ⟨h1, r', x', hx', hxi, hwhy⟩
  | @closeNext caller r side result hp =>
    cases side with
    | source =>
      obtain ⟨x, f, hx, hf⟩ := hand_objects ho hsh (show s.submit.hand = some r by rw [hp]; rfl)
      exact h.of_closing hp hx rfl rfl (.refl _) hf hf fun hs => hs
    | dest => exact h.afterClose ho hp rfl rfl rfl
  | @record e caller hp =>
    refine h.of_submit (.refl _) errors_self (fun j _ hj _ => .inr ?_) fun _ _ _ _ _ _ hc => ?_
    · rw [hp] at hj
      cases caller <;> exact hj
    · cases caller <;> cases hc
  | finish hp =>
    refine h.of_submit (.refl _) errors_self (fun j _ hj _ => .inr ?_)
      fun _ _ _ _ _ _ hc => by cases hc
    rw [hp] at hj
    exact hj
  | @deleteShared r caller x f hp hr hf hj h1 =>
    refine h.delete hp hr hf rfl rfl fun i f' hf' => ?_
    obtain ⟨g, hg, ⟨rfl, rfl⟩ | ⟨hi, rfl⟩⟩ := Store.exists_of_get?_modify hf'
    · rw [hf] at hg
      cases hg
      exact .inr ⟨rfl, h1, fun side => by cases side <;> rfl⟩
    · exact .inl ⟨hi, hg⟩
  | deleteLast hp hr hf hj h1 =>
    exact h.delete hp hr hf rfl rfl fun i f' hf' => .inl (Store.of_get?_erase hf')
  | completion hp =>
    refine h.of_submit (.refl _) (errors_modify (fun _ => CopyRunner.onCompletionEvent_same.file)
      fun x he => ?_) (fun _ _ hc => by rw [hp] at hc; cases hc) fun _ _ _ _ _ _ hc => ?_
    · rw [CopyRunner.onCompletionEvent_savedError he]
      exact he
    · dsimp only at hc
      split at hc <;> cases hc
      exact fun _ _ => trivial
  | @event r x f hp =>
    refine h.of_submit (.refl _) errors_self (fun _ _ hc => by rw [hp] at hc; cases hc)
      fun _ _ _ _ _ _ hc => ?_
    dsimp only at hc
    cases hres : x.runnerResult <;> rw [hres] at hc <;> cases hc
    exact fun _ _ => trivial
  | _ =>
    first
    | exact ⟨h.stage, h.closed⟩
    | (have hp := ‹s.submit = _›
       exact h.of_submit (.refl _) errors_self (fun _ _ hc => by rw [hp] at hc; cases hc)
        fun _ _ _ _ _ _ hc => by cases hc)

end Moves

theorem reachable_closing {ok : State → Label → Prop} (h : (system cfg).ReachIn ok s) :
    Closing s := by
  refine h.invariant ?_ fun s l s' hr hs _ hstep => closing_move (step_move hstep).2
    (reachable_threads hr) (reachable_owned hr).1 (reachable_sharedFiles hr) hs
  rintro s ⟨storage, rfl⟩
  exact closing_initial storage

/-- `ensureOpened` is never called on a closed descriptor. -/
theorem ensured_not_closed (ho : State.Owned s) (hsh : State.SharedFiles cfg s) (h : Closing s)
    {n r : ℕ} {side : Side} {stage : EnsureStage} {x : CopyRunner} {f : JobFiles}
    (hp : s.submit = .ensure n r side stage) (hr : s.runners.get? r = some x)
    (hf : s.files.get? x.file = some f) : (f.fd side).fd ≠ .closed := by
  intro hc
  obtain ⟨h1, r', x', hx', hxi, hwhy⟩ := h.closed x.file f side hf hc
  have heq := runner_unique hsh hr hx' hf h1 hxi
  subst heq
  rw [hr] at hx'
  cases hx'
  have hstart := ho.hand r' (by rw [hp]; rfl) x hr
  rw [hp] at hstart hwhy
  rcases hwhy with hwhy | hwhy
  · rw [hstart.error] at hwhy; cases hwhy
  · cases hwhy

end CopyQueue

end Wcp
