import WcpVerified.Proofs.FileProofs

/-!
# Proofs: the two priorities of descriptor reservations

The admission check looks at the counter once, before the submit thread takes a runner; the two
reservations the runner may need come later. In between, the adding thread may reserve too, but only
while it leaves two descriptors, so what the check found stays true until the runner has used it.
-/

namespace Wcp

open MachineWord

/-- A descriptor of the job was never opened. -/
def JobFiles.Never (f : JobFiles) : Prop :=
  f.sourceFd.fd = .neverOpened ∨ f.destFd.fd = .neverOpened

/-- A later state of the descriptors of a job: what was opened once is not unopened. -/
def JobFiles.Later (f f' : JobFiles) : Prop :=
  ∀ side, (f'.fd side).fd = .neverOpened → (f.fd side).fd = .neverOpened

theorem JobFiles.Later.never {f f' : JobFiles} (h : f.Later f') (hn : f'.Never) : f.Never :=
  hn.imp (h .source) (h .dest)

theorem JobFiles.later_refl (f : JobFiles) : f.Later f := fun _ h => h

theorem JobFiles.later_modifyFd {f : JobFiles} {g : QueueFileDescriptor → QueueFileDescriptor}
    {side : Side} (hg : ∀ d, (g d).fd = .neverOpened → d.fd = .neverOpened) :
    f.Later (f.modifyFd g side) := by
  intro side' h
  cases side <;> cases side' <;> first | exact h | exact hg _ h

/-- The runner that is being started, until both its files are open. -/
def SubmitPc.entry : SubmitPc → Option ℕ
  | .starting _ r | .ensure _ r _ _ | .closing (.addFailed _ _) r _ _
  | .closing (.emptyFile _) r _ _ | .recording _ (.emptyFile _ r) | .deleting r (.addFailed _ _)
  | .deleting r (.emptyFile _) => some r
  | _ => none

theorem SubmitPc.hand_of_entry {pc : SubmitPc} {r : ℕ} (h : pc.entry = some r) : pc.hand = some r := by
  unfold SubmitPc.entry at h
  split at h <;> first | exact h | cases h

namespace CopyQueue

open SubmitPc

/-- What is known of the counter and of the descriptors of the runner `x` at hand at each point
between the admission check and the last reservation. -/
def Admitted (cap used : ℕ) (x : CopyRunner) (f : JobFiles) : SubmitPc → Prop
  | .starting _ _ => f.Never → used + 2 ≤ cap
  | .ensure _ _ .source stage => match stage with
    | .check => f.Never → used + 2 ≤ cap
    | .reserve .load => f.sourceFd.fd = .neverOpened ∧ used + 2 ≤ cap
    | .reserve (.cas e) => f.sourceFd.fd = .neverOpened ∧ used + 2 ≤ cap ∧ e < cap
    | .reserve .opening => f.sourceFd.fd = .neverOpened ∧ used + 1 ≤ cap
    | .reserve .done =>
      f.sourceFd.fd ≠ .neverOpened ∧ (f.destFd.fd = .neverOpened → used + 1 ≤ cap)
    | .failed _ => True
  | .ensure _ _ .dest (.failed _) => True
  | .ensure _ _ .dest stage => (x.size ≠ 0 → f.sourceFd.fd ≠ .neverOpened) ∧ match stage with
    | .check => f.destFd.fd = .neverOpened → used + 1 ≤ cap
    | .reserve .load => f.destFd.fd = .neverOpened ∧ used + 1 ≤ cap
    | .reserve (.cas e) => f.destFd.fd = .neverOpened ∧ used + 1 ≤ cap ∧ e < cap
    | .reserve .opening => f.destFd.fd = .neverOpened
    | .reserve .done => f.destFd.fd ≠ .neverOpened
    | .failed _ => True
  | _ => True

/-- A reservation that leaves two descriptors does not take what was found. -/
theorem Admitted.of_low {cap used used' : ℕ} {x : CopyRunner} {f : JobFiles} {pc : SubmitPc}
    (h : Admitted cap used x f pc) (hle : used' + 2 ≤ cap) : Admitted cap used' x f pc := by
  unfold Admitted at h ⊢
  split at h
  · exact fun _ => hle
  · split at h
    · exact fun _ => hle
    · exact ⟨h.1, hle⟩
    · exact ⟨h.1, hle, h.2.2⟩
    · exact ⟨h.1, by omega⟩
    · exact ⟨h.1, fun _ => by omega⟩
    · trivial
  · trivial
  · refine ⟨h.1, ?_⟩
    have h := h.2
    split at h
    · exact fun _ => by omega
    · exact ⟨h.1, by omega⟩
    · exact ⟨h.1, by omega, h.2.2⟩
    · exact h
    · exact h
    · trivial
  · trivial

/-- A descriptor that is found opened needs no reservation. -/
theorem Admitted.of_check {cap used n r : ℕ} {side : Side} {x : CopyRunner} {f : JobFiles}
    (h : Admitted cap used x f (.ensure n r side .check)) (hd : (f.fd side).fd ≠ .neverOpened) :
    Admitted cap used x f (.ensure n r side (.reserve .done)) := by
  cases side with
  | source => exact ⟨hd, fun hn => by have := h (.inr hn); omega⟩
  | dest => exact ⟨h.1, hd⟩

/-- The files of a runner that was started have been opened. -/
def Started (runners : Store CopyRunner) (files : Store JobFiles) (start : List ℕ)
    (entry : Option ℕ) : Prop :=
  ∀ r x f, runners.get? r = some x → files.get? x.file = some f → r ∉ start → entry ≠ some r →
    ¬ f.Never

/-- The counter and the descriptors. -/
structure Fds (cfg : Config) (s : State) : Prop where
  cap : s.fileDescriptorsUsed ≤ cfg.fileDescriptorCap
  admitted : ∀ r x f, s.submit.hand = some r → s.runners.get? r = some x →
    s.files.get? x.file = some f →
    Admitted cfg.fileDescriptorCap s.fileDescriptorsUsed x f s.submit
  started : Started s.runners s.files s.copiesPendingStart s.submit.entry

variable {cfg : Config} {s s' : State} {l : Label}

theorem fds_initial (storage : Storage) : Fds cfg (initial cfg storage) where
  cap := by
    have := cfg.cap_ge
    rw [minimumFileDescriptorCap] at this
    exact le_trans (Nat.le_add_right _ _) this
  admitted r x f hr := by cases hr
  started r x f hr := by cases hr

/-- The subtraction of the admission check is exact. -/
theorem Fds.sub_eq (h : Fds cfg s) :
    subU64 cfg.fileDescriptorCap s.fileDescriptorsUsed =
      cfg.fileDescriptorCap - s.fileDescriptorsUsed :=
  subU64_of_le h.cap cfg.cap_lt

theorem Fds.of_not_outOfFds (h : Fds cfg s) (ho : outOfFds cfg s = false) :
    s.fileDescriptorsUsed + 2 ≤ cfg.fileDescriptorCap := by
  rw [outOfFds, h.sub_eq, decide_eq_false_iff_not, RESERVED_HIGH_PRIORITY_FD_COUNT] at ho
  have := h.cap
  omega

theorem not_never_of_open {f : JobFiles} (h : f.needsFileDescriptors = false) : ¬ f.Never := by
  simp only [JobFiles.needsFileDescriptors, Bool.or_eq_false_iff, Bool.not_eq_false'] at h
  rintro (hn | hn)
  · simp [QueueFileDescriptor.isOpen, hn] at h
  · simp [QueueFileDescriptor.isOpen, hn] at h

/-- The runners keep their jobs, and the descriptors become later ones. -/
theorem Fds.started_of (h : Fds cfg s)
    (hr : ∀ r x', s'.runners.get? r = some x' → ∃ x, s.runners.get? r = some x ∧ x'.file = x.file)
    (hf : ∀ i f', s'.files.get? i = some f' → ∃ f, s.files.get? i = some f ∧ f.Later f')
    (hs : ∀ r x', s'.runners.get? r = some x' → r ∉ s'.copiesPendingStart →
      s'.submit.entry ≠ some r → r ∉ s.copiesPendingStart ∧ s.submit.entry ≠ some r) :
    Started s'.runners s'.files s'.copiesPendingStart s'.submit.entry := by
  intro r x' f' hx' hf' hstart hentry hn
  obtain ⟨x, hx, hfile⟩ := hr r x' hx'
  obtain ⟨f, hf, hl⟩ := hf x'.file f' hf'
  obtain ⟨hstart, hentry⟩ := hs r x' hx' hstart hentry
  exact h.started r x f hx (hfile ▸ hf) hstart hentry (hl.never hn)

/-- A step of the submit thread past the reservations, or before them. -/
theorem Fds.of_submit (h : Fds cfg s)
    (hr : ∀ r x', s'.runners.get? r = some x' → ∃ x, s.runners.get? r = some x ∧ x'.file = x.file)
    (hf : ∀ i f', s'.files.get? i = some f' → ∃ f, s.files.get? i = some f ∧ f.Later f')
    (hs : s'.copiesPendingStart = s.copiesPendingStart)
    (he : ∀ r x', s'.runners.get? r = some x' → s.submit.entry = some r →
      s'.submit.entry = some r)
    (hu : s'.fileDescriptorsUsed ≤ s.fileDescriptorsUsed)
    (ha : ∀ x f, Admitted cfg.fileDescriptorCap s'.fileDescriptorsUsed x f s'.submit) :
    Fds cfg s' where
  cap := hu.trans h.cap
  admitted _ x f _ _ _ := ha x f
  started := h.started_of hr hf fun r x' hx' hstart hentry =>
    ⟨hs ▸ hstart, fun hc => hentry (he r x' hx' hc)⟩

/-- A step of `ensureOpened` that changes no object. -/
theorem Fds.of_entry (h : Fds cfg s) {r : ℕ} {x : CopyRunner} {f : JobFiles}
    (hp : s.submit.entry = some r) (hx : s.runners.get? r = some x)
    (hf : s.files.get? x.file = some f) (hr : s'.runners = s.runners) (hfs : s'.files = s.files)
    (hs : s'.copiesPendingStart = s.copiesPendingStart)
    (hu : s'.fileDescriptorsUsed ≤ cfg.fileDescriptorCap) (hp' : s'.submit.entry = some r)
    (ha : Admitted cfg.fileDescriptorCap s.fileDescriptorsUsed x f s.submit →
      Admitted cfg.fileDescriptorCap s'.fileDescriptorsUsed x f s'.submit) : Fds cfg s' where
  cap := hu
  admitted j y g hj hy hg := by
    rw [hand_of_entry hp'] at hj
    cases hj
    rw [hr, hx] at hy
    cases hy
    rw [hfs, hf] at hg
    cases hg
    exact ha (h.admitted r x f (hand_of_entry hp) hx hf)
  started := h.started_of (fun _ y hy => ⟨y, hr ▸ hy, rfl⟩)
    (fun _ g hg => ⟨g, hfs ▸ hg, g.later_refl⟩)
    fun j _ _ hstart hentry => ⟨hs ▸ hstart, fun hc => hentry (hp'.trans (hp.symm.trans hc))⟩

/-- A step of the adding thread that changes no object of a runner. -/
theorem Fds.of_main (h : Fds cfg s) (hr : s'.runners = s.runners)
    (hf : ∀ r x, s.runners.get? r = some x → s'.files.get? x.file = s.files.get? x.file)
    (hs : s'.copiesPendingStart = s.copiesPendingStart) (hp : s'.submit = s.submit)
    (hu : s'.fileDescriptorsUsed = s.fileDescriptorsUsed ∨
      s'.fileDescriptorsUsed + 2 ≤ cfg.fileDescriptorCap) : Fds cfg s' where
  cap := by
    rcases hu with hu | hu
    · exact hu ▸ h.cap
    · omega
  admitted r x f hh hx hf' := by
    rw [hr] at hx
    rw [hf r x hx] at hf'
    rw [hp] at hh ⊢
    have := h.admitted r x f hh hx hf'
    rcases hu with hu | hu
    · exact hu ▸ this
    · exact this.of_low hu
  started r x f hx hf' hstart hentry := by
    rw [hr] at hx
    rw [hf r x hx] at hf'
    exact h.started r x f hx hf' (hs ▸ hstart) (hp ▸ hentry)

/-- The job that is being constructed has no runner. -/
theorem file_ne_building (hsh : State.SharedFiles cfg s) {i : ℕ} {job : Job}
    (hb : building s.main = some (i, job, none)) {r : ℕ} {x : CopyRunner}
    (hx : s.runners.get? r = some x) : x.file ≠ i := by
  rintro rfl
  obtain ⟨f, hf, -, hz⟩ := hsh.ctor x.file job hb
  have := hsh.chunks x.file f hf
  have := runnersOf_pos hx
  omega

section Moves

/-- Runners that keep their jobs. -/
theorem keep_refl (r : ℕ) (x' : CopyRunner) (h : s.runners.get? r = some x') :
    ∃ x, s.runners.get? r = some x ∧ x'.file = x.file := ⟨x', h, rfl⟩

theorem keep_modify {j : ℕ} {g : CopyRunner → CopyRunner} (hg : ∀ x, (g x).file = x.file) (r : ℕ)
    (x' : CopyRunner) (h : (s.runners.modify j g).get? r = some x') :
    ∃ x, s.runners.get? r = some x ∧ x'.file = x.file := by
  obtain ⟨x, hx, ⟨-, rfl⟩ | ⟨-, rfl⟩⟩ := Store.exists_of_get?_modify h
  · exact ⟨x, hx, hg x⟩
  · exact ⟨x', hx, rfl⟩

theorem keep_erase {j : ℕ} (r : ℕ) (x' : CopyRunner) (h : (s.runners.erase j).get? r = some x') :
    ∃ x, s.runners.get? r = some x ∧ x'.file = x.file :=
  ⟨x', (Store.of_get?_erase h).2, rfl⟩

/-- Descriptors that stay, or become later ones. -/
theorem later_self (i : ℕ) (f' : JobFiles) (h : s.files.get? i = some f') :
    ∃ f : JobFiles, s.files.get? i = some f ∧ f.Later f' := ⟨f', h, f'.later_refl⟩

theorem later_modify {j : ℕ} {g : JobFiles → JobFiles} (hg : ∀ f : JobFiles, f.Later (g f)) (i : ℕ)
    (f' : JobFiles) (h : (s.files.modify j g).get? i = some f') :
    ∃ f : JobFiles, s.files.get? i = some f ∧ f.Later f' := by
  obtain ⟨f, hf, ⟨-, rfl⟩ | ⟨-, rfl⟩⟩ := Store.exists_of_get?_modify h
  · exact ⟨f, hf, hg f⟩
  · exact ⟨f', hf, f'.later_refl⟩

theorem later_erase {j : ℕ} (i : ℕ) (f' : JobFiles) (h : (s.files.erase j).get? i = some f') :
    ∃ f : JobFiles, s.files.get? i = some f ∧ f.Later f' :=
  ⟨f', (Store.of_get?_erase h).2, f'.later_refl⟩

/-- The objects of the runner at hand. -/
theorem hand_objects (ho : State.Owned s) (hsh : State.SharedFiles cfg s) {r : ℕ}
    (hp : s.submit.hand = some r) :
    ∃ x f, s.runners.get? r = some x ∧ s.files.get? x.file = some f := by
  obtain ⟨x, hx⟩ := ho.live r (by simp [hp])
  obtain ⟨f, hf⟩ := hsh.live r x hx
  exact ⟨x, f, hx, hf⟩

theorem afterClose_entry (caller : CloseCaller) (r : ℕ) (stage : CloseStage)
    (result result' : Option Error) :
    (afterClose caller r result').entry = (SubmitPc.closing caller r stage result).entry := by
  cases caller <;> cases result' <;> rfl

theorem afterClose_admitted (cap used : ℕ) (x : CopyRunner) (f : JobFiles) (caller : CloseCaller)
    (r : ℕ) (result : Option Error) : Admitted cap used x f (afterClose caller r result) := by
  cases caller <;> cases result <;> trivial

/-- The runner taken from `copiesPendingStart` has passed the admission check. -/
theorem Fds.take (h : Fds cfg s) {n r : ℕ} {rest : List ℕ} {x x' : CopyRunner} {f : JobFiles}
    (hp : s.submit = .taking n) (hs : s.copiesPendingStart = r :: rest)
    (hf : s.files.get? x.file = some f)
    (ho : outOfFds cfg s = false ∨ f.needsFileDescriptors = false)
    (hr : ∀ j y', s'.runners.get? j = some y' → ∃ y, s.runners.get? j = some y ∧ y'.file = y.file)
    (hx' : s'.runners.get? r = some x') (hfile : x'.file = x.file) (hfs : s'.files = s.files)
    (hu : s'.fileDescriptorsUsed = s.fileDescriptorsUsed) (hs' : s'.copiesPendingStart = rest)
    (hp' : s'.submit = .starting n r) : Fds cfg s' where
  cap := hu ▸ h.cap
  admitted j y g hj hy hg := by
    rw [hp'] at hj ⊢
    cases hj
    rw [hx'] at hy
    cases hy
    rw [hfs, hfile, hf] at hg
    cases hg
    intro hn
    rcases ho with ho | ho
    · exact hu ▸ h.of_not_outOfFds ho
    · exact absurd hn (not_never_of_open ho)
  started := h.started_of hr (by rw [hfs]; exact later_self) fun j y hy hstart hentry => by
    rw [hp'] at hentry
    rw [hs'] at hstart
    have hne : j ≠ r := fun hc => hentry (by rw [hc]; rfl)
    refine ⟨by simp [hs, hstart, hne], by rw [hp]; nofun⟩

theorem fds_move (hm : Move cfg s l s') (ht : Threads cfg s) (ho : State.Owned s)
    (hsh : State.SharedFiles cfg s) (h : Fds cfg s) : Fds cfg s' := by
  cases hm with
  | start hm hs =>
    refine h.of_submit keep_refl later_self rfl (fun r x _ hc => ?_) le_rfl fun _ _ => trivial
    have hh := hand_of_entry hc
    rw [hand_of_not_alive (ht.idle hs)] at hh
    cases hh
  | addCopyJob =>
    refine h.of_main rfl (fun r x hx => ?_) rfl rfl (.inl rfl)
    obtain ⟨f, hf⟩ := hsh.live r x hx
    rw [hf]
    exact Store.get?_push_of_some hf
  | ctorReserve hm hlt he =>
    refine h.of_main rfl (fun _ _ _ => rfl) rfl rfl (.inr ?_)
    rw [RESERVED_HIGH_PRIORITY_FD_COUNT] at hlt
    dsimp only
    omega
  | ctorOpened hm | ctorFailed hm | beginParts hm =>
    exact h.of_main rfl (fun r x hx =>
      Store.get?_modify_of_ne (file_ne_building hsh (by rw [hm]; rfl) hx)) rfl rfl (.inl rfl)
  | partPush hm =>
    refine ⟨h.cap, fun r x f hh hx hf => ?_, fun r x f hx hf hstart hentry => ?_⟩
    · rcases Store.of_get?_push hx with ⟨rfl, -⟩ | ⟨-, hx⟩
      · have hh : s.submit.hand = some s.runners.next := hh
        obtain ⟨y, hy⟩ := ho.live s.runners.next (by simp [hh])
        exact absurd (Store.lt_next hy) (lt_irrefl _)
      · exact h.admitted r x f hh hx hf
    · simp only [partStep, List.mem_append, List.mem_singleton, not_or] at hstart
      rcases Store.of_get?_push hx with ⟨rfl, -⟩ | ⟨-, hx⟩
      · exact absurd rfl hstart.2
      · exact h.started r x f hx hf hstart.1 hentry
  | pickContinue hp hc =>
    have he : s.submit.entry = none := by rw [hp]; rfl
    refine ⟨h.cap, fun r x f hh hx hf hn => ?_, ?_⟩
    · cases hh
      have hnd := (List.nodup_append.mp ho.nodup).1
      rw [hc, List.nodup_append] at hnd
      exact absurd hn (h.started _ x f hx hf
        (fun hs => hnd.2.2 _ hs _ List.mem_cons_self rfl) (by rw [he]; intro hc; cases hc))
    · exact h.started_of keep_refl later_self fun r x _ hs _ => ⟨hs, by rw [he]; intro hc; cases hc⟩
  | take hp hs hr hf hout => exact h.take hp hs hf hout keep_refl hr rfl rfl rfl rfl rfl
  | takeGive hp hs hr hf hout =>
    exact h.take hp hs hf hout (keep_modify fun _ => rfl) (Store.get?_modify_self hr) rfl rfl rfl
      rfl rfl
  | starting hp hr hf =>
    refine h.of_entry (by rw [hp]; rfl) hr hf rfl rfl rfl h.cap rfl fun ha => ?_
    rw [hp] at ha
    dsimp only
    split
    · rename_i hz
      exact ⟨fun hc => absurd hz hc, fun hn => by have := ha (.inr hn); omega⟩
    · exact ha
  | @checkNever n r side x f hp hr hf hd =>
    refine h.of_entry (by rw [hp]; rfl) hr hf rfl rfl rfl h.cap rfl fun ha => ?_
    rw [hp] at ha
    cases side with
    | source => exact ⟨hd, ha (.inl hd)⟩
    | dest => exact ⟨ha.1, hd, ha.2 hd⟩
  | @checkOpened n r side x f ino hp hr hf hd =>
    refine h.of_entry (by rw [hp]; rfl) hr hf rfl rfl rfl h.cap rfl fun ha => ?_
    rw [hp] at ha
    exact ha.of_check (by rw [hd]; intro hc; cases hc)
  | @checkClosed n r side x f hp hr hf hd =>
    refine h.of_entry (by rw [hp]; rfl) hr hf rfl rfl rfl h.cap rfl fun ha => ?_
    rw [hp] at ha
    exact ha.of_check (by rw [hd]; intro hc; cases hc)
  | @load n r side hp =>
    obtain ⟨x, f, hr, hf⟩ := hand_objects ho hsh (show s.submit.hand = some r by rw [hp]; rfl)
    refine h.of_entry (by rw [hp]; rfl) hr hf rfl rfl rfl h.cap rfl fun ha => ?_
    rw [hp] at ha
    cases side with
    | source => exact ⟨ha.1, ha.2, by have := ha.2; omega⟩
    | dest => exact ⟨ha.1, ha.2.1, ha.2.2, by have := ha.2.2; omega⟩
  | @retry n r e side hp =>
    obtain ⟨x, f, hr, hf⟩ := hand_objects ho hsh (show s.submit.hand = some r by rw [hp]; rfl)
    refine h.of_entry (by rw [hp]; rfl) hr hf rfl rfl rfl h.cap rfl fun ha => ?_
    rw [hp] at ha
    cases side with
    | source => exact ⟨ha.1, ha.2.1⟩
    | dest => exact ⟨ha.1, ha.2.1, ha.2.2.1⟩
  | @reserve n r e side hp hlt he =>
    obtain ⟨x, f, hr, hf⟩ := hand_objects ho hsh (show s.submit.hand = some r by rw [hp]; rfl)
    refine h.of_entry (by rw [hp]; rfl) hr hf rfl rfl rfl hlt rfl fun ha => ?_
    rw [hp, he] at ha
    cases side with
    | source => exact ⟨ha.1, by have := ha.2.1; dsimp only; omega⟩
    | dest => exact ⟨ha.1, ha.2.1⟩
  | @opened n r side x f ino answers hp hr hf =>
    have ha := h.admitted r x f (by rw [hp]; rfl) hr hf
    rw [hp] at ha
    refine ⟨h.cap, fun j y g hj hy hg => ?_, h.started_of keep_refl
      (later_modify fun _ => JobFiles.later_modifyFd fun _ hd => by cases hd)
      fun j y hy hs hentry => ⟨hs, fun hc => hentry (by rw [hp] at hc; exact hc)⟩⟩
    cases hj
    rw [show s.runners.get? r = some y from hy] at hr
    cases hr
    rw [Store.get?_modify_self hf] at hg
    cases hg
    cases side with
    | source => exact ⟨(by intro hc; cases hc), fun _ => ha.2⟩
    | dest => exact ⟨ha.1, by intro hc; cases hc⟩
  | @openFailed n r side x f e answers hp hr hf =>
    refine h.of_submit keep_refl (later_modify fun _ => JobFiles.later_modifyFd fun _ hd => hd) rfl
      (fun j _ _ hc => by rw [hp] at hc; exact hc) le_rfl fun _ _ => ?_
    cases side <;> trivial
  | @ensured n r side x f hp hr hf =>
    have ha := h.admitted r x f (by rw [hp]; rfl) hr hf
    rw [hp] at ha
    cases side with
    | source =>
      exact h.of_entry (by rw [hp]; rfl) hr hf rfl rfl rfl h.cap rfl
        fun _ => ⟨fun _ => ha.1, ha.2⟩
    | dest =>
      simp only [afterEnsure]
      split
      · exact h.of_submit keep_refl later_self rfl (fun j _ _ hc => by rw [hp] at hc; exact hc)
          le_rfl fun _ _ => trivial
      · -- both files are open now
        rename_i hz
        refine ⟨h.cap, fun _ _ _ _ _ _ => trivial, fun j y g hy hg hstart hentry => ?_⟩
        by_cases hj : j = r
        · subst hj
          have hy : s.runners.get? j = some y := hy
          rw [hr] at hy
          cases hy
          have hg : s.files.get? x.file = some g := hg
          rw [hf] at hg
          cases hg
          rintro (hn | hn)
          · exact ha.1 hz hn
          · exact ha.2 hn
        · refine h.started j y g hy hg hstart ?_
          rw [hp]
          exact fun hc => hj (Option.some.inj hc).symm
  | @ensureFailed n r side e x f hp =>
    simp only [afterEnsureFailed]
    split <;>
    exact h.of_submit keep_refl later_self rfl (fun j _ _ hc => by rw [hp] at hc; exact hc)
      le_rfl fun _ _ => trivial
  | spin hp =>
    exact h.of_submit keep_refl later_self rfl (fun j _ _ hc => by rw [hp] at hc; cases hc)
      le_rfl fun _ _ => trivial
  | batch hp =>
    exact h.of_submit (keep_modify fun _ => rfl) later_self rfl
      (fun j _ _ hc => by rw [hp] at hc; cases hc) le_rfl fun _ _ => trivial
  | closeNone hp =>
    refine h.of_submit keep_refl later_self rfl (fun j _ _ hc => ?_) le_rfl
      fun _ _ => afterClose_admitted ..
    rw [hp] at hc
    exact afterClose_entry .. ▸ hc
  | @closeNext caller r side result hp =>
    cases side with
    | source =>
      refine h.of_submit keep_refl later_self rfl (fun j _ _ hc => ?_) le_rfl fun _ _ => trivial
      rw [hp] at hc
      cases caller <;> exact hc
    | dest =>
      refine h.of_submit keep_refl later_self rfl (fun j _ _ hc => ?_) le_rfl
        fun _ _ => afterClose_admitted ..
      rw [hp] at hc
      exact afterClose_entry .. ▸ hc
  | @closeEnter caller r result x f hp =>
    refine h.of_submit keep_refl later_self rfl (fun j _ _ hc => ?_) le_rfl fun _ _ => trivial
    rw [hp] at hc
    cases caller <;> exact hc
  | @closeNotOpen caller r side result x f answer hp =>
    refine h.of_submit keep_refl later_self rfl (fun j _ _ hc => ?_) le_rfl fun _ _ => trivial
    rw [hp] at hc
    cases caller <;> exact hc
  | @close caller r side result x f answer hp =>
    refine h.of_submit keep_refl (later_modify fun _ => JobFiles.later_modifyFd fun _ hd => hd) rfl
      (fun j _ _ hc => ?_) le_rfl fun _ _ => trivial
    rw [hp] at hc
    cases caller <;> exact hc
  | @notify caller r side result x f hp =>
    refine h.of_submit keep_refl (later_modify fun _ => JobFiles.later_modifyFd fun _ hd => by cases hd) rfl
      (fun j _ _ hc => ?_) (Nat.sub_le ..) fun _ _ => trivial
    rw [hp] at hc
    cases caller <;> exact hc
  | @record e caller hp =>
    cases caller <;>
    exact h.of_submit keep_refl later_self rfl (fun j _ _ hc => by rw [hp] at hc; exact hc)
      le_rfl fun _ _ => trivial
  | @deleteShared r caller x f hp =>
    refine h.of_submit keep_erase (later_modify fun f => f.later_refl) rfl (fun j y hy hc => ?_)
      le_rfl ?_
    · have hj := hand_of_entry hc
      rw [hp] at hj
      exact absurd (Option.some.inj hj).symm (Store.of_get?_erase hy).1
    · cases caller <;> exact fun _ _ => trivial
  | @deleteLast r caller x f hp =>
    refine h.of_submit keep_erase later_erase rfl (fun j y hy hc => ?_) le_rfl ?_
    · have hj := hand_of_entry hc
      rw [hp] at hj
      exact absurd (Option.some.inj hj).symm (Store.of_get?_erase hy).1
    · cases caller <;> exact fun _ _ => trivial
  | completion hp =>
    refine h.of_submit (keep_modify fun _ => CopyRunner.onCompletionEvent_same.file) later_self rfl
      (fun j _ _ hc => by rw [hp] at hc; cases hc) le_rfl ?_
    dsimp only
    split <;> exact fun _ _ => trivial
  | @event r x f hp =>
    refine h.of_submit keep_refl later_self rfl (fun j _ _ hc => by rw [hp] at hc; cases hc) le_rfl ?_
    dsimp only
    cases x.runnerResult <;> exact fun _ _ => trivial
  | _ =>
    first
    | exact ⟨h.cap, h.admitted, h.started⟩
    | (have hp := ‹s.submit = _›
       exact h.of_submit keep_refl later_self rfl (fun _ _ _ hc => by rw [hp] at hc; exact hc) le_rfl
        fun _ _ => trivial)

end Moves

theorem reachable_fds {ok : State → Label → Prop} (h : (system cfg).ReachIn ok s) :
    Fds cfg s := by
  refine h.invariant ?_ fun s l s' hr hs _ hstep => fds_move (step_move hstep).2
    (reachable_threads hr) (reachable_owned hr).1 (reachable_sharedFiles hr) hs
  rintro s ⟨storage, rfl⟩
  exact fds_initial storage

/-- What the submit thread has loaded is below the cap. -/
theorem Fds.cas_lt (h : Fds cfg s) (ho : State.Owned s) (hsh : State.SharedFiles cfg s) {n r e : ℕ}
    {side : Side} (hp : s.submit = .ensure n r side (.reserve (.cas e))) :
    e < cfg.fileDescriptorCap := by
  have hh : s.submit.hand = some r := by rw [hp]; rfl
  obtain ⟨x, f, hx, hf⟩ := hand_objects ho hsh hh
  have ha := h.admitted r x f hh hx hf
  rw [hp] at ha
  cases side with
  | source => exact ha.2.2
  | dest => exact ha.2.2.2

/-- The submit thread is never blocked by the cap. The counter stays within the cap, so that the
subtraction of the admission check is exact; a `Low` reservation leaves two descriptors; and each
`High` attempt compares a value below the cap, so that it fails only when the exchange is lost. -/
theorem high_reservation_not_blocked (h : (system cfg).Reachable s) :
    s.fileDescriptorsUsed ≤ cfg.fileDescriptorCap ∧
    subU64 cfg.fileDescriptorCap s.fileDescriptorsUsed =
      cfg.fileDescriptorCap - s.fileDescriptorsUsed ∧
    (∀ f job side e s', s.main = .ctor f job side (.cas e) → step cfg s (.main .tick) = some s' →
      s'.main = .ctor f job side .opening →
      s'.fileDescriptorsUsed = s.fileDescriptorsUsed + 1 ∧
      s'.fileDescriptorsUsed ≤ cfg.fileDescriptorCap - RESERVED_HIGH_PRIORITY_FD_COUNT) ∧
    ∀ n r side e, s.submit = .ensure n r side (.reserve (.cas e)) →
      ¬ e ≥ cfg.fileDescriptorCap ∧
      ∀ s', step cfg s (.submit .tick) = some s' →
        s'.submit = .ensure n r side (.reserve .load) → s.fileDescriptorsUsed ≠ e := by
  have hfds := reachable_fds h
  refine ⟨hfds.cap, hfds.sub_eq, fun f job side e s' hm hstep hm' => ?_, fun n r side e hp => ?_⟩
  · unfold step at hstep
    split at hstep
    · cases hstep
    · simp only [mainStep, hm, ctorStep] at hstep
      split at hstep
      · cases hstep
        cases hm'
      · rename_i hc
        push Not at hc
        cases hstep
        exact ⟨by rw [hc.2], hc.1⟩
  · have hlt := hfds.cas_lt (reachable_owned h).1 (reachable_sharedFiles h) hp
    refine ⟨by omega, fun s' hstep hp' => ?_⟩
    unfold step at hstep
    split at hstep
    · cases hstep
    · simp only [submitStep, hp, ensureStep] at hstep
      split at hstep
      · rename_i hc
        exact hc.resolve_left (by omega)
      · cases hstep
        cases hp'

/-- A queue that has no descriptors to spare. -/
def tightConfig : Config where
  ringSize := 4
  fileDescriptorCap := minimumFileDescriptorCap
  heap := smallHeap
  ringSize_lt := smallConfig.ringSize_lt
  cap_ge := le_rfl
  cap_lt := by decide

/-- No file is opened eagerly, and the submit thread loads the counter for the source. -/
def lazySteps : List Label :=
  .addCopyJob (smallJob 8) :: List.replicate 9 (.main .tick) ++ [.start] ++ ticks 8

theorem high_reservation_not_blocked_tight : ∃ s, (system tightConfig).Reachable s ∧
    s.submit = .ensure 0 0 .source (.reserve (.cas 2)) ∧ s.fileDescriptorsUsed ≤ 4 ∧
    ¬ 2 ≥ tightConfig.fileDescriptorCap := by
  obtain ⟨s, hs, hp⟩ := exists_of_run tightConfig (smallStorage 8) lazySteps
    (fun s => decide (s.submit = .ensure 0 0 .source (.reserve (.cas 2)))) (by decide +kernel)
  rw [decide_eq_true_eq] at hp
  obtain ⟨hle, -, -, hcas⟩ := high_reservation_not_blocked hs
  exact ⟨s, hs, hp, hle, (hcas _ _ _ _ hp).1⟩

end CopyQueue

end Wcp
