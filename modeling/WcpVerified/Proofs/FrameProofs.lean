import WcpVerified.Proofs.AccountProofs
import WcpVerified.Proofs.RoomProofs
import WcpVerified.WcpMain

/-!
# Proofs: which files a call changes

The disk changes when a destination is opened, since it is truncated then, and when a write is
executed. A file that no destination is opened as keeps its content. Nothing compares the two sides of
a job: `wcp d/f d` opens `d/f` as its own destination, and empties it.
-/

namespace Wcp

open List MachineWord

/-- The descriptors of a job keep their flags, and the files they stand for. -/
structure JobFiles.Keeps (f f' : JobFiles) : Prop where
  source : f'.sourceFd.oflag = f.sourceFd.oflag
  dest : f'.destFd.oflag = f.destFd.oflag
  files : ∀ side ino, (f'.fd side).getFd = some ino → (f.fd side).getFd = some ino

namespace CopyQueue

variable {cfg : Config} {storage : Storage} {s s' : State} {l : Label} {c : Ino}
  {P : ℕ → Side → Ino → Prop}

/-- The file that a step opens, with the job and the side it is opened for. -/
def opened (cfg : Config) (s : State) (l : Label) : Option (ℕ × Side × Ino) :=
  (opening s l).bind fun (i, side, answers) => (s.files.get? i).bind fun f =>
    (myOpen cfg.strerror (f.fd side).path (f.fd side).oflag answers).toOption.map (i, side, ·)

/-- The queue on a disk with a given content. -/
def systemFrom (cfg : Config) (storage : Storage) : Transition.System State Label where
  init s := s = initial cfg storage
  step := step cfg

theorem reachIn_of_systemFrom {ok : State → Label → Prop}
    (h : (systemFrom cfg storage).ReachIn ok s) : (system cfg).ReachIn ok s := by
  induction h with
  | init hi => exact .init ⟨storage, hi⟩
  | step _ hok hs ih => exact .step ih hok hs

/-! ## What is opened -/

theorem opened_ctor {i : ℕ} {job : Job} {side : Side} {f : JobFiles} {ino : Ino}
    {answers : ℕ → Except Errno Ino} (hm : s.main = .ctor i job side .opening)
    (hf : s.files.get? i = some f)
    (ho : myOpen cfg.strerror (f.fd side).path (f.fd side).oflag answers = .ok ino) :
    opened cfg s (.main (.opened answers)) = some (i, side, ino) := by
  simp [opened, opening, hm, hf, ho, Except.toOption]

theorem opened_ensure {n r : ℕ} {side : Side} {x : CopyRunner} {f : JobFiles} {ino : Ino}
    {answers : ℕ → Except Errno Ino} (hp : s.submit = .ensure n r side (.reserve .opening))
    (hr : s.runners.get? r = some x) (hf : s.files.get? x.file = some f)
    (ho : myOpen cfg.strerror (f.fd side).path (f.fd side).oflag answers = .ok ino) :
    opened cfg s (.submit (.opened answers)) = some (x.file, side, ino) := by
  simp [opened, opening, hp, hr, hf, ho, Except.toOption]

/-- The files that are open, and those that requests are for, have been opened for the side of the job
that uses them; `P` says which files may be. -/
structure Wired (P : ℕ → Side → Ino → Prop) (s : State) : Prop where
  flags : ∀ i f, s.files.get? i = some f →
    f.sourceFd.oflag = sourceFlags ∧ f.destFd.oflag = destFlags
  files : ∀ i f side ino, s.files.get? i = some f → (f.fd side).getFd = some ino → P i side ino
  reqs : ∀ e ∈ pendingReqs s.sq s.chains, ∀ x ino, s.runners.get? e.runner = some x →
    e.fd = some ino → (e.op = .read → P x.file .source ino) ∧ (e.op = .write → P x.file .dest ino)

theorem keeps_modifyFd {g : QueueFileDescriptor → QueueFileDescriptor}
    (hflag : ∀ d, (g d).oflag = d.oflag)
    (hfd : ∀ d ino, (g d).getFd = some ino → d.getFd = some ino) (side : Side) (f : JobFiles) :
    f.Keeps (f.modifyFd g side) := by
  cases side with
  | source =>
    refine ⟨hflag _, rfl, fun side ino h => ?_⟩
    cases side with
    | source => exact hfd _ ino h
    | dest => exact h
  | dest =>
    refine ⟨rfl, hflag _, fun side ino h => ?_⟩
    cases side with
    | source => exact h
    | dest => exact hfd _ ino h

/-- Nothing is opened, and the requests are the same. -/
theorem Wired.of_files (h : Wired P s)
    (hf : ∀ i f', s'.files.get? i = some f' → ∃ f, s.files.get? i = some f ∧ f.Keeps f')
    (hr : ∀ r x', s'.runners.get? r = some x' → ∃ x, s.runners.get? r = some x ∧ x'.file = x.file)
    (he : ∀ e ∈ pendingReqs s'.sq s'.chains, e ∈ pendingReqs s.sq s.chains) : Wired P s' where
  flags i f' hf' := by
    obtain ⟨f, hf, hk⟩ := hf i f' hf'
    rw [hk.source, hk.dest]
    exact h.flags i f hf
  files i f' side ino hf' hino := by
    obtain ⟨f, hf, hk⟩ := hf i f' hf'
    exact h.files i f side ino hf (hk.files side ino hino)
  reqs e hmem x' ino hx' hino := by
    obtain ⟨x, hx, hfile⟩ := hr e.runner x' hx'
    rw [hfile]
    exact h.reqs e (he e hmem) x ino hx hino

theorem keeps_refl (i : ℕ) (f' : JobFiles) (h : s.files.get? i = some f') :
    ∃ f, s.files.get? i = some f ∧ f.Keeps f' := ⟨f', h, ⟨rfl, rfl, fun _ _ h => h⟩⟩

theorem keeps_modify {j : ℕ} {g : JobFiles → JobFiles} (hg : ∀ f : JobFiles, f.Keeps (g f)) (i : ℕ)
    (f' : JobFiles) (h : (s.files.modify j g).get? i = some f') :
    ∃ f, s.files.get? i = some f ∧ f.Keeps f' := by
  obtain ⟨f, hf, ⟨-, rfl⟩ | ⟨-, rfl⟩⟩ := Store.exists_of_get?_modify h
  · exact ⟨f, hf, hg f⟩
  · exact keeps_refl i f' hf

/-- A descriptor is opened. -/
theorem Wired.open (h : Wired P s) {i : ℕ} {side : Side} {ino : Ino} (low : Bool)
    (hP : P i side ino) {s' : State}
    (hf : s'.files = s.files.modify i fun y => y.modifyFd (·.openedAs low ino) side)
    (hr : s'.runners = s.runners) (hq : s'.sq = s.sq) (hc : s'.chains = s.chains) : Wired P s' where
  flags j f' hf' := by
    rw [hf] at hf'
    obtain ⟨f, hfj, ⟨-, rfl⟩ | ⟨-, rfl⟩⟩ := Store.exists_of_get?_modify hf'
    · cases side <;> exact h.flags j f hfj
    · exact h.flags j f' hfj
  files j f' side' ino' hf' hino := by
    rw [hf] at hf'
    obtain ⟨f, hfj, ⟨rfl, rfl, hfd⟩ | ⟨-, hfd⟩⟩ := fd_of_modifyFd side' hf'
    · rw [hfd] at hino
      cases hino
      exact hP
    · rw [hfd] at hino
      exact h.files j f side' ino' hfj hino
  reqs := by
    rw [hr, hq, hc]
    exact h.reqs

/-- What a round asks for. -/
theorem fd_requests {x : CopyRunner} {modes : DebugModes} {a b r : ℕ} {src dst : Option Ino} {e : Sqe}
    (he : e ∈ x.requests modes a b src dst r) :
    (e.op = .read → e.fd = src) ∧ (e.op = .write → e.fd = dst) ∧ e.runner = r := by
  rcases mem_append.mp he with he | he
  · unfold CopyRunner.readSqe at he
    simp only at he
    split at he
    · rw [mem_singleton.mp he]
      exact ⟨fun _ => rfl, nofun, rfl⟩
    · cases he
  · unfold CopyRunner.writeSqe at he
    split at he
    · split at he
      · rw [mem_singleton.mp he]
        exact ⟨nofun, nofun, rfl⟩
      · rw [mem_singleton.mp he]
        exact ⟨nofun, fun _ => rfl, rfl⟩
    · cases he

theorem wired_move (hm : Move cfg s l s') (hring : State.Ring s)
    (hok : ∀ i side ino, opened cfg s l = some (i, side, ino) → P i side ino) (h : Wired P s) :
    Wired P s' := by
  have hsame : ∀ e ∈ pendingReqs s.sq s.chains, e ∈ pendingReqs s.sq s.chains := fun _ he => he
  cases hm with
  | addCopyJob =>
    refine ⟨?_, ?_, h.reqs⟩
    · intro i f hf
      rcases Store.of_get?_push hf with ⟨-, rfl⟩ | ⟨-, hf⟩
      · exact ⟨rfl, rfl⟩
      · exact h.flags i f hf
    · intro i f side ino hf hino
      rcases Store.of_get?_push hf with ⟨-, rfl⟩ | ⟨-, hf⟩
      · cases side <;> cases hino
      · exact h.files i f side ino hf hino
  | ctorOpened hm hf ho => exact h.open true (hok _ _ _ (opened_ctor hm hf ho)) rfl rfl rfl rfl
  | opened hp hr hf ho => exact h.open false (hok _ _ _ (opened_ensure hp hr hf ho)) rfl rfl rfl rfl
  | ctorFailed | openFailed =>
    exact h.of_files (keeps_modify (keeps_modifyFd (g := (·.failedOpen)) (fun _ => rfl)
      (fun _ _ h => h) _)) keep_refl hsame
  | close =>
    exact h.of_files (keeps_modify (keeps_modifyFd (g := (·.closedByKernel)) (fun _ => rfl)
      (fun _ _ h => h) _)) keep_refl hsame
  | notify =>
    exact h.of_files (keeps_modify (keeps_modifyFd (g := (·.notifyClosed)) (fun _ => rfl)
      (fun _ _ h => by cases h) _)) keep_refl hsame
  | beginParts =>
    exact h.of_files (keeps_modify fun _ => ⟨rfl, rfl, fun side _ h => by cases side <;> exact h⟩)
      keep_refl hsame
  | partPush =>
    refine ⟨h.flags, h.files, ?_⟩
    intro e he x ino hx hino
    rcases Store.of_get?_push hx with ⟨hnew, -⟩ | ⟨-, hx⟩
    · obtain ⟨y, hy⟩ := hring.live e.tag (mem_append_left _ (mem_map_of_mem he))
      exact absurd (Store.lt_next hy) (by rw [Sqe.tag, hnew]; exact lt_irrefl _)
    · exact h.reqs e he x ino hx hino
  | takeGive => exact h.of_files keeps_refl (keep_modify fun _ => rfl) hsame
  | completion =>
    exact h.of_files keeps_refl (keep_modify fun _ => CopyRunner.onCompletionEvent_same.file) hsame
  | @batch n r a b x f sqes hp hr hf hj he hle =>
    have hold : Wired P { s with
        runners := s.runners.modify r fun x => x.submitted cfg.modes a sqes.length } :=
      h.of_files keeps_refl (keep_modify fun _ => rfl) hsame
    refine ⟨h.flags, h.files, ?_⟩
    intro e hmem y ino hy hino
    rw [pendingReqs, append_assoc, mem_append, mem_append] at hmem
    rcases hmem with hsq | hnew | hch
    · exact hold.reqs e (mem_append_left _ hsq) y ino hy hino
    · rw [he] at hnew
      obtain ⟨hread, hwrite, hrun⟩ := fd_requests hnew
      rw [hrun] at hy
      obtain ⟨x', hx', hfile⟩ := keep_modify
        (g := fun x => x.submitted cfg.modes a sqes.length) (fun _ => rfl) r y hy
      rw [hr] at hx'
      cases hx'
      rw [hfile]
      constructor
      · intro hop
        exact h.files x.file f .source ino hf ((hread hop).symm.trans hino)
      · intro hop
        exact h.files x.file f .dest ino hf ((hwrite hop).symm.trans hino)
    · exact hold.reqs e (mem_append_right _ hch) y ino hy hino
  | submit =>
    exact h.of_files keeps_refl keep_refl fun e he => (pendingReqs_submit _ _ _).mem_iff.mp he
  | kernel hi hc =>
    obtain ⟨e, rest, hreqs, hrest, -, -⟩ := Chain.complete_spec hc
    refine h.of_files keeps_refl keep_refl fun e' he' => ?_
    exact (pendingReqs_kernel s.sq hi hreqs hrest).mem_iff.mpr (mem_cons_of_mem _ he')
  | deleteShared =>
    exact h.of_files (keeps_modify fun _ => ⟨rfl, rfl, fun side _ h => by cases side <;> exact h⟩)
      keep_erase hsame
  | deleteLast =>
    exact h.of_files (fun i f hf => keeps_refl i f (Store.of_get?_erase hf).2)
      keep_erase hsame
  | _ => exact ⟨h.flags, h.files, h.reqs⟩

theorem reachIn_wired {ok : State → Label → Prop}
    (hok : ∀ s l, ok s l → ∀ i side ino, opened cfg s l = some (i, side, ino) → P i side ino)
    (h : (system cfg).ReachIn ok s) : Wired P s := by
  refine h.invariant ?_ fun s l s' hr hs hl hstep =>
    wired_move (step_move hstep).2 (reachable_ring hr) (hok s l hl) hs
  rintro s ⟨storage, rfl⟩
  refine ⟨?_, ?_, fun e he => absurd he not_mem_nil⟩
  · intro i f hf
    cases hf
  · intro i f side ino hf
    cases hf

/-! ## What is changed -/

/-- Opening a source changes nothing, and opening a destination truncates it. -/
theorem disk_truncateOnOpen {f : JobFiles} {side : Side} {ino : Ino}
    (hflags : f.sourceFd.oflag = sourceFlags ∧ f.destFd.oflag = destFlags) (st : Storage) :
    (truncateOnOpen (f.fd side) ino st).disk c = if side = .dest ∧ ino = c then [] else st.disk c := by
  unfold truncateOnOpen
  cases side with
  | source =>
    rw [JobFiles.fd, hflags.1]
    rfl
  | dest =>
    rw [JobFiles.fd, hflags.2]
    show Function.update st.disk ino [] c = _
    by_cases hc : ino = c
    · rw [hc, Function.update_self, if_pos ⟨rfl, rfl⟩]
    · rw [Function.update_of_ne (Ne.symm hc), if_neg fun h => hc h.2]

/-- A request that does not write to file `c` leaves it alone. -/
theorem disk_effect {e : Sqe} (he : e.op = .write → e.fd ≠ some c) (st : Storage) (res : ℤ) :
    (e.effect st res).disk c = st.disk c := by
  unfold Sqe.effect
  split
  · split <;> rfl
  · rename_i ino hop hfd
    split
    · rfl
    · refine Function.update_of_ne ?_ _ _
      rintro rfl
      exact he hop hfd
  · rfl

/-- No destination is opened as file `c`, and no other process changes it. -/
structure Spares (cfg : Config) (c : Ino) (s : State) (l : Label) : Prop where
  dest : ∀ i, opened cfg s l ≠ some (i, .dest, c)
  alone : ∀ content, l ≠ .otherProcess c content

/-- A file that no destination was opened as is not changed. -/
theorem disk_move (hm : Move cfg s l s') (hring : State.Ring s)
    (hw : Wired (fun _ side ino => side = .dest → ino ≠ c) s) (hok : Spares cfg c s l) :
    s'.storage.disk c = s.storage.disk c := by
  cases hm with
  | @ctorOpened i job side f ino answers hm hf ho =>
    refine (disk_truncateOnOpen (hw.flags i f hf) _).trans (if_neg ?_)
    rintro ⟨rfl, rfl⟩
    exact hok.dest i (opened_ctor hm hf ho)
  | @opened n r side x f ino answers hp hr hf ho =>
    refine (disk_truncateOnOpen (hw.flags x.file f hf) _).trans (if_neg ?_)
    rintro ⟨rfl, rfl⟩
    exact hok.dest x.file (opened_ensure hp hr hf ho)
  | @kernel i res chain chain' st cqe hi hc =>
    obtain ⟨e, rest, hreqs, hrest, -, hhow⟩ := Chain.complete_spec hc
    rcases hhow with ⟨-, -, hst, -⟩ | ⟨-, -, hst, -⟩
    · rw [hst]
    · have hmem : e ∈ pendingReqs s.sq s.chains :=
        (pendingReqs_kernel s.sq hi hreqs hrest).mem_iff.mpr mem_cons_self
      obtain ⟨x, hx⟩ := hring.live e.tag (mem_append_left _ (mem_map_of_mem hmem))
      rw [hst]
      refine disk_effect (fun hop hfd => ?_) _ _
      exact (hw.reqs e hmem x c hx hfd).2 hop rfl rfl
  | @otherProcess ino content =>
    have hne : c ≠ ino := fun he => hok.alone content (he ▸ rfl)
    exact Function.update_of_ne hne _ _
  | _ => rfl

/-- Whatever the jobs are. -/
theorem reachIn_spared {ok : State → Label → Prop} (hok : ∀ s l, ok s l → Spares cfg c s l)
    (h : (systemFrom cfg storage).ReachIn ok s) : s.storage.disk c = storage.disk c := by
  refine h.invariant (P := fun s => s.storage.disk c = storage.disk c) ?_
    fun s l s' hr hs hl hstep => ?_
  · rintro s rfl
    rfl
  · have hr := reachIn_of_systemFrom hr
    have hw : Wired (fun _ side ino => side = .dest → ino ≠ c) s := by
      refine reachIn_wired (fun s l hl i side ino ho => ?_) hr
      rintro rfl rfl
      exact (hok s l hl).dest i ho
    exact (disk_move (step_move hstep).2 (reachable_ring hr) hw (hok s l hl)).trans hs

/-- The jobs are those of a call of the program. -/
def Calls (fs : FileSystem) (strerror : Errno → List Char) (access : Path → Bool)
    (cwd src dest : Path) (l : Label) : Prop :=
  ∀ job, l = .addCopyJob job → ∃ n, .addCopyJob job ∈ wcpOps fs strerror access cwd src dest n

/-! ## A call of the program -/

section Call

variable {fs : FileSystem} {strerror : Errno → List Char} {access : Path → Bool}
  {cwd src dest : Path}

/-- Every open is answered by what the path stands for, and no other process changes a file. -/
structure Resolves (cfg : Config) (resolve : Path → Ino) (s : State) (l : Label) : Prop where
  opens : ∀ f side ino x, opened cfg s l = some (f, side, ino) → s.files.get? f = some x →
    ino = resolve (x.fd side).path
  alone : ∀ ino content, l ≠ .otherProcess ino content

/-- For every source and destination and every file system: in every run of a call, a file keeps its
content if no destination was opened as this file, and no other process has changed it. (This is so
whatever jobs a queue is given; `Calls` says that they are those of the call.) -/
theorem source_kept (h : (systemFrom cfg storage).ReachIn
      (fun s l => Calls fs strerror access cwd src dest l ∧ Spares cfg c s l) s) :
    s.storage.disk c = storage.disk c :=
  reachIn_spared (fun _ _ hl => hl.2) h

/-- A file system with one file of eight bytes, and the directory `d`. -/
def oneFileFs (path : Path) : FileSystem where
  openDir _ _ := .ok 0
  getdents _ _ _ := .ok []
  statx p _ :=
    if p = path then .ok ⟨.reg, 8, 4, 0⟩
    else if p = ['d'] then .ok ⟨.dir, 4096, 4096, 0o40755⟩
    else .error ENOENT
  readlink _ _ := .error ENOENT
  symlink _ _ _ := .ok ()
  mkdir _ := .ok ()
  stat64 _ := .ok .dir

/-- The only job of a call. -/
def onlyJobCheck (job : Job) : Label → Bool
  | .addCopyJob job' => decide (job' = job)
  | .otherProcess _ _ => false
  | _ => true

theorem calls_of_check {job : Job}
    (hjob : .addCopyJob job ∈ wcpOps fs strerror access cwd src dest 0)
    (h : onlyJobCheck job l = true) :
    Calls fs strerror access cwd src dest l ∧ ∀ ino content, l ≠ .otherProcess ino content := by
  constructor
  · rintro job' rfl
    rw [of_decide_eq_true h]
    exact ⟨0, hjob⟩
  · rintro ino content rfl
    cases h

/-- `wcp a b` has opened both files. -/
theorem source_kept_oneChunk : ∃ s, (systemFrom smallConfig (smallStorage 8)).ReachIn
      (fun s l => Calls (oneFileFs ['a']) (fun _ => []) (fun _ => true) ['/'] ['a'] ['b'] l ∧
        Spares smallConfig 1 s l) s ∧
    s.submit = .batch 0 0 ∧ s.storage.disk 1 = List.replicate 8 7 := by
  have hcheck : ∀ s l, (onlyJobCheck (smallJob 8) l && (opened smallConfig s l).all fun o =>
      decide (o.2 ≠ (.dest, 1))) = true →
      Calls (oneFileFs ['a']) (fun _ => []) (fun _ => true) ['/'] ['a'] ['b'] l ∧
        Spares smallConfig 1 s l := by
    intro s l h
    obtain ⟨hjob, hopen⟩ := Bool.and_eq_true_iff.mp h
    have hmem : .addCopyJob (smallJob 8) ∈ wcpOps (oneFileFs ['a']) (fun _ => []) (fun _ => true)
      ['/'] ['a'] ['b'] 0 := by decide
    obtain ⟨hcalls, halone⟩ := calls_of_check hmem hjob
    refine ⟨hcalls, ⟨fun f hf => ?_, halone 1⟩⟩
    rw [hf, Option.all_some] at hopen
    exact of_decide_eq_true hopen rfl
  obtain ⟨s, hs, hp⟩ := Transition.System.ReachIn.exists_of_runIn hcheck
    (S := systemFrom smallConfig (smallStorage 8)) rfl oneChunkSteps
    (fun s => decide (s.submit = .batch 0 0)) (by decide +kernel)
  exact ⟨s, hs, of_decide_eq_true hp, source_kept hs⟩

/-- The file `d/f` is copied to itself. -/
def selfJob : Job := { smallJob 8 with src := ['d', '/', 'f'], dest := ['d', '/', 'f'] }

/-- `wcp d/f d`: the source is opened, the destination is opened and truncated, and the first read
finds the end of the file. -/
def selfCopySteps : List Label := List.flatten [
  addJobSteps selfJob (opensAs 1) (opensAs 1), [.start, .join .return, .main .tick], ticks 10, [.submit (.rand 0 0)], ticks 1,
  [.submit (.submitted 2), .kernel 0 0, .kernel 0 (-125), .submit (.peeked (some 0))], ticks 1,
  [.submit (.closed (.ok ()))], ticks 2, [.submit (.closed (.ok ()))], ticks 4,
  [.submit (.peeked (some 0))], ticks 6, [.main .tick]]

/-- The file `d/f` is lost when it is copied to the directory it is in. -/
theorem source_emptied :
    (wcpMain (oneFileFs ['d', '/', 'f']) (fun _ => []) (fun _ => true) ['/'] ['d', '/', 'f'] ['d']).2 =
      .addFileCopy ['d', '/', 'f'] ['d', '/', 'f'] ⟨.reg, 8, 4, 0⟩ ∧
    ∃ s, (systemFrom smallConfig (smallStorage 8)).ReachIn (fun s l =>
        Calls (oneFileFs ['d', '/', 'f']) (fun _ => []) (fun _ => true) ['/'] ['d', '/', 'f'] ['d'] l ∧
        Resolves smallConfig (fun p => if p = ['d', '/', 'f'] then 1 else 0) s l) s ∧
      s.joined = [false] ∧ (smallStorage 8).disk 1 = List.replicate 8 7 ∧ s.storage.disk 1 = [] := by
  refine ⟨by decide, ?_⟩
  have hcheck : ∀ s l, (onlyJobCheck selfJob l &&
      (opened smallConfig s l).all fun o => (s.files.get? o.1).all fun x =>
        decide (o.2.2 = if (x.fd o.2.1).path = ['d', '/', 'f'] then 1 else 0)) = true →
      Calls (oneFileFs ['d', '/', 'f']) (fun _ => []) (fun _ => true) ['/'] ['d', '/', 'f'] ['d'] l ∧
        Resolves smallConfig (fun p => if p = ['d', '/', 'f'] then 1 else 0) s l := by
    intro s l h
    obtain ⟨hjob, hopen⟩ := Bool.and_eq_true_iff.mp h
    have hmem : .addCopyJob selfJob ∈ wcpOps (oneFileFs ['d', '/', 'f']) (fun _ => []) (fun _ => true)
      ['/'] ['d', '/', 'f'] ['d'] 0 := by decide
    obtain ⟨hcalls, halone⟩ := calls_of_check hmem hjob
    refine ⟨hcalls, ⟨fun f side ino x ho hx => ?_, halone⟩⟩
    simp only [ho, Option.all_some, hx] at hopen
    exact of_decide_eq_true hopen
  obtain ⟨s, hs, hp⟩ := Transition.System.ReachIn.exists_of_runIn hcheck
    (S := systemFrom smallConfig (smallStorage 8)) rfl selfCopySteps
    (fun s => decide (s.joined = [false] ∧ s.storage.disk 1 = [])) (by decide +kernel)
  obtain ⟨hjoined, hdisk⟩ := of_decide_eq_true hp
  exact ⟨s, hs, hjoined, rfl, hdisk⟩

end Call

end CopyQueue

end Wcp
