import WcpVerified.Proofs.CopiedProofs

/-!
# Proofs: every job of a queue is copied

The jobs of a queue are numbered as they were added, and the descriptors of a job keep its paths. If
every open is answered by the file that the path stands for, and no destination is the source or the
destination of another job, a run of the queue is for each of its jobs a run that copies its file.
-/

namespace Wcp

open List ByteImage

/-- The descriptors are those of the paths of the job. -/
def JobFiles.Paths (f : JobFiles) : Prop := f.sourceFd.path = f.job.src ∧ f.destFd.path = f.job.dest

namespace JobFiles

variable {f : JobFiles}

theorem paths_modifyFd {g : QueueFileDescriptor → QueueFileDescriptor} (hg : ∀ d, (g d).path = d.path)
    (side : Side) (h : f.Paths) : (f.modifyFd g side).Paths := by
  cases side with
  | source => exact ⟨(hg _).trans h.1, h.2⟩
  | dest => exact ⟨h.1, (hg _).trans h.2⟩

end JobFiles

namespace CopyQueue

variable {cfg : Config} {storage : Storage} {resolve : Path → Ino} {s s' : State} {l : Label} {i : ℕ}
  {job : Job}

theorem getElem?_of_initial {α : Type} {xs ys : List α} {a : α} (h : xs <+: ys)
    (hi : xs[i]? = some a) : ys[i]? = some a := by
  obtain ⟨more, rfl⟩ := h
  rw [getElem?_append_left (List.getElem?_eq_some_iff.mp hi).1, hi]

/-! ## The numbers of the jobs -/

/-- The objects of file number `i` are those of the job that was added as number `i`. -/
structure Numbered (s : State) : Prop where
  next : s.files.next = s.jobs.length
  jobs : ∀ i f, s.files.get? i = some f → s.jobs[i]? = some f.job ∧ f.Paths

theorem Numbered.of_back (h : Numbered s) (hnext : s'.files.next = s.files.next)
    (hjobs : s'.jobs = s.jobs) (hback : ∀ i f', s'.files.get? i = some f' →
      ∃ f, s.files.get? i = some f ∧ f'.job = f.job ∧ (f.Paths → f'.Paths)) : Numbered s' where
  next := by rw [hnext, hjobs, h.next]
  jobs i f' hf' := by
    obtain ⟨f, hf, hjob, hpaths⟩ := hback i f' hf'
    obtain ⟨hget, hp⟩ := h.jobs i f hf
    exact ⟨by rw [hjobs, hjob, hget], hpaths hp⟩

theorem Numbered.modify (h : Numbered s) {j : ℕ} {g : JobFiles → JobFiles}
    (hfiles : s'.files = s.files.modify j g) (hjobs : s'.jobs = s.jobs)
    (hg : ∀ f, (g f).job = f.job ∧ (f.Paths → (g f).Paths)) : Numbered s' := by
  refine h.of_back (by rw [hfiles, Store.next_modify]) hjobs fun i f' hf' => ?_
  rw [hfiles] at hf'
  obtain ⟨f, hf, hcase⟩ := Store.exists_of_get?_modify hf'
  refine ⟨f, hf, ?_⟩
  rcases hcase with ⟨-, rfl⟩ | ⟨-, rfl⟩
  · exact hg f
  · exact ⟨rfl, id⟩

theorem numbered_move (hm : Move cfg s l s') (h : Numbered s) : Numbered s' := by
  cases hm with
  | @addCopyJob job =>
    constructor
    · show s.files.next + 1 = (s.jobs ++ [job]).length
      rw [length_append, h.next]
      rfl
    · intro i f hf
      show (s.jobs ++ [job])[i]? = some f.job ∧ f.Paths
      rcases Store.of_get?_push hf with ⟨rfl, rfl⟩ | ⟨-, hf⟩
      · rw [h.next]
        exact ⟨getElem?_concat_length, rfl, rfl⟩
      · obtain ⟨hget, hp⟩ := h.jobs i f hf
        exact ⟨getElem?_append_left (h.next ▸ Store.lt_next hf) ▸ hget, hp⟩
  | ctorOpened | ctorFailed | opened | openFailed | close | notify =>
    refine h.modify rfl rfl fun f => ⟨modifyFd_job _ _ f, ?_⟩
    apply JobFiles.paths_modifyFd
    intro d
    rfl
  | beginParts | deleteShared => exact h.modify rfl rfl fun f => ⟨rfl, id⟩
  | deleteLast =>
    refine h.of_back rfl rfl fun i f' hf' => ?_
    exact ⟨f', (Store.of_get?_erase hf').2, rfl, id⟩
  | _ => exact h.of_back rfl rfl fun i f' hf' => ⟨f', hf', rfl, id⟩

theorem reachable_numbered {ok : State → Label → Prop} (h : (system cfg).ReachIn ok s) :
    Numbered s := by
  refine h.invariant ?_ fun s l s' _ hs _ hstep => numbered_move (step_move hstep).2 hs
  rintro s ⟨storage, rfl⟩
  exact ⟨rfl, fun i f hf => by cases hf⟩

/-- No job is ever taken from the list. -/
theorem jobs_grow (h : step cfg s l = some s') : s.jobs <+: s'.jobs := by
  cases (step_move h).2 with
  | addCopyJob => exact prefix_append _ _
  | _ => exact prefix_rfl

theorem reachIn_job_accepted {ok : State → Label → Prop} (hok : ∀ s l, ok s l → Regular cfg s l)
    (h : (system cfg).ReachIn ok s) : ∀ job ∈ s.jobs, Accepted cfg.heap job := by
  refine h.invariant (P := fun s => ∀ job ∈ s.jobs, Accepted cfg.heap job) ?_
    fun s l s' _ hs hl hstep => ?_
  · rintro s ⟨storage, rfl⟩ job hjob
    cases hjob
  · cases (step_move hstep).2 with
    | @addCopyJob job' =>
      intro job hjob
      rcases mem_append.mp hjob with hjob | hjob
      · exact hs job hjob
      · rw [mem_singleton.mp hjob]
        exact (hok s _ hl).jobs job' rfl
    | _ => exact hs

/-! ## Runs with many jobs -/

/-- No destination is the source, or another destination, of a list of jobs. -/
structure Separate (resolve : Path → Ino) (jobs : List Job) : Prop where
  dests : (jobs.map fun job => resolve job.dest).Nodup
  sources : ∀ job ∈ jobs, ∀ other ∈ jobs, resolve job.src ≠ resolve other.dest

theorem Separate.perm {jobs jobs' : List Job} (h : Separate resolve jobs) (hp : jobs ~ jobs') :
    Separate resolve jobs' where
  dests := (hp.map _).nodup_iff.mp h.dests
  sources job hj other ho := h.sources job (hp.mem_iff.mpr hj) other (hp.mem_iff.mpr ho)

theorem Separate.dest_ne {jobs : List Job} {j : ℕ} {other : Job} (h : Separate resolve jobs)
    (hi : jobs[i]? = some job) (hj : jobs[j]? = some other) (hne : j ≠ i) :
    resolve other.dest ≠ resolve job.dest := by
  intro heq
  have hlt : j < (jobs.map fun job => resolve job.dest).length := by
    rw [length_map]
    exact (List.getElem?_eq_some_iff.mp hj).1
  refine hne ((getElem?_inj hlt h.dests).mp ?_)
  rw [getElem?_map, getElem?_map, hi, hj]
  exact congrArg some heq

/-- The steps of the runs in which every open is answered by what the path stands for. -/
def Faithful (cfg : Config) (resolve : Path → Ino) (s : State) (l : Label) : Prop :=
  Regular cfg s l ∧ Resolves cfg resolve s l

/-- What is opened belongs to a job that is at work. -/
theorem exists_of_opened {j : ℕ} {side : Side} {ino : Ino}
    (h : opened cfg s l = some (j, side, ino)) : ∃ f, s.files.get? j = some f := by
  unfold opened at h
  obtain ⟨⟨j', side', answers⟩, -, h⟩ := Option.bind_eq_some_iff.mp h
  obtain ⟨f, hf, h⟩ := Option.bind_eq_some_iff.mp h
  obtain ⟨ino', -, he⟩ := Option.map_eq_some_iff.mp h
  cases he
  exact ⟨f, hf⟩

theorem step_addCopyJob (h : step cfg s (.addCopyJob job) = some s') : s' = beginCopyJob job s := by
  unfold step at h
  split at h
  · cases h
  · simp only at h
    split at h
    · exact (Option.some.inj h).symm
    · cases h

/-- A step of such a run copies the file of each job there will be. -/
theorem copiesTo_of_faithful {jobs : List Job} (hn : Numbered s) (hok : Faithful cfg resolve s l)
    (hs' : step cfg s l = some s') (hpre : s'.jobs <+: jobs) (hsep : Separate resolve jobs)
    (hi : jobs[i]? = some job) : CopiesTo cfg i job (resolve job.src) (resolve job.dest) s l where
  toRegular := hok.1
  job job' hl hnext := by
    subst hl
    have hget : s'.jobs[i]? = some job' := by
      rw [step_addCopyJob hs', ← hnext, hn.next]
      exact getElem?_concat_length
    have hjob := getElem?_of_initial hpre hget
    rw [hi] at hjob
    exact (Option.some.inj hjob).symm
  opens j side ino ho := by
    obtain ⟨f, hf⟩ := exists_of_opened ho
    have hino := hok.2.opens j side ino f ho hf
    obtain ⟨hget, hpaths⟩ := hn.jobs j f hf
    have hother : jobs[j]? = some f.job :=
      getElem?_of_initial hpre (getElem?_of_initial (jobs_grow hs') hget)
    cases side with
    | source =>
      rintro rfl
      rw [hi] at hother
      cases hother
      exact hino.trans (congrArg resolve hpaths.1)
    | dest =>
      have hdest : ino = resolve f.job.dest := hino.trans (congrArg resolve hpaths.2)
      constructor
      · rintro rfl
        rw [hi] at hother
        cases hother
        exact hdest
      · intro hne
        rw [hdest]
        refine ⟨?_, hsep.dest_ne hi hother hne⟩
        exact (hsep.sources job (mem_of_getElem? hi) f.job (mem_of_getElem? hother)).symm
  alone ino content hl := absurd hl (hok.2.alone ino content)

/-- For each of its jobs, the run of a queue is one that copies the file of the job. -/
theorem reachIn_copiesTo (h : (systemFrom cfg storage).ReachIn (Faithful cfg resolve) s)
    (hsep : Separate resolve s.jobs) (hi : s.jobs[i]? = some job) :
    (systemFrom cfg storage).ReachIn (CopiesTo cfg i job (resolve job.src) (resolve job.dest)) s := by
  have hbefore := (h.before (r := fun s s' => s.jobs <+: s'.jobs) (fun _ => prefix_rfl)
    (fun _ _ _ => IsPrefix.trans) fun _ _ _ => jobs_grow).and
      fun t ht => reachable_numbered (reachIn_of_systemFrom ht)
  refine hbefore.mono fun t l hl => ?_
  obtain ⟨⟨hok, t', ht', hpre⟩, hn⟩ := hl
  exact copiesTo_of_faithful hn hok ht' hpre hsep hi

/-- Once its objects and its runners are gone, a file of which every byte has landed is the source. -/
theorem Landed.eq_of_gone {b : Ino} {data : List UInt8} (h : Landed i b data s)
    (hadded : i < s.files.next) (hfile : s.files.get? i = none)
    (hbuilt : ∀ p, building s.main = some p → p.1 ≠ i)
    (hgone : ∀ r x, s.runners.get? r = some x → x.file ≠ i) : s.storage.disk b = data := by
  have hopened : DestOpened i s := by
    refine ⟨hadded, ?_⟩
    rintro ⟨f, hf, -⟩
    rw [hfile] at hf
    cases hf
  refine eq_of_matches (h.length hopened) fun p _ hp => ?_
  rcases h.bytes p hp with hn | ⟨job', part, hb, -⟩ | ⟨r, x, hx, hxi, -⟩ | ⟨-, hm⟩
  · omega
  · exact absurd rfl (hbuilt _ hb)
  · exact absurd hxi (hgone r x hx)
  · exact hm p le_rfl (Nat.lt_succ_self p)

/-- When all runners are gone and no error was recorded, every job has been copied. -/
theorem jobs_copied (h : (systemFrom cfg storage).ReachIn (Faithful cfg resolve) s)
    (hsep : Separate resolve s.jobs)
    (hsize : ∀ job ∈ s.jobs, (storage.disk (resolve job.src)).length = job.stxSize)
    (hbuilt : building s.main = none) (hgone : ∀ r, s.runners.get? r = none)
    (herring : ¬ Erring s) (hjob : job ∈ s.jobs) :
    s.storage.disk (resolve job.dest) = storage.disk (resolve job.src) ∧
      s.storage.disk (resolve job.src) = storage.disk (resolve job.src) := by
  obtain ⟨i, hi⟩ := mem_iff_getElem?.mp hjob
  have hreach := reachIn_of_systemFrom h
  have hacc := reachIn_job_accepted (fun _ _ hl => hl.1) hreach job hjob
  have hab := hsep.sources job hjob job hjob
  have hcopies := reachIn_copiesTo h hsep hi
  have hnone : ∀ p, building s.main = some p → p.1 ≠ i := by
    intro p hp
    rw [hbuilt] at hp
    cases hp
  have hgone' : ∀ r x, s.runners.get? r = some x → x.file ≠ i := by
    intro r x hx
    rw [hgone r] at hx
    cases hx
  constructor
  · rcases (reachIn_landed hacc hab (hsize job hjob) hcopies).2 with herr | hl
    · exact absurd herr herring
    · refine hl.eq_of_gone ?_ (file_gone (reachable_sharedFiles hreach) hnone hgone') hnone hgone'
      rw [(reachable_numbered hreach).next]
      exact (List.getElem?_eq_some_iff.mp hi).1
  · exact reachIn_spared (fun _ _ hl => hl.spares hab) hcopies

end CopyQueue

end Wcp
