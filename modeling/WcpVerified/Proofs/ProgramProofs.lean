import WcpVerified.Program
import WcpVerified.Proofs.IterationProofs
import WcpVerified.Proofs.JobsProofs

/-!
# Proofs: a directory tree is copied

A run of the program is a run of its queue, with a job for each file that the walk has come to. When
the exit status is 0 the walk is over, all its jobs were added, all their runners are gone and no
error was recorded, so every file of the tree is at its place in the destination. A call of the walk that
fails is recorded before `join` is called, so the exit status is not 0 then.
-/

namespace Wcp

open List

namespace Program

open CopyQueue

variable {cfg : Config} {fs : FileSystem} {strerror : Errno → List Char} {plan : Plan}
  {action : OnCompletionAction} {storage : Storage} {p p' : Program} {l : ProgramLabel}
  {ok : Program → ProgramLabel → Prop}

/-! ## What a step of the program can do -/

/-- One step of the program: every way it can go. -/
inductive Turn (cfg : Config) (fs : FileSystem) (strerror : Errno → List Char) (plan : Plan)
    (action : OnCompletionAction) (p : Program) : ProgramLabel → Program → Prop where
  | walk (hm : p.queue.main = .ready) (hall : p.passed = p.walk.ops.length) (hpc : p.walk.pc ≠ .done) :
      Turn cfg fs strerror plan action p .walk { p with walk := plan.turn fs strerror p.walk }
  | pass {op : WalkOp} (hm : p.queue.main = .ready) (hop : p.walk.ops[p.passed]? = some op)
      (hcall : op.call? = none) :
      Turn cfg fs strerror plan action p .pass { p with passed := p.passed + 1 }
  | call {op : WalkOp} {lq : Label} {q : State} (hm : p.queue.main = .ready)
      (hop : p.walk.ops[p.passed]? = some op) (hcall : op.call? = some lq)
      (hq : CopyQueue.step cfg p.queue lq = some q) :
      Turn cfg fs strerror plan action p .pass { p with queue := q, passed := p.passed + 1 }
  | join {q : State} (hpc : p.walk.pc = .done) (hall : p.passed = p.walk.ops.length)
      (hj : p.joining = false) (hq : CopyQueue.step cfg p.queue (.join action) = some q) :
      Turn cfg fs strerror plan action p .join { p with queue := q, joining := true }
  | queue {lq : Label} {q : State} (hcall : lq.isCall = false)
      (hq : CopyQueue.step cfg p.queue lq = some q) :
      Turn cfg fs strerror plan action p (.queue lq) { p with queue := q }

theorem step_turn (h : step cfg fs strerror plan action p l = some p') :
    Turn cfg fs strerror plan action p l p' := by
  unfold step at h
  split at h
  · cases h
  · cases l with
    | walk =>
      simp only at h
      split at h
      · rename_i hc
        obtain ⟨hfree, hall, hpc⟩ := hc
        cases h
        simp only [free, Bool.and_eq_true, decide_eq_true_eq] at hfree
        exact .walk hfree.2 hall hpc
      · cases h
    | pass =>
      simp only at h
      split at h
      · rename_i hfree
        simp only [free, Bool.and_eq_true, decide_eq_true_eq] at hfree
        split at h
        · cases h
        · rename_i op hop
          obtain ⟨q, hq, rfl⟩ := Option.map_eq_some_iff.mp h
          unfold callStep at hq
          cases hcall : op.call? with
          | none =>
            rw [hcall] at hq
            cases hq
            exact .pass hfree.2 hop hcall
          | some lq =>
            rw [hcall] at hq
            exact .call hfree.2 hop hcall hq
      · cases h
    | join =>
      simp only at h
      split at h
      · rename_i hc
        obtain ⟨hpc, hall, hj⟩ := hc
        obtain ⟨q, hq, rfl⟩ := Option.map_eq_some_iff.mp h
        exact .join hpc hall (by simpa using hj) hq
      · cases h
    | queue lq =>
      simp only at h
      split at h
      · cases h
      · rename_i hcall
        obtain ⟨q, hq, rfl⟩ := Option.map_eq_some_iff.mp h
        exact .queue (by simpa using hcall) hq

/-- The step that the queue takes in a step of the program. -/
def queueLabel (action : OnCompletionAction) (p : Program) : ProgramLabel → Option Label
  | .walk => none
  | .pass => p.walk.ops[p.passed]?.bind WalkOp.call?
  | .join => some (.join action)
  | .queue l => some l

theorem Turn.queue_step (h : Turn cfg fs strerror plan action p l p') :
    (queueLabel action p l = none ∧ p'.queue = p.queue) ∨
      ∃ lq, queueLabel action p l = some lq ∧ CopyQueue.step cfg p.queue lq = some p'.queue := by
  cases h with
  | walk => exact .inl ⟨rfl, rfl⟩
  | pass hm hop hcall =>
    refine .inl ⟨?_, rfl⟩
    rw [queueLabel, hop]
    exact hcall
  | call hm hop hcall hq =>
    refine .inr ⟨_, ?_, hq⟩
    rw [queueLabel, hop]
    exact hcall
  | join hpc hall hj hq => exact .inr ⟨_, rfl, hq⟩
  | queue hcall hq => exact .inr ⟨_, rfl, hq⟩

/-- The queue takes only steps with a property. -/
def Takes (action : OnCompletionAction) (ok : State → Label → Prop) (p : Program) (l : ProgramLabel) :
    Prop := ∀ lq, queueLabel action p l = some lq → ok p.queue lq

theorem start_step : CopyQueue.step cfg (initial cfg storage) .start =
    some (start cfg (initial cfg storage)) := rfl

/-- The queue of a program runs as a queue does. -/
theorem reachIn_queue {ok : State → Label → Prop} (hstart : ok (initial cfg storage) .start)
    (h : (system cfg fs strerror plan action storage).ReachIn (Takes action ok) p) :
    (systemFrom cfg storage).ReachIn ok p.queue := by
  refine h.invariant (P := fun p => (systemFrom cfg storage).ReachIn ok p.queue) ?_
    fun p l p' _ hp hl hstep => ?_
  · rintro p ⟨w, -, rfl⟩
    exact .step (.init rfl) hstart start_step
  · rcases (step_turn hstep).queue_step with ⟨-, he⟩ | ⟨lq, hlq, hq⟩
    · rw [he]
      exact hp
    · exact .step hp (hl lq hlq) hq

/-- Every step of a program is one of its queue, or none. -/
theorem reachable_queue (h : (system cfg fs strerror plan action storage).ReachIn ok p) :
    (systemFrom cfg storage).Reachable p.queue :=
  reachIn_queue trivial (h.mono fun _ _ _ _ _ => trivial)

/-! ## The only session of the queue -/

/-- The queue of a program: `join` is called once, and afterwards nothing happens. -/
structure Session (joining : Bool) (s : State) : Prop where
  before : joining = false → s.state = .running ∧ s.joined = []
  during : joining = true → s.joined = [] → s.state = .additionComplete
  after : s.joined ≠ [] → joining = true ∧ s.state = .idle ∧ s.main = .ready ∧ s.keepAliveCount = 0
  errors : s.joined = [] → s.recorded ≠ [] → s.errored = true
  clean : s.joined = [true] → s.recorded = []

theorem step_join {s s' : State} (h : CopyQueue.step cfg s (.join action) = some s') :
    s' = { s with state := .additionComplete, main := .joinAction action } := by
  unfold CopyQueue.step at h
  split at h
  · cases h
  · simp only at h
    split at h
    · exact (Option.some.inj h).symm
    · cases h

theorem step_walkError {s s' : State} {e : Error} (h : CopyQueue.step cfg s (.walkError e) = some s') :
    s' = { recordError e s with failed := true } := by
  unfold CopyQueue.step at h
  split at h
  · cases h
  · simp only at h
    split at h
    · exact (Option.some.inj h).symm
    · cases h

namespace Session

variable {s s' : State} {lq : Label} {joining : Bool}

/-- The main thread is inside a function of the queue. -/
theorem of_main (h : Session joining s) (hbusy : s.main ≠ .ready) (hst : s'.state = s.state)
    (hj : s'.joined = s.joined) (he : s'.errored = s.errored) (hr : s'.recorded = s.recorded) :
    Session joining s' where
  before hjoining := by
    rw [hst, hj]
    exact h.before hjoining
  during hjoining := by
    rw [hst, hj]
    exact h.during hjoining
  after hne := absurd (h.after (hj ▸ hne)).2.2.1 hbusy
  errors := by
    rw [hj, he, hr]
    exact h.errors
  clean := by
    rw [hj, hr]
    exact h.clean

/-- Once everything has been added, `join` has been called and has not returned. -/
theorem joining_of_additionComplete (h : Session joining s) (hstate : s.state = .additionComplete) :
    joining = true := by
  by_contra hne
  have hrun := (h.before (Bool.eq_false_iff.mpr hne)).1
  rw [hstate] at hrun
  cases hrun

theorem joined_of_additionComplete (h : Session joining s) (hstate : s.state = .additionComplete) :
    s.joined = [] := by
  by_contra hne
  have hidle := (h.after hne).2.1
  rw [hstate] at hidle
  cases hidle

theorem move (hm : Move cfg s lq s') (hcall : lq.isCall = false) (ht : Threads cfg s)
    (h : Session joining s) : Session joining s' := by
  cases hm with
  | start | addCopyJob | walkError | join => cases hcall
  | ctorLoad hm | ctorSkip hm | ctorReserve hm | ctorOpened hm | ctorFailed hm | ctorNext hm
  | beginParts hm | partTotal hm | partEta hm | partPush hm | joinAction hm | joinUnlock hm =>
    exact h.of_main (by rw [hm]; intro hc; cases hc) rfl rfl rfl rfl
  | joinFinish hm hp =>
    obtain ⟨hstate, hkeep⟩ := isDone_iff.mp (isDone_of_joinFinish ht hm hp)
    have hjoining := h.joining_of_additionComplete hstate
    have hnil := h.joined_of_additionComplete hstate
    have hjoined : (finishJoin s).joined = [!s.errored] := by
      show s.joined ++ [!s.errored] = _
      rw [hnil]
      rfl
    refine ⟨fun hj => ?_, fun _ hj => ?_, fun _ => ⟨hjoining, rfl, rfl, hkeep⟩, fun hj => ?_, fun hj => ?_⟩
    · rw [hjoining] at hj
      cases hj
    · rw [hjoined] at hj
      cases hj
    · rw [hjoined] at hj
      cases hj
    · -- no error was known when `join` returned
      rw [hjoined] at hj
      by_contra hne
      have herr := h.errors hnil hne
      rw [herr] at hj
      cases hj
  | record hp =>
    have hnil : s.joined = [] := by
      by_contra hne
      have halive := ht.idle (h.after hne).2.1
      rw [hp] at halive
      cases halive
    refine ⟨h.before, h.during, h.after, fun _ _ => rfl, fun hj => ?_⟩
    have hj : s.joined = [true] := hj
    rw [hnil] at hj
    cases hj
  | deleteShared | deleteLast =>
    refine ⟨h.before, h.during, fun hne => ?_, h.errors, h.clean⟩
    obtain ⟨hj, hst, hm, hkeep⟩ := h.after hne
    refine ⟨hj, hst, hm, ?_⟩
    show s.keepAliveCount - 1 = 0
    rw [hkeep]
  | _ => exact { h with }

theorem isCall_of_call? {op : WalkOp} (h : op.call? = some lq) :
    (∃ job, lq = .addCopyJob job) ∨ ∃ e, lq = .walkError e := by
  cases op with
  | addCopyJob job => exact .inl ⟨job, (Option.some.inj h).symm⟩
  | onError path e => exact .inr ⟨e, (Option.some.inj h).symm⟩
  | recursiveMkdir => cases h
  | symlink => cases h

/-- A call that the walk makes. -/
theorem call {op : WalkOp} (hq : CopyQueue.step cfg s lq = some s') (hop : op.call? = some lq)
    (h : Session false s) : Session false s' := by
  have hnil := (h.before rfl).2
  rcases isCall_of_call? hop with ⟨job, rfl⟩ | ⟨e, rfl⟩
  · rw [step_addCopyJob hq]
    exact ⟨h.before, h.during, fun hne => absurd hnil hne, h.errors, h.clean⟩
  · rw [step_walkError hq]
    refine ⟨h.before, h.during, h.after, fun _ _ => rfl, fun hj => ?_⟩
    have hj : s.joined = [true] := hj
    rw [hnil] at hj
    cases hj

theorem join (hq : CopyQueue.step cfg s (.join action) = some s') (h : Session false s) :
    Session true s' := by
  obtain ⟨-, hnil⟩ := h.before rfl
  rw [step_join hq]
  refine ⟨fun hj => ?_, fun _ _ => rfl, fun hne => absurd hnil hne, h.errors, h.clean⟩
  cases hj

end Session

/-! ## What has been carried out -/

/-- No error is ever taken from the list. -/
theorem recorded_grow {s s' : State} {lq : Label} (h : CopyQueue.step cfg s lq = some s') :
    s.recorded <+: s'.recorded := by
  cases (step_move h).2 with
  | walkError | record => exact prefix_append _ _
  | _ => exact prefix_rfl

theorem jobs_eq_of_not_call {s s' : State} {lq : Label} (h : CopyQueue.step cfg s lq = some s')
    (hcall : lq.isCall = false) : s'.jobs = s.jobs := by
  cases (step_move h).2 with
  | addCopyJob => cases hcall
  | _ => rfl

theorem turn_ops (w : WalkState) : w.ops <+: (plan.turn fs strerror w).ops := by
  cases plan with
  | addRecursiveCopy src dest => exact Walk.step_ops w
  | _ => exact prefix_rfl

/-- An operation that failed keeps the flag up until `join` lowers it. -/
theorem failed_grow {s s' : State} {lq : Label} (h : CopyQueue.step cfg s lq = some s')
    (hj : s'.joined = []) (hf : s.failed = true) : s'.failed = true := by
  cases (step_move h).2 with
  | joinFinish => exact absurd hj (append_ne_nil_of_right_ne_nil _ (cons_ne_nil _ _))
  | walkError | openFailed => rfl
  | close | completion | deleteLast => simp [hf]
  | _ => exact hf

theorem joined_grow {s s' : State} {lq : Label} (h : CopyQueue.step cfg s lq = some s') :
    s.joined <+: s'.joined := by
  cases (step_move h).2 with
  | joinFinish => exact prefix_append _ _
  | _ => exact prefix_rfl

/-- An error of the walk is known to the queue: it was recorded, and counts as a failure until `join`
has returned. -/
def Told (e : Error) (s : State) : Prop := e ∈ s.recorded ∧ (s.joined = [] → s.failed = true)

theorem Told.step {e : Error} {s s' : State} {lq : Label} (ht : Told e s)
    (h : CopyQueue.step cfg s lq = some s') : Told e s' :=
  ⟨(recorded_grow h).subset ht.1,
    fun hj => failed_grow h hj (ht.2 (prefix_nil.mp (hj ▸ joined_grow h)))⟩

/-- The jobs of the queue are those of the operations that have been carried out, and their errors were
recorded. `w` is the walk as it began. -/
structure Passes (fs : FileSystem) (strerror : Errno → List Char) (plan : Plan) (w : WalkState)
    (p : Program) : Prop where
  le : p.passed ≤ p.walk.ops.length
  jobs : p.queue.jobs = (p.walk.ops.take p.passed).filterMap WalkOp.job?
  errors : ∀ path e, .onError path e ∈ p.walk.ops.take p.passed → Told e p.queue
  walk : ∃ n, p.walk = (plan.turn fs strerror)^[n] w
  session : Session p.joining p.queue
  ended : p.joining = true → p.walk.pc = .done ∧ p.passed = p.walk.ops.length

theorem job?_of_call? {op : WalkOp} (h : op.call? = none) : op.job? = none := by
  cases op with
  | addCopyJob => cases h
  | _ => rfl

theorem take_succ_of_getElem? {ops : List WalkOp} {n : ℕ} {op : WalkOp} (h : ops[n]? = some op) :
    ops.take (n + 1) = ops.take n ++ [op] := by
  rw [take_add_one, h]
  rfl

theorem Passes.not_joining {w : WalkState} {op : WalkOp} (h : Passes fs strerror plan w p)
    (hop : p.walk.ops[p.passed]? = some op) : p.joining = false := by
  by_contra hne
  have hall := (h.ended (Bool.not_eq_false _ |>.mp hne)).2
  have hlt := (List.getElem?_eq_some_iff.mp hop).1
  omega

theorem passes_turn {w : WalkState} (ht : Turn cfg fs strerror plan action p l p')
    (hth : Threads cfg p.queue) (h : Passes fs strerror plan w p) : Passes fs strerror plan w p' := by
  cases ht with
  | walk hm hall hpc =>
    have hpre : p.walk.ops <+: (plan.turn fs strerror p.walk).ops := turn_ops p.walk
    obtain ⟨n, hn⟩ := h.walk
    -- the turn only adds operations behind those that have been carried out
    have htake : (plan.turn fs strerror p.walk).ops.take p.passed = p.walk.ops.take p.passed := by
      obtain ⟨more, hmore⟩ := hpre
      rw [← hmore, hall, take_append_of_le_length le_rfl]
    refine ⟨h.le.trans hpre.length_le, ?_, ?_, ⟨n + 1, ?_⟩, h.session, fun hj => ?_⟩
    · exact htake ▸ h.jobs
    · exact htake ▸ h.errors
    · rw [Function.iterate_succ_apply', ← hn]
    · exact absurd (h.ended hj).1 hpc
  | @pass op hm hop hcall =>
    have htake := take_succ_of_getElem? hop
    have hlt := (List.getElem?_eq_some_iff.mp hop).1
    refine ⟨hlt, ?_, ?_, h.walk, h.session, fun hj => ?_⟩
    · rw [htake, filterMap_append, ← h.jobs, filterMap_cons_none (job?_of_call? hcall)]
      exact (append_nil _).symm
    · intro path e hmem
      rw [htake] at hmem
      rcases mem_append.mp hmem with hmem | hmem
      · exact h.errors path e hmem
      · rw [← mem_singleton.mp hmem] at hcall
        cases hcall
    · rw [h.not_joining hop] at hj
      cases hj
  | @call op lq q hm hop hcall hq =>
    have htake := take_succ_of_getElem? hop
    have hlt := (List.getElem?_eq_some_iff.mp hop).1
    have hjoining := h.not_joining hop
    refine ⟨hlt, ?_, ?_, h.walk, ?_, fun hj => ?_⟩
    · rw [htake, filterMap_append, ← h.jobs]
      rcases Session.isCall_of_call? hcall with ⟨job, rfl⟩ | ⟨e, rfl⟩
      · rw [step_addCopyJob hq]
        cases op <;> cases hcall
        rfl
      · rw [step_walkError hq]
        cases op <;> cases hcall
        exact (append_nil _).symm
    · intro path e hmem
      rw [htake] at hmem
      rcases mem_append.mp hmem with hmem | hmem
      · exact (h.errors path e hmem).step hq
      · rw [← mem_singleton.mp hmem] at hcall
        cases hcall
        rw [step_walkError hq]
        exact ⟨mem_append_right _ (mem_singleton_self e), fun _ => rfl⟩
    · have hsession := h.session
      rw [hjoining] at hsession ⊢
      exact hsession.call hq hcall
    · rw [hjoining] at hj
      cases hj
  | @join q hpc hall hj hq =>
    have hsession := h.session
    rw [hj] at hsession
    refine ⟨h.le, ?_, ?_, h.walk, hsession.join hq, fun _ => ⟨hpc, hall⟩⟩
    · rw [step_join hq]
      exact h.jobs
    · exact fun path e hmem => (h.errors path e hmem).step hq
  | queue hcall hq =>
    refine ⟨h.le, (jobs_eq_of_not_call hq hcall).trans h.jobs, ?_, h.walk,
      h.session.move (step_move hq).2 hcall hth, h.ended⟩
    exact fun path e hmem => (h.errors path e hmem).step hq

theorem passes_begin {w : WalkState} : Passes fs strerror plan w
    { queue := start cfg (initial cfg storage), walk := w } where
  le := Nat.zero_le _
  jobs := rfl
  errors path e hmem := by cases hmem
  walk := ⟨0, rfl⟩
  session := by
    refine ⟨fun _ => ⟨rfl, rfl⟩, fun hj => ?_, fun hne => absurd rfl hne, fun _ hne => absurd rfl hne,
      fun hj => ?_⟩
    · cases hj
    · cases hj
  ended hj := by cases hj

theorem reachable_passes {w : WalkState} (hw : plan.begin fs strerror = some w)
    (h : (system cfg fs strerror plan action storage).ReachIn ok p) :
    Passes fs strerror plan w p := by
  refine h.invariant (P := Passes fs strerror plan w) ?_ fun p l p' hr hp _ hstep => ?_
  · rintro p ⟨w', hw', rfl⟩
    rw [hw] at hw'
    cases hw'
    exact passes_begin
  · have hq := reachIn_of_systemFrom (reachable_queue hr)
    exact passes_turn (step_turn hstep) (reachable_threads hq) hp

theorem begin_recursive {src dest : Path} : Plan.begin fs strerror (.addRecursiveCopy src dest) =
    some (Walk.start fs (Walk.withSlash src) (Walk.withSlash dest)) := rfl

/-! ## Exit status 0 -/

/-- What is known of a queue that ended the process. -/
theorem reachable_exited {s : State} {b : Bool} (h : (CopyQueue.system cfg).Reachable s)
    (hexit : s.halted = some (.exit b)) : isDone s = true ∧ b = s.errored ∧
      (cfg.showingProgress = false → s.submit = .checkDone) := by
  induction h with
  | init hi =>
    obtain ⟨st, rfl⟩ := hi
    cases hexit
  | step hr _ hs _ =>
    obtain ⟨hrun, hm⟩ := step_move hs
    have ht := reachable_threads hr
    cases hm with
    | submitExit hp hd =>
      cases hexit
      exact ⟨hd, rfl, fun _ => hp⟩
    | progressExit hp =>
      cases hexit
      have hshown := ht.shown (by rw [hp]; intro hc; cases hc)
      refine ⟨ht.ended hp, rfl, fun hsp => ?_⟩
      rw [hshown] at hsp
      cases hsp
    | abort => cases hexit
    | _ =>
      exact absurd (hrun.symm.trans hexit) (by simp)

/-- What is known when the exit status is 0. -/
structure Clear (p : Program) : Prop where
  joining : p.joining = true
  built : building p.queue.main = none
  gone : ∀ r, p.queue.runners.get? r = none
  recorded : p.queue.recorded = []
  erring : ¬ Erring p.queue

theorem building_of_joining {m : MainPc} (h : m.joining = true) : building m = none := by
  cases m with
  | ctor => cases h
  | part => cases h
  | _ => rfl

theorem clear_of_succeeded (hq : (CopyQueue.system cfg).Reachable p.queue)
    (h : Session p.joining p.queue) (hs : p.Succeeded cfg) : Clear p := by
  have ht := reachable_threads hq
  have hc := (reachable_owned hq).2
  rcases hs with hjoined | ⟨hsp, hexit⟩
  · obtain ⟨hj, hidle, hready, hkeep⟩ := h.after (by rw [hjoined]; exact cons_ne_nil _ _)
    have hrec := h.clean hjoined
    refine ⟨hj, by rw [hready]; rfl, Store.size_eq_zero.mp (hc.keepAlive.symm.trans hkeep), hrec, ?_⟩
    rintro (hne | ⟨e, n, hp⟩)
    · exact hne hrec
    · have halive := ht.idle hidle
      rw [hp] at halive
      cases halive
  · obtain ⟨hd, herr, hp⟩ := reachable_exited hq hexit
    have hstate := (isDone_iff.mp hd).1
    have hj := h.joining_of_additionComplete hstate
    have hnil := h.joined_of_additionComplete hstate
    have hrec : p.queue.recorded = [] := by
      by_contra hne
      rw [h.errors hnil hne] at herr
      cases herr
    refine ⟨hj, building_of_joining ?_, hc.none_of_isDone hd, hrec, ?_⟩
    · rw [ht.joining, hstate]
      rfl
    · rintro (hne | ⟨e, n, hrecording⟩)
      · exact hne hrec
      · rw [hp hsp] at hrecording
        cases hrecording

variable {resolve : Path → Ino}

/-- The steps of a program whose queue finds, for every path, the file the path stands for. -/
abbrev Honest (cfg : Config) (resolve : Path → Ino) (action : OnCompletionAction) :
    Program → ProgramLabel → Prop := Takes action (Faithful cfg resolve)

theorem faithful_start (s : State) : Faithful cfg resolve s .start := by
  refine ⟨⟨fun ret hl => ?_, fun job hl => ?_, fun c res chain e rest x f hl => ?_⟩,
    ⟨fun f side ino x ho => ?_, fun ino content hl => ?_⟩⟩
  · cases hl
  · cases hl
  · cases hl
  · cases ho
  · cases hl

/-- When the exit status is 0, the walk is over, it has met no error, and each of its jobs is done. -/
theorem jobs_copied_of_succeeded {w : WalkState} (hw : plan.begin fs strerror = some w)
    (h : (system cfg fs strerror plan action storage).ReachIn (Honest cfg resolve action) p)
    (hs : p.Succeeded cfg) (hsep : Separate resolve (p.walk.ops.filterMap WalkOp.job?))
    (hsize : ∀ job ∈ p.walk.ops.filterMap WalkOp.job?,
      (storage.disk (resolve job.src)).length = job.stxSize) :
    p.walk.pc = .done ∧ (∀ path e, .onError path e ∉ p.walk.ops) ∧
      ∀ job, .addCopyJob job ∈ p.walk.ops →
        p.queue.storage.disk (resolve job.dest) = storage.disk (resolve job.src) ∧
        p.queue.storage.disk (resolve job.src) = storage.disk (resolve job.src) := by
  have hpass := reachable_passes hw h
  have hclear := clear_of_succeeded (reachIn_of_systemFrom (reachable_queue h)) hpass.session hs
  obtain ⟨hpc, hall⟩ := hpass.ended hclear.joining
  have hops : p.walk.ops.take p.passed = p.walk.ops := by rw [hall, take_length]
  have hjobs : p.queue.jobs = p.walk.ops.filterMap WalkOp.job? := by rw [hpass.jobs, hops]
  refine ⟨hpc, fun path e hmem => ?_, fun job hjob => ?_⟩
  · have htold := (hpass.errors path e (hops.symm ▸ hmem)).1
    rw [hclear.recorded] at htold
    cases htold
  · refine jobs_copied (reachIn_queue (faithful_start _) h) (hjobs ▸ hsep) (hjobs ▸ hsize)
      hclear.built hclear.gone hclear.erring ?_
    rw [hjobs]
    exact mem_filterMap.mpr ⟨.addCopyJob job, hjob, rfl⟩

/-! ## Failures of the walk -/

theorem step_of_done {fromDir dest : Path} {w : WalkState} (h : w.pc = .done) :
    Walk.step fs strerror fromDir dest w = w := by
  unfold Walk.step
  rw [h]

/-- A walk that is over stays as it is. -/
theorem iterate_of_done {fromDir dest : Path} {w : WalkState} {n k : ℕ}
    (hn : ((Walk.step fs strerror fromDir dest)^[n] w).pc = .done) (hk : n ≤ k) :
    (Walk.step fs strerror fromDir dest)^[k] w = (Walk.step fs strerror fromDir dest)^[n] w := by
  obtain ⟨j, rfl⟩ := Nat.exists_eq_add_of_le' hk
  rw [Function.iterate_add_apply]
  exact Function.iterate_fixed (step_of_done hn) j

theorem fails_ne_done {fromDir dest path : Path} {w : WalkState} {e : Error}
    (h : Walk.Fails fs strerror fromDir dest w path e) : w.pc ≠ .done := by
  intro hdone
  cases h with
  | openDir hpc | getdents hpc | statxUnknown hpc | statxFile hpc | readlink hpc | symlink hpc =>
    rw [hdone] at hpc
    cases hpc

/-- Whatever call of the walk has failed, the queue was told of it before `join`. -/
theorem told_of_fails {src dest path : Path} {e : Error} {k : ℕ}
    (h : (system cfg fs strerror (.addRecursiveCopy src dest) action storage).ReachIn ok p)
    (hj : p.joining = true)
    (hf : Walk.Fails fs strerror (Walk.withSlash src) (Walk.withSlash dest)
      (Walk.addRecursiveCopy fs strerror src dest k) path e) : Told e p.queue := by
  have hpass := reachable_passes begin_recursive h
  obtain ⟨hpc, hall⟩ := hpass.ended hj
  obtain ⟨n, hn⟩ := hpass.walk
  have hlt : k < n := by
    by_contra hle
    rw [hn] at hpc
    have hsame := iterate_of_done hpc (not_lt.mp hle)
    exact fails_ne_done hf ((congrArg WalkState.pc hsame).trans hpc)
  refine hpass.errors path e ?_
  rw [hall, take_length, hn]
  exact Walk.iterate_fails hlt hf

/-- **No failure of the walk is lost.** Whatever call of the walk fails, in whatever turn, and however
the threads are interleaved: the queue has been told of its error when `join` is called, whichever thread
ends the process does so with a status that reports a failure, and `join` does not return `true`. -/
theorem walk_failure_reported {src dest path : Path} {e : Error} {k : ℕ}
    (h : (system cfg fs strerror (.addRecursiveCopy src dest) action storage).Reachable p)
    (hf : Walk.Fails fs strerror (Walk.withSlash src) (Walk.withSlash dest)
      (Walk.addRecursiveCopy fs strerror src dest k) path e) :
    (p.joining = true → Told e p.queue) ∧
      (∀ errored, p.queue.halted = some (.exit errored) → errored = true) ∧
      p.queue.joined ≠ [true] := by
  have hsession := (reachable_passes begin_recursive h).session
  have htold : p.joining = true → Told e p.queue := fun hj => told_of_fails h hj hf
  refine ⟨htold, fun errored hexit => ?_, fun hjoined => ?_⟩
  · obtain ⟨hd, rfl, -⟩ := reachable_exited (reachIn_of_systemFrom (reachable_queue h)) hexit
    have hstate := (isDone_iff.mp hd).1
    have hj := hsession.joining_of_additionComplete hstate
    exact hsession.errors (hsession.joined_of_additionComplete hstate) (ne_nil_of_mem (htold hj).1)
  · have hj := (hsession.after (by rw [hjoined]; exact cons_ne_nil _ _)).1
    have hmem := (htold hj).1
    rw [hsession.clean hjoined] at hmem
    cases hmem

/-- The source directory has been removed since `wcpMain` has looked at it. -/
def removedFs : FileSystem where
  openDir _ _ := .error ENOENT
  getdents _ _ _ := .error ENOENT
  statx _ _ := .error ENOENT
  readlink _ _ := .error ENOENT
  symlink _ _ _ := .ok ()
  mkdir _ := .ok ()
  stat64 _ := .ok .dir

/-- The directory cannot be opened, and the submit thread ends the process. -/
theorem walk_failure_reported_removed : ∃ p e,
    (system smallConfig removedFs (fun _ => []) (.addRecursiveCopy ['s'] ['d']) .exitProcessNoCleanup
      (smallStorage 8)).Reachable p ∧
    p.queue.halted = some (.exit true) ∧ e ∈ p.queue.recorded ∧ p.queue.joined ≠ [true] := by
  obtain ⟨p, hp, hexit⟩ := Transition.System.Reachable.exists_of_run
    (S := system smallConfig removedFs (fun _ => []) (.addRecursiveCopy ['s'] ['d'])
      .exitProcessNoCleanup (smallStorage 8))
    ⟨Walk.start removedFs ['s', '/'] ['d', '/'], rfl, rfl⟩
    ([.pass, .walk, .pass, .walk, .join] ++ (Label.main .tick :: ticks 5).map .queue)
    (fun p => decide (p.joining = true ∧ p.queue.halted = some (.exit true))) (by decide +kernel)
  obtain ⟨hj, hhalted⟩ := of_decide_eq_true hexit
  have hfails : Walk.Fails removedFs (fun _ => []) ['s', '/'] ['d', '/']
      (Walk.addRecursiveCopy removedFs (fun _ => []) ['s'] ['d'] 0) ['s', '/'] _ :=
    .openDir (by decide +kernel) rfl rfl
  obtain ⟨htold, -, hjoined⟩ := walk_failure_reported hp hfails
  exact ⟨p, _, hp, hhalted, (htold hj).1, hjoined⟩

/-! ## A directory tree -/

/-- The jobs for the regular files of a tree. -/
def treeJobs (fromDir dest : Path) (es : List Entry) : List Job :=
  ((Entry.pathsAll [] es).map (Entry.op fromDir dest fun _ => false)).filterMap WalkOp.job?

/-- A walk that is over is always the same. -/
theorem iterate_eq_of_done {fromDir dest : Path} {w : WalkState} {n m : ℕ}
    (hn : ((Walk.step fs strerror fromDir dest)^[n] w).pc = .done)
    (hm : ((Walk.step fs strerror fromDir dest)^[m] w).pc = .done) :
    (Walk.step fs strerror fromDir dest)^[n] w = (Walk.step fs strerror fromDir dest)^[m] w := by
  rcases Nat.le_total n m with hle | hle
  · exact (iterate_of_done hn hle).symm
  · exact iterate_of_done hm hle

/-- **A tree is copied.** `wcp` is called to copy a directory that holds the entries `es` and does not
change; no call of the walk fails, every open finds the file that the path stands for, and no
destination is a source or another destination. However the threads are interleaved and whatever part
of a request the kernel transfers: if the exit status is 0, every directory and link of the tree was
made once, there was nothing else in the tree but regular files, and each of these has the content of
its source at its place in the destination, with the source as it was. -/
theorem wcp_copies_tree {access : Path → Bool} {cwd src dest dest' : Path} {es : List Entry}
    (hplan : (wcpMain fs strerror access cwd src dest).2 = .addRecursiveCopy src dest')
    (hwrite : Walk.Writable fs) (hholds : Walk.Holds fs (fun _ => false) (Walk.withSlash src) es)
    (hsep : Separate resolve (treeJobs (Walk.withSlash src) (Walk.withSlash dest') es))
    (hsize : ∀ job ∈ treeJobs (Walk.withSlash src) (Walk.withSlash dest') es,
      (storage.disk (resolve job.src)).length = job.stxSize)
    (h : (system cfg fs strerror (wcpMain fs strerror access cwd src dest).2 action storage).ReachIn
      (Honest cfg resolve action) p) (hs : p.Succeeded cfg) :
    p.walk.ops ~ .recursiveMkdir (Walk.withSlash dest') :: (Entry.pathsAll [] es).map
      (Entry.op (Walk.withSlash src) (Walk.withSlash dest') fun _ => false) ∧
    (∀ rel name kind, (rel, .other name kind) ∉ Entry.pathsAll [] es) ∧
    ∀ rel name sb, (rel, .reg name sb) ∈ Entry.pathsAll [] es →
      p.queue.storage.disk (resolve (Walk.withSlash dest' ++ rel)) =
          storage.disk (resolve (Walk.withSlash src ++ rel)) ∧
        p.queue.storage.disk (resolve (Walk.withSlash src ++ rel)) =
          storage.disk (resolve (Walk.withSlash src ++ rel)) := by
  rw [hplan] at h
  obtain ⟨n, more, hn, hperm, -⟩ := Walk.walk_of_holds strerror src dest' hwrite hholds
    fun re _ => by cases hre : re.2 <;> simp [Walk.LinkReported]
  have hpass := reachable_passes begin_recursive h
  have hclear := clear_of_succeeded (reachIn_of_systemFrom (reachable_queue h)) hpass.session hs
  have hpc := (hpass.ended hclear.joining).1
  -- the walk of the program is the one that the tree gives
  obtain ⟨m, hm⟩ := hpass.walk
  have hops : p.walk.ops = .recursiveMkdir (Walk.withSlash dest') :: more := by
    have heq : p.walk = Walk.addRecursiveCopy fs strerror src dest' n := by
      rw [hm] at hpc ⊢
      exact iterate_eq_of_done hpc (congrArg WalkState.pc hn)
    rw [heq, hn]
  have hall : p.walk.ops ~ .recursiveMkdir (Walk.withSlash dest') :: (Entry.pathsAll [] es).map
      (Entry.op (Walk.withSlash src) (Walk.withSlash dest') fun _ => false) := by
    rw [hops]
    exact hperm.cons _
  have hjobs : treeJobs (Walk.withSlash src) (Walk.withSlash dest') es ~
      p.walk.ops.filterMap WalkOp.job? := (hall.filterMap WalkOp.job?).symm
  obtain ⟨-, herrors, hcopied⟩ := jobs_copied_of_succeeded begin_recursive h hs (hsep.perm hjobs)
    fun job hjob => hsize job (hjobs.mem_iff.mpr hjob)
  have hmem : ∀ re ∈ Entry.pathsAll [] es,
      Entry.op (Walk.withSlash src) (Walk.withSlash dest') (fun _ => false) re ∈ p.walk.ops := by
    intro re hre
    exact hall.mem_iff.mpr (mem_cons_of_mem _ (mem_map_of_mem hre))
  refine ⟨hall, fun rel name kind hre => ?_, fun rel name sb hre => ?_⟩
  · exact herrors _ _ (hmem _ hre)
  · exact hcopied _ (hmem _ hre)

/-- A file of eight bytes, and a directory with a link in it. -/
def plainTree : List Entry := [.reg ['a'] ⟨.reg, 8, 4, 0⟩, .dir ['b'] [.link ['l'] ['t']]]

/-- A file system with the tree in the directory `s`, and a directory `d`. -/
def plainFs : FileSystem where
  openDir _ _ := .ok 0
  getdents path k _ :=
    let rs := Walk.records (fun _ => false) path
      (if path = ['s', '/'] then plainTree else [.link ['l'] ['t']])
    .ok ([rs].getD k [])
  statx path _ :=
    if path = ['s', '/', 'a'] then .ok ⟨.reg, 8, 4, 0⟩
    else if path = ['s', '/', 'b', '/', 'l'] then .error ENOENT
    else .ok ⟨.dir, 4096, 4096, 0o40755⟩
  readlink _ _ := .ok ['t']
  symlink _ _ _ := .ok ()
  mkdir _ := .ok ()
  stat64 _ := .ok .dir

theorem holds_plainTree : Walk.Holds plainFs (fun _ => false) ['s', '/'] plainTree := by
  have hsub : Walk.Holds plainFs (fun _ => false) ['s', '/', 'b', '/'] [.link ['l'] ['t']] := by
    refine .mk ⟨0, rfl⟩ (fun k => rfl) ?_ ?_ ?_ ?_ ?_ ?_ ?_
    · simp [Walk.records]
    · simp [Walk.records]
    · simp [plainFs]
    · simp [Entry.name, Walk.validName_singleton]
    · simp
    · simp [Walk.Answers, Entry.name, plainFs]
    · simp
  refine .mk ⟨0, rfl⟩ (fun k => rfl) ?_ ?_ ?_ ?_ ?_ ?_ ?_
  · simp [Walk.records, plainTree]
  · simp [Walk.records]
  · simp [plainFs]
  · simp [plainTree, Entry.name, Walk.validName_singleton]
  · decide
  · simp [plainTree, Walk.Answers, Entry.name, plainFs]
  · simp [plainTree, hsub]

/-- The file `s/a` is file 1, the file `d/s/a` file 2. -/
def plainResolve (path : Path) : Ino :=
  if path = ['s', '/', 'a'] then 1 else if path = ['d', '/', 's', '/', 'a'] then 2 else 0

/-- The only job of the tree. -/
def plainJob : Job :=
  { src := ['s', '/', 'a'], dest := ['d', '/', 's', '/', 'a'], stxSize := 8, stxBlksize := 4 }

/-- A check that implies `Faithful`, for a queue with one job. -/
def faithfulCheck (cfg : Config) (resolve : Path → Ino) (job : Job) (s : State) (l : Label) : Bool :=
  acceptsAllCheck s l && (opened cfg s l).all (fun o => (s.files.get? o.1).all fun x =>
      decide (o.2.2 = resolve (x.fd o.2.1).path))
    && match l with
      | .addCopyJob job' => decide (job' = job)
      | .otherProcess _ _ => false
      | .kernel c res => s.chains[c]?.all fun chain => chain.reqs.head?.all fun e =>
        (s.runners.get? e.runner).all fun x => (s.files.get? x.file).all fun f =>
          decide (res ≤ (f.job.stxSize - e.off : ℕ))
      | _ => true

theorem faithful_of_check {job : Job} {s : State} {lq : Label} (hacc : Accepted cfg.heap job)
    (h : faithfulCheck cfg resolve job s lq = true) : Faithful cfg resolve s lq := by
  unfold faithfulCheck at h
  simp only [Bool.and_eq_true] at h
  obtain ⟨⟨haccepts, hopens⟩, hl⟩ := h
  refine ⟨⟨acceptsAll_of_check s lq haccepts, ?_, ?_⟩, ⟨?_, ?_⟩⟩
  · rintro job' rfl
    rw [of_decide_eq_true hl]
    exact hacc
  · rintro c res chain e rest x f rfl hc - hreqs - hx hf
    simp only [hc, hreqs, hx, hf, Option.all_some, head?_cons] at hl
    exact of_decide_eq_true hl
  · intro i side ino x ho hx
    simp only [ho, hx, Option.all_some] at hopens
    exact of_decide_eq_true hopens
  · rintro ino content rfl
    cases hl

/-- The walk, with the job of its file, and the copy of the file after `join` was called. -/
def plainSteps : List ProgramLabel := List.flatten [
  [.pass], replicate 5 .walk, [.pass],
  ((addJobSteps plainJob (opensAs 1) (opensAs 2)).drop 1).map .queue,
  [.walk, .pass], replicate 8 .walk, [.pass], replicate 4 .walk, [.join],
  (List.flatten [[.main .tick], ticks 10, [.submit (.rand 0 0)], ticks 1,
    [.submit (.submitted 2), .kernel 0 8, .kernel 0 8, .submit (.peeked (some 0))], ticks 2,
    [.submit (.peeked (some 0))], ticks 2, [.submit (.closed (.ok ()))], ticks 2,
    [.submit (.closed (.ok ()))], ticks 7, [.main .tick]]).map .queue]

theorem plainJob_accepted : Accepted smallConfig.heap plainJob :=
  { smallJob_accepted 8 with }

theorem plainTree_jobs : treeJobs ['s', '/'] ['d', '/', 's', '/'] plainTree = [plainJob] := by
  decide +kernel

theorem separate_plainJob : Separate plainResolve [plainJob] := by
  constructor
  · decide +kernel
  · intro job hjob other hother
    rw [mem_singleton.mp hjob, mem_singleton.mp hother]
    decide +kernel

/-- `wcp s d` copies the tree. -/
theorem wcp_copies_tree_plain : ∃ p, (system smallConfig plainFs (fun _ => [])
      (wcpMain plainFs (fun _ => []) (fun _ => true) ['/'] ['s'] ['d']).2 .return
      (smallStorage 8)).ReachIn (Honest smallConfig plainResolve .return) p ∧
    p.Succeeded smallConfig ∧ .symlink ['t'] ['d', '/', 's', '/', 'b', '/', 'l'] ∈ p.walk.ops ∧
    p.queue.storage.disk 2 = List.replicate 8 7 := by
  have hcheck : ∀ p l, (queueLabel .return p l).all
      (faithfulCheck smallConfig plainResolve plainJob p.queue) = true →
      Honest smallConfig plainResolve .return p l := by
    intro p l h lq hlq
    rw [hlq] at h
    exact faithful_of_check plainJob_accepted h
  have hplan : (wcpMain plainFs (fun _ => []) (fun _ => true) ['/'] ['s'] ['d']).2 =
      .addRecursiveCopy ['s'] ['d', '/', 's'] := by decide +kernel
  obtain ⟨p, hp, hjoined⟩ := Transition.System.ReachIn.exists_of_runIn hcheck
    (S := system smallConfig plainFs (fun _ => [])
      (wcpMain plainFs (fun _ => []) (fun _ => true) ['/'] ['s'] ['d']).2 .return (smallStorage 8))
    ⟨Walk.start plainFs ['s', '/'] ['d', '/', 's', '/'], by rw [hplan]; rfl, rfl⟩
    plainSteps (fun p => decide (p.queue.joined = [true])) (by decide +kernel)
  have hs : p.Succeeded smallConfig := .inl (of_decide_eq_true hjoined)
  have hwrite : Walk.Writable plainFs := ⟨fun _ => .inl rfl, fun _ _ => rfl⟩
  obtain ⟨hops, -, hcopied⟩ := wcp_copies_tree hplan hwrite holds_plainTree
    (plainTree_jobs.symm ▸ separate_plainJob)
    (fun job hjob => by
      have hjob : job ∈ [plainJob] := plainTree_jobs ▸ hjob
      rw [mem_singleton.mp hjob]
      decide +kernel) hp hs
  refine ⟨p, hp, hs, hops.mem_iff.mpr (by decide +kernel), ?_⟩
  exact (hcopied ['a'] ['a'] ⟨.reg, 8, 4, 0⟩ (by simp [Entry.pathsAll, plainTree, Entry.paths])).1

end Program

end Wcp
