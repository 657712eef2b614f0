import WcpVerified.Proofs.LiburingProofs
import WcpVerified.Proofs.RoomProofs

/-!
# Proofs: a queue on its rings

A queue on its rings takes the steps of a queue whose rings are lists, so whatever holds of every
reachable state of the one holds of the other. `io_uring_get_sqe` finds a free slot whenever it is
called, and the completion ring is never full: the kernel never has to keep a completion.
-/

namespace Wcp

open List MachineWord RingBuffer CopyQueue

/-- A queue with other rings. -/
def State.withRings (sq : List Sqe) (cq : List Cqe) (s : State) : State := { s with sq, cq }

/-- The states of the submit thread in which it uses the rings. `io_uring_cqe_seen` is no such use:
it does not touch the list of a queue. -/
def SubmitPc.usesRings : SubmitPc → Bool
  | .batch _ _ | .submitting _ | .completing => true
  | _ => false

/-- Whether a step uses the rings. -/
def Label.usesRings (pc : SubmitPc) : Label → Bool
  | .submit _ => pc.usesRings
  | .kernel _ _ => true
  | _ => false

namespace RingQueue

/-! ## Steps that do not use the rings -/

section Frame

variable {cfg : Config} {s : State} {sq : List Sqe} {cq : List Cqe}

theorem withRunner_withRings {r : ℕ} {k k' : CopyRunner → JobFiles → State}
    (h : ∀ x f, k x f = (k' x f).withRings sq cq) :
    withRunner (s.withRings sq cq) r k = (withRunner s r k').withRings sq cq := by
  have hrunners : (s.withRings sq cq).runners = s.runners := rfl
  have hfiles : (s.withRings sq cq).files = s.files := rfl
  unfold withRunner
  rw [hrunners, hfiles]
  split
  · rfl
  · split
    · rfl
    · exact h _ _

theorem addingStep_withRings (n : ℕ) :
    addingStep cfg n (s.withRings sq cq) = (addingStep cfg n s).withRings sq cq := by
  have hwait : mustWait cfg (s.withRings sq cq) = mustWait cfg s := rfl
  unfold addingStep
  rw [hwait]
  split <;> rfl

theorem fetchingStep_withRings (n : ℕ) :
    fetchingStep cfg n (s.withRings sq cq) = (fetchingStep cfg n s).withRings sq cq := by
  have hbuffer : (s.withRings sq cq).nextBuffer = s.nextBuffer := rfl
  unfold fetchingStep
  rw [hbuffer]
  split <;> rfl

theorem pickingStep_withRings (n : ℕ) :
    pickingStep n (s.withRings sq cq) = (pickingStep n s).withRings sq cq := by
  cases hc : s.copiesPendingContinue with
  | cons r rest => simp only [pickingStep, State.withRings, hc]
  | nil =>
    simp only [pickingStep, State.withRings, hc]
    split <;> rfl

theorem takingStep_withRings (n : ℕ) :
    takingStep cfg n (s.withRings sq cq) = (takingStep cfg n s).withRings sq cq := by
  have hfield : (s.withRings sq cq).copiesPendingStart = s.copiesPendingStart := rfl
  unfold takingStep
  rw [hfield]
  split
  · rfl
  · refine withRunner_withRings fun x f => ?_
    have hfds : outOfFds cfg (s.withRings sq cq) = outOfFds cfg s := rfl
    have hbuffer : (s.withRings sq cq).nextBuffer = s.nextBuffer := rfl
    rw [hfds, hbuffer]
    split
    · rfl
    · split <;> rfl

theorem ensureStep_withRings (n r : ℕ) (side : Side) (stage : EnsureStage) (a : Answer) :
    ensureStep cfg n r side stage a (s.withRings sq cq) =
      (ensureStep cfg n r side stage a s).map (·.withRings sq cq) := by
  unfold ensureStep
  split
  · refine congrArg some (withRunner_withRings fun x f => ?_)
    split <;> rfl
  · rfl
  · have hused : (s.withRings sq cq).fileDescriptorsUsed = s.fileDescriptorsUsed := rfl
    rw [hused]
    split <;> rfl
  · refine congrArg some (withRunner_withRings fun x f => ?_)
    unfold doOpen
    cases myOpen _ _ _ _ <;> rfl
  · exact congrArg some (withRunner_withRings fun x f => rfl)
  · exact congrArg some (withRunner_withRings fun x f => rfl)
  · rfl

theorem closingStep_withRings (caller : CloseCaller) (r : ℕ) (stage : CloseStage)
    (result : Option Error) (a : Answer) :
    closingStep cfg caller r stage result a (s.withRings sq cq) =
      (closingStep cfg caller r stage result a s).map (·.withRings sq cq) := by
  unfold closingStep
  split
  · exact congrArg some (withRunner_withRings fun x f => rfl)
  · refine congrArg some (withRunner_withRings fun x f => ?_)
    split <;> rfl
  · exact congrArg some (withRunner_withRings fun x f => rfl)
  · rfl
  · rfl

theorem deletingStep_withRings (r : ℕ) (caller : DeleteCaller) :
    deletingStep cfg r caller (s.withRings sq cq) = (deletingStep cfg r caller s).withRings sq cq := by
  refine withRunner_withRings fun x f => ?_
  unfold releaseFiles
  split
  · rfl
  · split <;> rfl

theorem checkDoneStep_withRings :
    checkDoneStep cfg (s.withRings sq cq) = (checkDoneStep cfg s).withRings sq cq := by
  have hdone : isDone (s.withRings sq cq) = isDone s := rfl
  have haction : (s.withRings sq cq).completionAction = s.completionAction := rfl
  unfold checkDoneStep
  rw [hdone, haction]
  split
  · split <;> rfl
  · rfl

theorem ctorStep_withRings (f : ℕ) (job : Job) (side : Side) (stage : ReserveStage) (a : Answer) :
    ctorStep cfg f job side stage a (s.withRings sq cq) =
      (ctorStep cfg f job side stage a s).map (·.withRings sq cq) := by
  unfold ctorStep
  split
  · rfl
  · have hused : (s.withRings sq cq).fileDescriptorsUsed = s.fileDescriptorsUsed := rfl
    rw [hused]
    split <;> rfl
  · have hfiles : (s.withRings sq cq).files = s.files := rfl
    rw [hfiles]
    split
    · rfl
    · unfold doOpen
      cases myOpen _ _ _ _ <;> rfl
  · split
    · rfl
    · unfold beginParts
      split
      · rfl
      · split <;> rfl
  · rfl

theorem mainStep_withRings (a : Answer) :
    mainStep cfg a (s.withRings sq cq) = (mainStep cfg a s).map (·.withRings sq cq) := by
  have hmain : (s.withRings sq cq).main = s.main := rfl
  unfold mainStep
  rw [hmain]
  generalize s.main = pc
  split
  · exact ctorStep_withRings _ _ _ _ _
  · unfold partStep
    split <;> rfl
  · rfl
  · have hsubmit : (s.withRings sq cq).submit = s.submit := rfl
    rw [hsubmit]
    split
    · split <;> rfl
    · rfl
  · have hprogress : (s.withRings sq cq).progress = s.progress := rfl
    rw [hprogress]
    split <;> rfl
  · rfl

theorem submitStep_withRings (a : Answer) (h : s.submit.usesRings = false) :
    CopyQueue.submitStep cfg a (s.withRings sq cq) =
      (CopyQueue.submitStep cfg a s).map (·.withRings sq cq) := by
  have hsubmit : (s.withRings sq cq).submit = s.submit := rfl
  unfold CopyQueue.submitStep
  rw [hsubmit]
  generalize s.submit = pc at h
  split <;> try cases h
  · rfl
  · exact congrArg some (addingStep_withRings _)
  · exact congrArg some (fetchingStep_withRings _)
  · exact congrArg some (pickingStep_withRings _)
  · exact congrArg some (takingStep_withRings _)
  · exact congrArg some (withRunner_withRings fun x f => rfl)
  · exact ensureStep_withRings _ _ _ _ _
  · exact closingStep_withRings _ _ _ _ _
  · rfl
  · exact congrArg some (withRunner_withRings fun x f => rfl)
  · exact congrArg some (deletingStep_withRings _ _)
  · exact congrArg some (withRunner_withRings fun x f => rfl)
  · rfl
  · exact congrArg some checkDoneStep_withRings
  · rfl

theorem progressStep_withRings : progressStep (s.withRings sq cq) = (progressStep s).map (·.withRings sq cq) := by
  have hprogress : (s.withRings sq cq).progress = s.progress := rfl
  unfold progressStep
  rw [hprogress]
  cases hp : s.progress with
  | looping =>
    show (if (isDone s || s.progressEnd) = true then _ else _) = _
    dsimp only
    split <;> rfl
  | ended =>
    show (if s.completionAction = _ then _ else _) = _
    dsimp only
    split <;> rfl
  | _ => rfl

theorem step_withRings {l : Label} (h : l.usesRings s.submit = false) :
    CopyQueue.step cfg (s.withRings sq cq) l = (CopyQueue.step cfg s l).map (·.withRings sq cq) := by
  unfold CopyQueue.step
  show (if s.halted.isSome = true then none else _) = _
  split
  · rfl
  · cases l with
    | start =>
      show (if s.main = .ready then some (if s.state = .idle then _ else _) else none) = _
      dsimp only
      unfold start
      split
      · split <;> rfl
      · rfl
    | addCopyJob job =>
      show (if s.main = .ready ∧ s.state ≠ _ then _ else _) = _
      dsimp only
      split <;> rfl
    | walkError e =>
      show (if s.main = .ready then _ else _) = _
      dsimp only
      split <;> rfl
    | join action =>
      show (if s.main = .ready ∧ s.state = _ then _ else _) = _
      dsimp only
      split <;> rfl
    | main a => exact mainStep_withRings a
    | submit a => exact submitStep_withRings a h
    | progress => exact progressStep_withRings
    | kernel i r => cases h
    | otherProcess => rfl

end Frame

/-! ## What the rings stand for -/

variable {rc : RingConfig} {w w' : RingQueue}

/-- The queue that the rings stand for. A completion that is being handled has not been seen, and is
in no list. -/
def view (w : RingQueue) : State :=
  w.queue.withRings w.sq.queued (w.cq.posted.drop w.queue.submit.inEvent.toNat)

/-- The rings of a queue are consistent. -/
structure Sound (rc : RingConfig) (w : RingQueue) : Prop where
  sq : w.sq.Wf rc.order
  cq : w.cq.Wf (rc.order + 1)
  hand : w.queue.submit.inEvent.toNat ≤ w.cq.posted.length

theorem Sound.of_queue (hs : Sound rc w) {q : State}
    (hq : q.submit.inEvent = w.queue.submit.inEvent) : Sound rc { w with queue := q } := by
  refine ⟨hs.sq, hs.cq, ?_⟩
  show q.submit.inEvent.toNat ≤ _
  rw [hq]
  exact hs.hand

/-- A completion is being handled from `io_uring_peek_cqe` to `io_uring_cqe_seen`. -/
theorem inEvent_of_step {cfg : Config} {s s' : State} {l : Label}
    (h : CopyQueue.step cfg s l = some s') (ht : Threads cfg s) (hl : l.usesRings s.submit = false)
    (hseen : l = .submit .tick → s.submit ≠ .seen) : s'.submit.inEvent = s.submit.inEvent := by
  cases (step_move h).2 with
  | start hm hs =>
    have halive := ht.idle hs
    show false = _
    cases hp : s.submit <;> rw [hp] at halive <;> first | rfl | cases halive
  | deleteShared hp | deleteLast hp =>
    rw [hp]
    exact afterDelete_inEvent _ _
  | batch hp | spin hp | submit hp | completion hp | submitSkip hp =>
    rw [Label.usesRings, hp] at hl
    cases hl
  | seen hp => exact absurd hp (hseen rfl)
  | kernel => cases hl
  | _ =>
    first
    | rfl
    | (have hp := ‹s.submit = _›
       rw [hp]
       first
       | rfl
       | exact afterEnsure_inEvent _ _ _ _
       | exact afterEnsureFailed_inEvent _ _ _ _
       | exact afterClose_inEvent _ _ _
       | exact closeNext_inEvent _ _ _ _
       | exact afterError_inEvent _
       | exact afterEvent_inEvent _ _)

/-- A step that does not use the rings. -/
theorem other_sim {l : Label} (hs : Sound rc w) (ht : Threads rc.config w.view)
    (hl : l.usesRings w.queue.submit = false) (hseen : l = .submit .tick → w.queue.submit ≠ .seen)
    (h : otherStep rc l w = some w') :
    CopyQueue.step rc.config w.view l = some w'.view ∧ Sound rc w' := by
  obtain ⟨q, hq, rfl⟩ := Option.map_eq_some_iff.mp h
  have hstep : CopyQueue.step rc.config w.view l = some (q.withRings w.sq.queued
      (w.cq.posted.drop w.queue.submit.inEvent.toNat)) := by
    rw [view, step_withRings hl, hq]
    rfl
  have hsame := inEvent_of_step hstep ht hl hseen
  have hevent : q.submit.inEvent = w.queue.submit.inEvent := hsame
  refine ⟨?_, hs.of_queue hevent⟩
  rw [hstep]
  show some (q.withRings _ _) = some (q.withRings _ (w.cq.posted.drop q.submit.inEvent.toNat))
  rw [hevent]

/-! ## Steps that use the rings -/

/-- `submitReadWriteCommands`. -/
theorem batch_sim {n r a b : ℕ} (hs : Sound rc w) (hp : w.queue.submit = .batch n r) :
    CopyQueue.batchStep rc.config n r a b w.view = (batchStep rc n r a b w).view ∧
      Sound rc (batchStep rc n r a b w) := by
  have hspec := IoUringSq.prepAll_spec (batchRequests rc r a b w.queue) hs.sq
  have hevent : w.queue.submit.inEvent = false := by rw [hp]; rfl
  unfold CopyQueue.batchStep batchStep
  cases hr : w.queue.runners.get? r with
  | none =>
    have hr' : w.view.runners.get? r = none := hr
    simp only [batchRequests, hr, IoUringSq.prepAll, withRunner, hr']
    exact ⟨rfl, hs.of_queue rfl⟩
  | some x =>
    have hr' : w.view.runners.get? r = some x := hr
    cases hf : w.queue.files.get? x.file with
    | none =>
      have hf' : w.view.files.get? x.file = none := hf
      simp only [batchRequests, hr, hf, IoUringSq.prepAll, withRunner, hr', hf']
      exact ⟨rfl, hs.of_queue rfl⟩
    | some f =>
      have hf' : w.view.files.get? x.file = some f := hf
      by_cases hj : x.jobsRunning = 0
      · have hlen : w.view.sq.length = w.sq.queued.length := rfl
        simp only [batchRequests, hr, hf, hj, ne_eq, not_true_eq_false, if_false, withRunner, hr', hf',
          hlen, rc.ringSize_eq] at hspec ⊢
        cases hall : w.sq.prepAll (x.requests rc.config.modes a b f.sourceFd.getFd f.destFd.getFd r) with
        | some sq =>
          rw [hall] at hspec
          obtain ⟨hwf, hqueued⟩ := hspec
          have hle := hwf.length_le
          rw [← IoUringSq.length_queued, hqueued, length_append] at hle
          rw [if_neg (by omega)]
          refine ⟨?_, hwf, hs.cq, Nat.zero_le _⟩
          simp only [view, State.withRings, hqueued, hevent]
          rfl
        | none =>
          rw [hall] at hspec
          rw [if_pos hspec]
          refine ⟨?_, hs.sq, hs.cq, Nat.zero_le _⟩
          simp only [view, State.withRings, hevent]
          rfl
      · simp only [batchRequests, hr, hf, hj, ne_eq, not_false_eq_true, if_true, IoUringSq.prepAll,
          withRunner, hr', hf']
        exact ⟨rfl, hs.of_queue rfl⟩

/-- `io_uring_submit`. -/
theorem submitting_sim {n : ℕ} {a : Answer} (hs : Sound rc w)
    (hp : w.queue.submit = .submitting n) (h : submittingStep n a w = some w') :
    CopyQueue.submittingStep n a w.view = some w'.view ∧ Sound rc w' := by
  obtain ⟨hwf, hqueued, htail, hlen⟩ := IoUringSq.flushSq_spec hs.sq
  have hevent : w.queue.submit.inEvent = false := by rw [hp]; rfl
  unfold submittingStep at h
  unfold CopyQueue.submittingStep
  cases a with
  | tick =>
    dsimp only at h ⊢
    split at h
    · rename_i hn
      cases h
      rw [if_pos hn]
      refine ⟨?_, hs.sq, hs.cq, Nat.zero_le _⟩
      simp only [view, State.withRings, hevent]
      rfl
    · cases h
  | submitted ret =>
    dsimp only at h ⊢
    split at h
    · cases h
    · rename_i hn
      rw [if_neg hn]
      split at h
      · rename_i hagain
        cases h
        rw [if_pos hagain]
        refine ⟨?_, hwf, hs.cq, hs.hand⟩
        simp only [view, hqueued]
      · rename_i hagain
        rw [if_neg hagain]
        split at h
        · rename_i hpos
          rw [if_pos hpos]
          split at h
          · rename_i hle
            cases h
            have hle' : ret ≤ w.view.sq.length := by
              rw [hlen] at hle
              exact hle
            have hm : ret.toNat ≤ (w.sq.flushSq.2.ktail - w.sq.flushSq.2.khead).toNat := by
              rw [htail, ← IoUringSq.length_queued, hqueued, ← hlen]
              omega
            obtain ⟨hbatch, hwf', hdrop⟩ := IoUringSq.consume_spec hwf hm
            rw [if_pos hle']
            refine ⟨?_, hwf', hs.cq, Nat.zero_le _⟩
            simp only [view, State.withRings, hevent, hbatch, hdrop, hqueued]
            rfl
          · cases h
        · rename_i hpos
          cases h
          rw [if_neg hpos]
          refine ⟨?_, hwf, hs.cq, hs.hand⟩
          simp only [view, State.withRings, hqueued, CopyQueue.abort]
  | _ => cases h

/-- The completion that is handled leaves the list when it is peeked, and the ring when it is
seen. -/
theorem completionStep_withRings (cfg : Config) {s : State} (sq : List Sqe) (c : Cqe) (cq : List Cqe)
    (hp : s.submit = .completing) :
    completionStep cfg 0 c (s.withRings sq (c :: cq)) = (completionStep cfg 0 c s).withRings sq
      ((c :: cq).drop (completionStep cfg 0 c s).submit.inEvent.toNat) ∧
    (completionStep cfg 0 c s).submit.inEvent.toNat ≤ 1 := by
  refine ⟨?_, Bool.toNat_le _⟩
  have hrunners : (s.withRings sq (c :: cq)).runners = s.runners := rfl
  have hfiles : (s.withRings sq (c :: cq)).files = s.files := rfl
  unfold completionStep withRunner
  rw [hrunners, hfiles]
  cases hr : s.runners.get? c.runner with
  | none => simp only [CopyQueue.abort, State.withRings, hp]; rfl
  | some x =>
    dsimp only
    cases hf : s.files.get? x.file with
    | none => simp only [CopyQueue.abort, State.withRings, hp]; rfl
    | some f =>
      dsimp only
      split <;> rfl

/-- The head of the loop over the completions. -/
theorem completing_sim {a : Answer} (hs : Sound rc w) (hp : w.queue.submit = .completing)
    (h : completingStep rc a w = some w') :
    CopyQueue.completingStep rc.config a w.view = some w'.view ∧ Sound rc w' := by
  have hevent : w.queue.submit.inEvent = false := by rw [hp]; rfl
  have hget := IoUringCq.getCqe_spec hs.cq
  have hrunning : w.view.submissionsRunning = w.queue.submissionsRunning := rfl
  unfold completingStep at h
  unfold CopyQueue.completingStep
  split at h
  · split at h
    · rename_i hzero
      cases h
      dsimp only
      rw [hrunning, if_pos hzero]
      refine ⟨?_, hs.sq, hs.cq, Nat.zero_le _⟩
      simp only [view, State.withRings, hevent]
      rfl
    · cases h
  · split at h
    · cases h
    · rename_i hcond
      cases h
      rw [not_or] at hcond
      dsimp only
      rw [hrunning, if_neg hcond.1, hget]
      refine ⟨?_, hs.sq, hs.cq, Nat.zero_le _⟩
      simp only [view, State.withRings, hevent]
      rfl
  · split at h
    · cases h
    · rename_i hzero
      rw [hget] at h
      obtain ⟨c, hc, rfl⟩ := Option.map_eq_some_iff.mp h
      obtain ⟨cq, hposted⟩ := head?_eq_some_iff.mp hc
      have hview : w.view = w.queue.withRings w.sq.queued (c :: cq) := by
        rw [view, hevent, hposted]
        rfl
      obtain ⟨hstep, hle⟩ := completionStep_withRings rc.config w.sq.queued c cq hp
      dsimp only
      rw [hrunning, if_neg hzero, hview]
      refine ⟨?_, hs.sq, hs.cq, ?_⟩
      · show some (completionStep rc.config 0 c _) = some (State.withRings _ _ _)
        rw [hstep, hposted]
      · show _ ≤ w.cq.posted.length
        rw [hposted, length_cons]
        exact hle.trans (Nat.le_add_left 1 _)
  · cases h

/-- `io_uring_cqe_seen`. -/
theorem seen_sim (hs : Sound rc w) (hp : w.queue.submit = .seen)
    (h : (otherStep rc (.submit .tick) w).map (fun w => { w with cq := w.cq.cqeSeen }) = some w') :
    CopyQueue.step rc.config w.view (.submit .tick) = some w'.view ∧ Sound rc w' := by
  obtain ⟨w₁, h₁, rfl⟩ := Option.map_eq_some_iff.mp h
  obtain ⟨q, hq, rfl⟩ := Option.map_eq_some_iff.mp h₁
  have hevent : w.queue.submit.inEvent = true := by rw [hp]; rfl
  have hpos : 0 < w.cq.posted.length := by
    have hhand := hs.hand
    rw [hevent] at hhand
    exact hhand
  obtain ⟨hwf, hdrop⟩ := IoUringCq.cqeSeen_spec hs.cq hpos
  have hstep : CopyQueue.step rc.config w.view (.submit .tick) =
      some (q.withRings w.sq.queued (w.cq.posted.drop 1)) := by
    rw [view, step_withRings (by rw [Label.usesRings, hp]; rfl), hq, hevent]
    rfl
  have hcompleting : q.submit = .completing := by
    unfold CopyQueue.step at hq
    split at hq
    · cases hq
    · simp only [CopyQueue.submitStep, hp] at hq
      rw [← Option.some.inj hq]
  refine ⟨?_, hs.sq, hwf, ?_⟩
  · rw [hstep]
    show some (q.withRings _ _) = some (q.withRings _ (drop q.submit.inEvent.toNat _))
    rw [hcompleting, hdrop]
    rfl
  · show q.submit.inEvent.toNat ≤ _
    rw [hcompleting]
    exact Nat.zero_le _

/-- What is in the completion ring has been counted. -/
theorem length_cq_le {s : State} (h : State.Ring s) :
    s.cq.length + s.submit.inEvent.toNat ≤ s.submissionsRunning := by
  rw [h.submissions]
  simp only [tags, length_append, length_map]
  omega

/-- The kernel posts a completion: there is room for it, since it was counted when it was queued. -/
theorem kernel_sim {i : ℕ} {res : ℤ} (hs : Sound rc w) (hrun : w.queue.halted = none)
    (hr : (CopyQueue.system rc.config).Reachable w.view) (h : kernelStep i res w = some w') :
    CopyQueue.step rc.config w.view (.kernel i res) = some w'.view ∧ Sound rc w' := by
  unfold kernelStep at h
  split at h
  · cases h
  · rename_i chain hi
    split at h
    · cases h
    · rename_i chain' storage cqe hc
      cases h
      have hhand := hs.hand
      have hstep : CopyQueue.step rc.config w.view (.kernel i res) = some { w.view with
          chains := w.view.chains.set i chain', storage, cq := w.view.cq ++ [cqe] } := by
        have hrun' : w.view.halted = none := hrun
        have hi' : w.view.chains[i]? = some chain := hi
        have hc' : chain.complete w.view.storage res = some (chain', storage, cqe) := hc
        simp only [CopyQueue.step, hrun', CopyQueue.kernelStep, hi', hc']
        rfl
      -- the state after the step counts the completion too
      have hafter : (CopyQueue.system rc.config).Reachable { w.view with
          chains := w.view.chains.set i chain', storage, cq := w.view.cq ++ [cqe] } :=
        .step (l := .kernel i res) hr trivial hstep
      have hroom : w.cq.posted.length < 2 ^ (rc.order + 1) := by
        have hle := (length_cq_le (reachable_ring hafter)).trans (reachable_room hafter).le
        have hlen : (w.view.cq ++ [cqe]).length + w.queue.submit.inEvent.toNat ≤ rc.config.ringSize :=
          hle
        rw [length_append, length_singleton, rc.ringSize_eq] at hlen
        have hcq : w.view.cq.length = w.cq.posted.length - w.queue.submit.inEvent.toNat :=
          length_drop
        rw [pow_succ]
        omega
      obtain ⟨hwf, hposted⟩ := IoUringCq.post_spec hs.cq cqe hroom
      refine ⟨?_, hs.sq, hwf, ?_⟩
      · rw [hstep]
        simp only [view, State.withRings, hposted, drop_append_of_le_length hhand]
      · show w.queue.submit.inEvent.toNat ≤ _
        rw [hposted, length_append]
        exact hhand.trans (Nat.le_add_right _ _)

theorem step_submit (cfg : Config) {s : State} (hrun : s.halted = none) (a : Answer) :
    CopyQueue.step cfg s (.submit a) = CopyQueue.submitStep cfg a s := by
  simp only [CopyQueue.step, hrun]
  rfl

/-- A step of the submit thread. -/
theorem submit_sim {a : Answer} (hs : Sound rc w) (ht : Threads rc.config w.view)
    (hrun : w.queue.halted = none) (h : submitStep rc a w = some w') :
    CopyQueue.step rc.config w.view (.submit a) = some w'.view ∧ Sound rc w' := by
  have hstep := step_submit rc.config (s := w.view) hrun a
  unfold submitStep at h
  split at h
  · rename_i n r a b hp
    cases h
    obtain ⟨hbatch, hsound⟩ := batch_sim (a := a) (b := b) hs hp
    have hp' : w.view.submit = .batch n r := hp
    simp only [hstep, CopyQueue.submitStep, hp', hbatch]
    exact ⟨trivial, hsound⟩
  · rename_i n hp
    have hp' : w.view.submit = .submitting n := hp
    simp only [hstep, CopyQueue.submitStep, hp']
    exact submitting_sim hs hp h
  · rename_i hp
    have hp' : w.view.submit = .completing := hp
    simp only [hstep, CopyQueue.submitStep, hp']
    exact completing_sim hs hp h
  · rename_i hp
    exact seen_sim hs hp h
  · rename_i a _ _ hsubmitting hcompleting hbatch hseen
    obtain ⟨q, hq, hw⟩ := Option.map_eq_some_iff.mp h
    refine other_sim hs ht ?_ (fun ha hp => hseen hp (Label.submit.inj ha)) h
    rw [step_submit rc.config hrun] at hq
    cases hp : w.queue.submit with
    | batch n r =>
      simp only [CopyQueue.submitStep, hp] at hq
      cases a with
      | rand a b => exact absurd rfl (hbatch n r a b hp)
      | _ => cases hq
    | submitting n => exact (hsubmitting n hp).elim
    | completing => exact (hcompleting hp).elim
    | _ => rfl

/-- A queue on its rings takes the steps of the queue that they stand for. -/
theorem step_sim {l : Label} (hs : Sound rc w)
    (hr : (CopyQueue.system rc.config).Reachable w.view) (h : step rc w l = some w') :
    CopyQueue.step rc.config w.view l = some w'.view ∧ Sound rc w' := by
  have ht := reachable_threads hr
  unfold step at h
  split at h
  · cases h
  · rename_i hne
    have hrun : w.queue.halted = none := Option.not_isSome_iff_eq_none.mp hne
    cases l with
    | submit a => exact submit_sim hs ht hrun h
    | kernel i res => exact kernel_sim hs hrun hr h
    | _ => exact other_sim hs ht rfl (fun hc => by cases hc) h

section Initial

variable {storage : Storage} {array : U32 → U32} {sqes : U32 → Sqe} {cqes : U32 → Cqe}

theorem sound_initial : Sound rc (initial rc storage array sqes cqes) := by
  have hzero : ((0 : U32) - 0).toNat = 0 := by decide
  have horder := rc.order_lt
  refine ⟨⟨horder, rfl, rfl, rfl, le_rfl, ?_, fun i hi => ?_⟩, ⟨?_, rfl, rfl, rfl⟩, Nat.zero_le _⟩
  · show ((0 : U32) - 0).toNat ≤ _
    rw [hzero]
    exact Nat.zero_le _
  · have hi : i < ((0 : U32) - 0).toNat := hi
    rw [hzero] at hi
    cases hi
  · omega

theorem view_initial : (initial rc storage array sqes cqes).view =
    CopyQueue.initial rc.config storage := by
  have hzero : ((0 : U32) - 0).toNat = 0 := by decide
  simp only [view, State.withRings, IoUringSq.queued, IoUringCq.posted, initial, hzero]
  rfl

end Initial

/-- In every run of a queue on its rings, the rings stand for a state that a queue whose rings are
lists reaches by the same steps, so that what holds of the one holds of the other: the kernel is given
exactly the requests that were queued, in order, and each completion it posts is handled once, in
order, however often the counters have wrapped. `io_uring_get_sqe` never finds the submission ring
full, and the kernel never finds the completion ring full. -/
theorem rings_refine_lists {ok : State → Label → Prop}
    (h : (system rc).ReachIn (fun w l => ok w.view l) w) :
    (CopyQueue.system rc.config).ReachIn ok w.view ∧
      (∀ l w', step rc w l = some w' → CopyQueue.step rc.config w.view l = some w'.view) ∧
      w.queue.submit ≠ .spinning ∧ w.cq.overflow = [] ∧
      w.cq.posted.length ≤ rc.config.ringSize := by
  have hsim : (CopyQueue.system rc.config).ReachIn ok w.view ∧ Sound rc w := by
    refine h.simulates ?_ fun w l w' hs hr hok hstep =>
      ⟨hok, step_sim hs hr.reachable hstep⟩
    rintro w ⟨storage, array, sqes, cqes, rfl⟩
    exact ⟨⟨storage, view_initial⟩, sound_initial⟩
  obtain ⟨hr, hs⟩ := hsim
  have hreach : (CopyQueue.system rc.config).Reachable w.view := hr.reachable
  have hroom := reachable_room hreach
  refine ⟨hr, fun l w' hstep => (step_sim hs hreach hstep).1, hroom.notSpinning, hs.cq.overflow, ?_⟩
  have hle := (length_cq_le (reachable_ring hreach)).trans hroom.le
  have hcq : w.view.cq.length = w.cq.posted.length - w.queue.submit.inEvent.toNat := length_drop
  have hevent : w.view.submit = w.queue.submit := rfl
  rw [hcq, hevent] at hle
  have hhand := hs.hand
  omega

/-- A queue with a ring of four entries. -/
def smallRingConfig : RingConfig where
  config := smallConfig
  order := 2
  ringSize_eq := rfl
  order_lt := by decide

/-- A small file is copied: the two requests go through one ring and their completions through the
other, and the second completion is being handled. -/
def ringSteps : List Label := List.flatten [oneChunkSteps,
  [.submit (.rand 0 0), .submit .tick, .submit (.submitted 2), .kernel 0 8, .kernel 0 8,
    .submit (.peeked (some 0))], ticks 2, [.submit (.peeked (some 0))]]

theorem rings_refine_lists_small : ∃ w, (system smallRingConfig).Reachable w ∧ w.sq.khead = 2 ∧
    w.cq.posted = [⟨0, .write, 8⟩] ∧ (CopyQueue.system smallConfig).Reachable w.view ∧
    w.cq.overflow = [] ∧ w.queue.storage.disk 2 = List.replicate 8 7 := by
  obtain ⟨w, hw, hp⟩ := Transition.System.Reachable.exists_of_run (S := system smallRingConfig)
    ⟨smallStorage 8, fun _ => 7, fun _ => { op := .nop, runner := 9, event := .read },
      fun _ => ⟨9, .read, 0⟩, rfl⟩ ringSteps
    (fun w => decide (w.sq.khead = 2 ∧ w.cq.posted = [⟨0, .write, 8⟩] ∧
      w.queue.storage.disk 2 = List.replicate 8 7)) (by decide +kernel)
  obtain ⟨hhead, hposted, hdisk⟩ := of_decide_eq_true hp
  obtain ⟨hview, -, -, hoverflow, -⟩ := @rings_refine_lists smallRingConfig w (fun _ _ => True) hw
  exact ⟨w, hw, hhead, hposted, hview, hoverflow, hdisk⟩

end RingQueue

end Wcp
