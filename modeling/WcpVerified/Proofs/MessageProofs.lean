import WcpVerified.ErrorMessages
import WcpVerified.Proofs.ErrorProofs

/-!
# Proofs: no message is lost

Every message is in one place: written, in the vector, taken by `showProgress`, or in the hand of the
thread that found the error. When the last `showProgress` has taken the vector everything is done, so
no runner is left, and the only error that can still be found is that of the runner which the submit
thread has just deleted: at most one message comes too late.
-/

namespace Wcp

open List CopyQueue

/-- The submit thread is about to record the error of a runner that it has deleted. -/
def SubmitPc.late : SubmitPc → ℕ
  | .recording _ (.addFailed _) => 1
  | _ => 0

namespace Reporting

variable {cfg : Config} {s s' : State} {l : Label} {w w' : Reporting}

/-! ## Steps of the queue -/

theorem late_closeNext (caller : CloseCaller) (r : ℕ) (side : Side) (result : Option Error) :
    (closeNext caller r side result).late = 0 := by
  cases side with
  | source => rfl
  | dest => cases caller <;> cases result <;> rfl

theorem step_record {e : Error} {caller : ErrorCaller} (hp : s.submit = .recording e caller)
    (h : CopyQueue.step cfg s (.submit .tick) = some s') :
    s' = { recordError e s with submit := afterError caller } := by
  unfold CopyQueue.step at h
  split at h
  · cases h
  · simp only [submitStep, hp] at h
    exact (Option.some.inj h).symm

theorem step_walkError_eq {e : Error} (h : CopyQueue.step cfg s (.walkError e) = some s') :
    s.main = .ready ∧ s' = { recordError e s with failed := true } := by
  unfold CopyQueue.step at h
  split at h
  · cases h
  · simp only at h
    split at h
    · rename_i hm
      exact ⟨hm, (Option.some.inj h).symm⟩
    · cases h

/-- What a step finds is what was recorded. -/
inductive Finds (s : State) : Label → Message → State → Prop where
  | main {e : Error} (hm : s.main = .ready) : Finds s (.walkError e) e.humanFriendlyErrorMessage
      { recordError e s with failed := true }
  | submit {e : Error} {caller : ErrorCaller} (hp : s.submit = .recording e caller) :
      Finds s (.submit .tick) e.humanFriendlyErrorMessage
        { recordError e s with submit := afterError caller }

theorem finds_of_found {m : Message} (h : CopyQueue.step cfg s l = some s') (hf : found s l = some m) :
    Finds s l m s' := by
  unfold found at hf
  split at hf
  · cases hf
    obtain ⟨hm, rfl⟩ := step_walkError_eq h
    exact .main hm
  · split at hf
    · rename_i hp
      cases hf
      rw [step_record hp h]
      exact .submit hp
    · cases hf
  · cases hf

theorem recorded_of_found (h : CopyQueue.step cfg s l = some s') :
    s'.recorded.map Error.humanFriendlyErrorMessage =
      s.recorded.map Error.humanFriendlyErrorMessage ++ (found s l).toList := by
  cases hf : found s l with
  | some m =>
    cases finds_of_found h hf with
    | main => exact map_append
    | submit => exact map_append
  | none =>
    rw [Option.toList_none, append_nil]
    cases (step_move h).2 with
    | walkError => cases hf
    | record hp =>
      simp only [found, hp] at hf
      cases hf
    | _ => rfl

theorem submit_eq (h : CopyQueue.step cfg s l = some s') (hl : l.thread ≠ .submit)
    (hs : l.isStart = false) : s'.submit = s.submit := by
  cases (step_move h).2 with
  | start => cases hs
  | joinFinish => rfl
  | _ => first | rfl | exact absurd rfl hl

/-- The submit thread is not started again while it runs. -/
theorem submit_eq_of_alive (h : CopyQueue.step cfg s l = some s') (hl : l.thread ≠ .submit)
    (ht : Threads cfg s) (ha : s.submit.alive = true) : s'.submit = s.submit := by
  cases (step_move h).2 with
  | start hm hs =>
    rw [ht.idle hs] at ha
    cases ha
  | joinFinish => rfl
  | _ => first | rfl | exact absurd rfl hl

theorem main_eq (h : CopyQueue.step cfg s l = some s') (hl : l.thread ≠ .main) :
    s'.main = s.main := by
  cases (step_move h).2 with
  | _ => first | rfl | exact absurd rfl hl

theorem progress_eq (h : CopyQueue.step cfg s l = some s') (hl : l.thread ≠ .progress)
    (hs : l.isStart = false) : s'.progress = s.progress := by
  cases (step_move h).2 with
  | start => cases hs
  | _ => first | rfl | exact absurd rfl hl

/-- The progress thread returns from behind its loop. -/
theorem returned_of_step (h : CopyQueue.step cfg s l = some s') (hrun : s'.halted = none)
    (hret : s'.progress = .returned) : l.isStart = false ∧
      (s.progress = .returned ∨ s.progress = .ended ∧ l.thread = .progress) := by
  cases hst : l.isStart with
  | true =>
    exfalso
    cases (step_move h).2 with
    | abort => cases hrun
    | start hm hs =>
      have hret : (if cfg.showingProgress then ProgressPc.looping else .notStarted) = .returned := hret
      split at hret <;> cases hret
    | _ => cases hst
  | false =>
    refine ⟨rfl, ?_⟩
    by_cases hp : l.thread = .progress
    · right
      cases (step_move h).2 with
      | abort => cases hrun
      | progressEnd => cases hret
      | progressExit => cases hrun
      | progressReturn hend => exact ⟨hend, hp⟩
      | _ => cases hp
    · exact .inl ((progress_eq h hp hst).symm.trans hret)

theorem idle_of_idle (h : CopyQueue.step cfg s l = some s') (hs : l.isStart = false)
    (hidle : s.state = .idle) : s'.state = .idle := by
  cases (step_move h).2 with
  | start => cases hs
  | join hm hrun =>
    rw [hrun] at hidle
    cases hidle
  | joinFinish => rfl
  | _ => exact hidle

/-- What is done stays done until `join` returns. -/
theorem isDone_of_isDone (h : CopyQueue.step cfg s l = some s') (ht : Threads cfg s)
    (hd : isDone s = true) : s'.state = .idle ∨ isDone s' = true := by
  obtain ⟨hstate, hkeep⟩ := isDone_iff.mp hd
  cases (step_move h).2 with
  | start hm hidle =>
    rw [hstate] at hidle
    cases hidle
  | joinFinish => exact .inl rfl
  | @partPush f job p hm =>
    have hj := ht.joining
    rw [hm, hstate] at hj
    cases hj
  | deleteShared | deleteLast =>
    refine .inr (isDone_iff.mpr ⟨hstate, ?_⟩)
    show s.keepAliveCount - 1 = 0
    rw [hkeep]
  | join => exact .inr (isDone_iff.mpr ⟨rfl, hkeep⟩)
  | _ => exact .inr hd

/-- When everything is done, a step of the submit thread finds no error but the late one. -/
theorem late_of_isDone (h : CopyQueue.step cfg s l = some s') (hl : l.thread = .submit)
    (hown : State.Owned s) (hc : Counts s) (hd : isDone s = true) :
    s'.submit.late + (found s l).toList.length ≤ s.submit.late := by
  have hnone := hc.none_of_isDone hd
  cases hf : found s l with
  | some m =>
    cases finds_of_found h hf with
    | main => cases hl
    | @submit e caller hp =>
      have hlate : ∀ r, caller.runner? ≠ some r := by
        intro r hr
        obtain ⟨x, hx⟩ := hown.live r (by simp [hp, SubmitPc.hand, hr])
        rw [hnone r] at hx
        cases hx
      rw [hp]
      cases caller with
      | addFailed n => exact le_rfl
      | finished r => exact absurd rfl (hlate r)
      | completion r => exact absurd rfl (hlate r)
      | emptyFile n r => exact absurd rfl (hlate r)
  | none =>
    rw [Option.toList_none, length_nil, Nat.add_zero]
    cases (step_move h).2 with
    | record hp =>
      simp only [found, hp] at hf
      cases hf
    | closeNext hp => rw [late_closeNext]; exact Nat.zero_le _
    | _ =>
      first
      | exact Nat.zero_le _
      | exact le_rfl
      | (have hr := ‹s.runners.get? _ = some _›
         rw [hnone] at hr
         cases hr)

/-! ## What a step can do -/

/-- The queue takes a step, and the thread that took it may be left with a message. -/
def afterQueue (w : Reporting) (l : Label) (q : State) : Reporting :=
  { w with
    queue := q
    mainHand := if l.thread = .main then found w.queue l else w.mainHand
    submitHand := if l.thread = .submit then found w.queue l else w.submitHand
    starting := if l.thread = .main then l.isStart else w.starting
    lastTaken := w.lastTaken && !l.isStart }

/-- One step of the system: every way it can go. -/
inductive Turn (cfg : Config) (w : Reporting) : ReportLabel → Reporting → Prop where
  | queue {l : Label} {q : State} (hfree : w.free l.thread = true)
      (hq : CopyQueue.step cfg w.queue l = some q) : Turn cfg w (.queue l) (w.afterQueue l q)
  | setShowing (hs : w.starting = true) : Turn cfg w .setShowing
      { w with showingProgress := cfg.showingProgress, starting := false }
  | passMain {m : Message} (hm : w.mainHand = some m) :
      Turn cfg w .passMain (passOn m { w with mainHand := none })
  | passSubmit {m : Message} (hm : w.submitHand = some m) :
      Turn cfg w .passSubmit (passOn m { w with submitHand := none })
  | take (hp : w.queue.progress = .looping ∨ w.queue.progress = .ended)
      (hl : w.localErrorMessages = none) : Turn cfg w .take
        { w with
          localErrorMessages := some w.errorMessages
          errorMessages := []
          lastTaken := decide (w.queue.progress = .ended) }
  | write {ms : List Message} (hm : w.localErrorMessages = some ms) : Turn cfg w .write
      { w with shown := w.shown ++ ms, localErrorMessages := none }

theorem step_turn {l : ReportLabel} (h : step cfg w l = some w') : Turn cfg w l w' := by
  unfold step at h
  split at h
  · cases h
  · cases l with
    | queue l =>
      simp only [queueStep] at h
      split at h
      · rename_i hfree
        obtain ⟨q, hq, rfl⟩ := Option.map_eq_some_iff.mp h
        exact .queue hfree hq
      · cases h
    | setShowing =>
      simp only at h
      split at h
      · rename_i hs
        cases h
        exact .setShowing hs
      · cases h
    | passMain =>
      obtain ⟨m, hm, rfl⟩ := Option.map_eq_some_iff.mp h
      exact .passMain hm
    | passSubmit =>
      obtain ⟨m, hm, rfl⟩ := Option.map_eq_some_iff.mp h
      exact .passSubmit hm
    | take =>
      simp only at h
      split at h
      · rename_i hc
        obtain ⟨hp, -, hl⟩ := hc
        cases h
        exact .take (hp.imp_right And.left) (Option.isNone_iff_eq_none.mp hl)
      · cases h
    | write =>
      obtain ⟨ms, hm, rfl⟩ := Option.map_eq_some_iff.mp h
      exact .write hm

theorem reachable_queue (h : (system cfg).Reachable w) : (CopyQueue.system cfg).Reachable w.queue := by
  refine h.invariant (P := fun w => (CopyQueue.system cfg).Reachable w.queue) ?_
    fun w l w' _ hw _ hstep => ?_
  · rintro w ⟨storage, rfl⟩
    exact .init ⟨storage, rfl⟩
  · cases step_turn hstep with
    | queue hfree hq => exact .step hw trivial hq
    | passMain hm =>
      unfold passOn
      split <;> exact hw
    | passSubmit hm =>
      unfold passOn
      split <;> exact hw
    | _ => exact hw

/-! ## Where the messages are -/

/-- Each message that was recorded is in one place, and those of the vector keep their order. -/
structure Kept (cfg : Config) (w : Reporting) : Prop where
  recorded : w.queue.recorded.map Error.humanFriendlyErrorMessage ~
    w.printed ++ w.pushed ++ w.mainHand.toList ++ w.submitHand.toList
  pushed : w.pushed = w.shown ++ (w.localErrorMessages.getD [] ++ w.errorMessages)
  hidden : cfg.showingProgress = false → w.showingProgress = false ∧ w.pushed = []

theorem kept_passOn {m : Message} (h : Kept cfg w) {main submit : Option Message}
    (hhands : m :: (main.toList ++ submit.toList) ~ w.mainHand.toList ++ w.submitHand.toList) :
    Kept cfg (passOn m { w with mainHand := main, submitHand := submit }) := by
  unfold passOn
  have hrec := h.recorded
  rw [append_assoc] at hrec
  split
  · rename_i hshow
    refine ⟨?_, ?_, fun hc => ?_⟩
    · show _ ~ w.printed ++ (w.pushed ++ [m]) ++ main.toList ++ submit.toList
      refine hrec.trans ((hhands.symm.append_left _).trans (.of_eq ?_))
      simp only [append_assoc, cons_append, nil_append]
    · show w.pushed ++ [m] = w.shown ++ (w.localErrorMessages.getD [] ++ (w.errorMessages ++ [m]))
      rw [h.pushed]
      simp only [append_assoc]
    · have hfalse := (h.hidden hc).1
      rw [show w.showingProgress = true from hshow] at hfalse
      cases hfalse
  · refine ⟨?_, h.pushed, h.hidden⟩
    show _ ~ w.printed ++ [m] ++ w.pushed ++ main.toList ++ submit.toList
    refine hrec.trans ((hhands.symm.append_left _).trans ?_)
    simp only [append_assoc]
    exact perm_middle.append_left _

theorem kept_turn {l : ReportLabel} (ht : Turn cfg w l w') (h : Kept cfg w) : Kept cfg w' := by
  cases ht with
  | @queue l q hfree hq =>
    refine ⟨?_, h.pushed, h.hidden⟩
    show q.recorded.map _ ~ w.printed ++ w.pushed ++ Option.toList (if _ then _ else _) ++
      Option.toList (if _ then _ else _)
    rw [recorded_of_found hq]
    refine (h.recorded.append_right _).trans ?_
    -- the thread that takes the step has nothing in its hand
    by_cases hmain : l.thread = .main
    · rw [hmain] at hfree ⊢
      have hnone : w.mainHand = none := by
        simp only [free, Bool.and_eq_true, Option.isNone_iff_eq_none] at hfree
        exact hfree.1
      rw [if_pos rfl, if_neg (by decide), hnone]
      simp only [append_assoc, Option.toList_none, nil_append]
      exact (perm_append_comm.append_left _).append_left _
    · rw [if_neg hmain]
      by_cases hsub : l.thread = .submit
      · rw [hsub] at hfree
        have hnone : w.submitHand = none := Option.isNone_iff_eq_none.mp hfree
        rw [if_pos hsub, hnone, Option.toList_none, append_nil]
      · rw [if_neg hsub, show found w.queue l = none from ?_, Option.toList_none, append_nil]
        unfold found
        split
        · exact absurd rfl hmain
        · exact absurd rfl hsub
        · rfl
  | setShowing hs => exact ⟨h.recorded, h.pushed, fun hc => ⟨hc, (h.hidden hc).2⟩⟩
  | @passMain m hm =>
    refine kept_passOn h ?_
    rw [hm]
    exact .refl _
  | @passSubmit m hm =>
    refine kept_passOn h ?_
    rw [hm]
    exact perm_middle.symm
  | take hp hl =>
    refine ⟨h.recorded, ?_, h.hidden⟩
    have hpushed := h.pushed
    rw [hl] at hpushed
    rw [hpushed]
    simp
  | @write ms hm =>
    refine ⟨h.recorded, ?_, h.hidden⟩
    have hpushed := h.pushed
    rw [hm] at hpushed
    rw [hpushed]
    simp

theorem reachable_kept (h : (system cfg).Reachable w) : Kept cfg w := by
  refine h.invariant ?_ fun w l w' _ hw _ hstep => kept_turn (step_turn hstep) hw
  rintro w ⟨storage, rfl⟩
  exact ⟨.refl _, rfl, fun _ => ⟨rfl, rfl⟩⟩

/-! ## The last messages -/

/-- Who can have a message in hand, and how many messages can come after the vector was taken for the
last time. -/
structure Timely (w : Reporting) : Prop where
  mainHand : w.mainHand.isSome = true → w.queue.main = .ready
  submitHand : w.submitHand.isSome = true → w.queue.submit.alive = true ∧ w.queue.submit.late = 0
  taken : w.localErrorMessages.isSome = true →
    w.queue.progress = .looping ∨ w.queue.progress = .ended
  returned : w.queue.halted = none → w.queue.progress = .returned → w.lastTaken = true
  ended : w.lastTaken = true → w.queue.state = .idle ∨ isDone w.queue = true
  late : w.lastTaken = true → isDone w.queue = true →
    w.queue.submit.late + w.submitHand.toList.length + w.errorMessages.length ≤ 1

theorem not_ready_of_isDone (ht : Threads cfg s) (hd : isDone s = true) : s.main ≠ .ready := by
  intro hm
  have hj := ht.joining
  rw [hm, (isDone_iff.mp hd).1] at hj
  cases hj

theorem late_le_one (pc : SubmitPc) : pc.late ≤ 1 := by
  unfold SubmitPc.late
  split
  · exact le_rfl
  · exact Nat.zero_le 1

theorem late_afterError (caller : ErrorCaller) : (afterError caller).late = 0 := by
  cases caller <;> rfl

/-- One thread has one message. -/
theorem Timely.late_add_hand (h : Timely w) :
    w.queue.submit.late + w.submitHand.toList.length ≤ 1 := by
  cases hh : w.submitHand with
  | none => exact late_le_one _
  | some m =>
    rw [(h.submitHand (by rw [hh]; rfl)).2]
    exact le_rfl

theorem timely_queue {q : State} (hfree : w.free l.thread = true)
    (hq : CopyQueue.step cfg w.queue l = some q) (ht : Threads cfg w.queue)
    (hown : State.Owned w.queue) (hc : Counts w.queue) (h : Timely w) :
    Timely (w.afterQueue l q) := by
  have hstart : (w.afterQueue l q).lastTaken = true → w.lastTaken = true ∧ l.isStart = false := by
    intro hlast
    simpa [afterQueue] using hlast
  refine ⟨fun hsome => ?_, fun hsome => ?_, fun hsome => ?_, fun hrun hret => ?_, fun hlast => ?_,
    fun hlast hd => ?_⟩
  · by_cases hmain : l.thread = .main
    · have hsome : (found w.queue l).isSome = true := by simpa [afterQueue, hmain] using hsome
      obtain ⟨m, hm⟩ := Option.isSome_iff_exists.mp hsome
      cases finds_of_found hq hm with
      | main hready => exact hready
      | submit => cases hmain
    · have hsome : w.mainHand.isSome = true := by simpa [afterQueue, hmain] using hsome
      exact (main_eq hq hmain).trans (h.mainHand hsome)
  · by_cases hsub : l.thread = .submit
    · have hsome : (found w.queue l).isSome = true := by simpa [afterQueue, hsub] using hsome
      obtain ⟨m, hm⟩ := Option.isSome_iff_exists.mp hsome
      cases finds_of_found hq hm with
      | main => cases hsub
      | submit => exact ⟨afterError_alive _, late_afterError _⟩
    · have hsome : w.submitHand.isSome = true := by simpa [afterQueue, hsub] using hsome
      obtain ⟨ha, hl⟩ := h.submitHand hsome
      show q.submit.alive = true ∧ q.submit.late = 0
      rw [submit_eq_of_alive hq hsub ht ha]
      exact ⟨ha, hl⟩
  · have hprog := h.taken hsome
    have hne : l.thread ≠ .progress := by
      intro hp
      rw [hp] at hfree
      have hnone : w.localErrorMessages.isNone = true := by
        simp only [free, Bool.and_eq_true] at hfree
        exact hfree.1.1
      have hsome : w.localErrorMessages.isSome = true := hsome
      rw [Option.isNone_iff_eq_none.mp hnone] at hsome
      cases hsome
    show q.progress = .looping ∨ q.progress = .ended
    cases (step_move hq).2 with
    | start hm hs =>
      exfalso
      rcases hprog with hp | hp
      · exact ht.progressing hp hs
      · have hd := (isDone_iff.mp (ht.ended hp)).1
        rw [hs] at hd
        cases hd
    | _ => first | exact hprog | exact absurd rfl hne
  · obtain ⟨hns, hprog⟩ := returned_of_step hq hrun hret
    have hlast : w.lastTaken = true := by
      rcases hprog with hp | ⟨hp, hl⟩
      · exact h.returned (step_move hq).1 hp
      · rw [hl] at hfree
        simpa [free, hp] using And.right (Bool.and_eq_true_iff.mp hfree)
    show (w.lastTaken && !l.isStart) = true
    rw [hlast, hns]
    rfl
  · obtain ⟨hlast, hns⟩ := hstart hlast
    rcases h.ended hlast with hidle | hd
    · exact .inl (idle_of_idle hq hns hidle)
    · exact isDone_of_isDone hq ht hd
  · obtain ⟨hlast, hns⟩ := hstart hlast
    have hd : isDone q = true := hd
    have hd' : isDone w.queue = true := by
      refine (h.ended hlast).resolve_left fun hidle => ?_
      have hstate := (isDone_iff.mp hd).1
      rw [idle_of_idle hq hns hidle] at hstate
      cases hstate
    have hsum := h.late hlast hd'
    by_cases hsub : l.thread = .submit
    · have hle := late_of_isDone hq hsub hown hc hd'
      have hhand : (w.afterQueue l q).submitHand = found w.queue l := if_pos hsub
      rw [hhand]
      show q.submit.late + (found w.queue l).toList.length + w.errorMessages.length ≤ 1
      omega
    · have hhand : (w.afterQueue l q).submitHand = w.submitHand := if_neg hsub
      rw [hhand]
      show q.submit.late + w.submitHand.toList.length + w.errorMessages.length ≤ 1
      rw [submit_eq hq hsub hns]
      exact hsum

theorem Timely.passOn {m : Message} (h : Timely w)
    (hlate : w.lastTaken = true → isDone w.queue = true →
      w.queue.submit.late + w.submitHand.toList.length + w.errorMessages.length + 1 ≤ 1) :
    Timely (passOn m w) := by
  unfold Reporting.passOn
  split
  · refine { h with late := fun hlast hd => ?_ }
    have hsum := hlate hlast hd
    rw [length_append]
    exact hsum
  · exact { h with }

theorem timely_turn {l : ReportLabel} (hturn : Turn cfg w l w') (ht : Threads cfg w.queue)
    (hown : State.Owned w.queue) (hc : Counts w.queue) (h : Timely w) : Timely w' := by
  cases hturn with
  | queue hfree hq => exact timely_queue hfree hq ht hown hc h
  | setShowing => exact { h with }
  | @passMain m hm =>
    have hready := h.mainHand (by rw [hm]; rfl)
    refine Timely.passOn { h with mainHand := fun hsome => ?_ } fun hlast hd => ?_
    · cases hsome
    · exact absurd hready (not_ready_of_isDone ht hd)
  | @passSubmit m hm =>
    refine Timely.passOn { h with submitHand := fun hsome => ?_, late := fun hlast hd => ?_ }
      fun hlast hd => ?_
    · cases hsome
    · have hsum := h.late hlast hd
      show w.queue.submit.late + 0 + w.errorMessages.length ≤ 1
      omega
    · have hsum := h.late hlast hd
      rw [hm] at hsum
      show w.queue.submit.late + 0 + w.errorMessages.length + 1 ≤ 1
      simp only [Option.toList_some, length_singleton] at hsum
      omega
  | take hp hl =>
    refine ⟨h.mainHand, h.submitHand, fun _ => hp, fun _ hret => ?_, fun hlast => ?_, fun _ _ => ?_⟩
    · have hret : w.queue.progress = .returned := hret
      rcases hp with hp | hp <;> rw [hp] at hret <;> cases hret
    · exact .inr (ht.ended (of_decide_eq_true hlast))
    · exact h.late_add_hand
  | write hm =>
    refine { h with taken := fun hsome => ?_ }
    cases hsome

theorem reachable_timely (h : (system cfg).Reachable w) : Timely w := by
  refine h.invariant ?_ fun w l w' hr hw _ hstep => ?_
  · rintro w ⟨storage, rfl⟩
    refine ⟨fun hc => ?_, fun hc => ?_, fun hc => ?_, fun _ hc => ?_, fun hc => ?_, fun hc => ?_⟩ <;>
      cases hc
  · have hq := reachable_queue hr
    exact timely_turn (step_turn hstep) (reachable_threads hq) (reachable_owned hq).1
      (reachable_owned hq).2 hw

/-! ## The end of a session -/

theorem vector_nil_of_hidden (h : Kept cfg w) (hsp : cfg.showingProgress = false) :
    w.localErrorMessages.getD [] = [] ∧ w.errorMessages = [] := by
  have hpushed := h.pushed
  rw [(h.hidden hsp).2] at hpushed
  have hnil := (append_eq_nil_iff.mp hpushed.symm).2
  exact append_eq_nil_iff.mp hnil

theorem mainHand_none (h : Timely w) (hm : w.queue.main ≠ .ready) : w.mainHand = none := by
  by_contra hne
  exact hm (h.mainHand (Option.isSome_iff_ne_none.mpr hne))

theorem submitHand_none (h : Timely w) (hp : w.queue.submit.alive = false) : w.submitHand = none := by
  by_contra hne
  have halive := (h.submitHand (Option.isSome_iff_ne_none.mpr hne)).1
  rw [hp] at halive
  cases halive

theorem local_none (h : Timely w) (hl : w.queue.progress ≠ .looping) (he : w.queue.progress ≠ .ended) :
    w.localErrorMessages = none := by
  by_contra hne
  exact (h.taken (Option.isSome_iff_ne_none.mpr hne)).elim hl he

/-- The submit thread ends the process only if no progress is shown. -/
theorem hidden_of_submitExit (h : CopyQueue.step cfg s (.submit .tick) = some s')
    (hp : s.submit = .checkDone) (hh : s'.halted ≠ s.halted) : cfg.showingProgress = false := by
  unfold CopyQueue.step at h
  split at h
  · cases h
  · simp only [submitStep, hp, Option.some.injEq] at h
    rw [← h] at hh
    unfold checkDoneStep at hh
    split at hh
    · split at hh
      · rename_i hexit
        simpa using hexit.2
      · exact absurd rfl hh
    · exact absurd rfl hh

/-- The two places where the process ends. -/
theorem exit_cases {errored : Bool} (h : CopyQueue.step cfg s l = some s')
    (hexit : s'.halted = some (.exit errored)) (ht : Threads cfg s) :
    isDone s' = true ∧
      ((l = .submit .tick ∧ s.submit = .checkDone ∧ cfg.showingProgress = false) ∨
        (l = .progress ∧ s.progress = .ended ∧ cfg.showingProgress = true)) := by
  obtain ⟨hrun, hm⟩ := step_move h
  cases hm with
  | abort => cases hexit
  | submitExit hp hd =>
    have hhidden := hidden_of_submitExit h hp (by rw [hexit, hrun]; simp)
    exact ⟨hd, .inl ⟨rfl, hp, hhidden⟩⟩
  | progressExit hp =>
    have hshown := ht.shown (by rw [hp]; intro hc; cases hc)
    exact ⟨ht.ended hp, .inr ⟨rfl, hp, hshown⟩⟩
  | _ => exact absurd (hrun.symm.trans hexit) (by simp)

theorem step_running {l : ReportLabel} (h : step cfg w l = some w') : w.queue.halted = none := by
  unfold step at h
  split at h
  · cases h
  · rename_i hne
    exact Option.not_isSome_iff_eq_none.mp hne

/-- Only a step of the queue ends the process. -/
theorem Turn.of_halted {l : ReportLabel} (ht : Turn cfg w l w') (hrun : w.queue.halted = none)
    (hh : w'.queue.halted ≠ none) : ∃ lq q, w.free lq.thread = true ∧
      CopyQueue.step cfg w.queue lq = some q ∧ w' = w.afterQueue lq q := by
  have hpass : ∀ m w, (Reporting.passOn m w).queue = w.queue := by
    intro m w
    unfold Reporting.passOn
    split <;> rfl
  cases ht with
  | @queue lq q hfree hq => exact ⟨lq, q, hfree, hq, rfl⟩
  | passMain | passSubmit =>
    rw [hpass] at hh
    exact absurd hrun hh
  | _ => exact absurd hrun hh

/-- What the messages are when nobody but the submit thread can have one in hand. -/
theorem unwritten_eq (hmain : w.mainHand = none) (hlocal : w.localErrorMessages.getD [] = []) :
    w.unwritten = w.errorMessages ++ w.submitHand.toList := by
  simp only [unwritten, hmain, hlocal, nil_append, Option.toList_none, append_nil]

/-- What is left when the process has ended. -/
theorem unwritten_of_exit {errored : Bool} (h : (system cfg).Reachable w)
    (hexit : w.queue.halted = some (.exit errored)) :
    w.unwritten.length ≤ 1 ∧ (cfg.showingProgress = false → w.unwritten = []) := by
  have hkept := reachable_kept h
  have htimely := reachable_timely h
  have ht := reachable_threads (reachable_queue h)
  cases h with
  | init hi =>
    obtain ⟨st, rfl⟩ := hi
    cases hexit
  | @step w₀ _ l hr _ hs =>
    have hrun := step_running hs
    obtain ⟨lq, q, hfree, hq, rfl⟩ := (step_turn hs).of_halted hrun (by rw [hexit]; simp)
    obtain ⟨hd, hcase⟩ := exit_cases hq hexit (reachable_threads (reachable_queue hr))
    have hmain := mainHand_none htimely (not_ready_of_isDone ht hd)
    rcases hcase with ⟨rfl, hp, hsp⟩ | ⟨rfl, hp, hsp⟩
    · obtain ⟨hlocal, hvector⟩ := vector_nil_of_hidden hkept hsp
      have hhand : (w₀.afterQueue (.submit .tick) q).submitHand = none := by
        show found w₀.queue (.submit .tick) = none
        simp only [found, hp]
      have hnil : (w₀.afterQueue (.submit .tick) q).unwritten = [] := by
        rw [unwritten_eq hmain hlocal, hvector, hhand]
        rfl
      rw [hnil]
      exact ⟨Nat.zero_le 1, fun _ => rfl⟩
    · simp only [Label.thread, free, hp, Bool.and_eq_true, Option.isNone_iff_eq_none] at hfree
      obtain ⟨⟨hlocal, -⟩, hlast⟩ := hfree
      have hlast : (w₀.afterQueue .progress q).lastTaken = true := by
        show (w₀.lastTaken && true) = true
        simpa using hlast
      have hlate := htimely.late hlast hd
      refine ⟨?_, fun hc => ?_⟩
      · rw [unwritten_eq hmain (by show w₀.localErrorMessages.getD [] = []; rw [hlocal]; rfl),
          length_append]
        omega
      · rw [hsp] at hc
        cases hc

/-- What is left when `join` is about to return. -/
theorem unwritten_of_join (h : (system cfg).Reachable w) (hrun : w.queue.halted = none)
    (hm : w.queue.main.joining = true) (hsub : w.queue.submit = .returned)
    (hprog : cfg.showingProgress = true → w.queue.progress = .returned) :
    w.unwritten.length ≤ 1 ∧ (cfg.showingProgress = false → w.unwritten = []) := by
  have hkept := reachable_kept h
  have htimely := reachable_timely h
  have ht := reachable_threads (reachable_queue h)
  have hstate : w.queue.state = .additionComplete := by
    have hj := ht.joining
    rw [hm] at hj
    exact beq_iff_eq.mp hj.symm
  have hd : isDone w.queue = true := isDone_iff.mpr ⟨hstate, ht.returned hsub hstate⟩
  have hmain := mainHand_none htimely (not_ready_of_isDone ht hd)
  have hhand := submitHand_none htimely (by rw [hsub]; rfl)
  cases hsp : cfg.showingProgress with
  | false =>
    obtain ⟨hlocal, hvector⟩ := vector_nil_of_hidden hkept hsp
    rw [unwritten_eq hmain hlocal, hvector, hhand]
    exact ⟨Nat.zero_le 1, fun _ => rfl⟩
  | true =>
    have hret := hprog hsp
    have hlocal := local_none htimely (by rw [hret]; intro hc; cases hc)
      (by rw [hret]; intro hc; cases hc)
    have hlate := htimely.late (htimely.returned hrun hret) hd
    refine ⟨?_, fun hc => by cases hc⟩
    rw [unwritten_eq hmain (by rw [hlocal]; rfl), length_append]
    omega

/-- The end of a session: the process has ended, or `join` has waited for every thread. -/
def Ending (cfg : Config) (w : Reporting) : Prop :=
  (∃ errored, w.queue.halted = some (.exit errored)) ∨
  (w.queue.halted = none ∧ w.queue.main.joining = true ∧ w.queue.submit = .returned ∧
    (cfg.showingProgress = true → w.queue.progress = .returned))

/-- Across every interleaving of the threads, each error that was recorded has its message in exactly
one place, and `showProgress` writes the messages of the vector in the order they were put in. At the
end of a session every message is written if no progress is shown, and all but at most one if it is:
the progress thread may take the vector for the last time before the submit thread, which has
deleted its last runner, passes on the error of it. -/
theorem messages_delivered (h : (system cfg).Reachable w) :
    w.queue.recorded.map Error.humanFriendlyErrorMessage ~ w.printed ++ w.shown ++ w.unwritten ∧
      w.shown <+: w.pushed ∧
      (Ending cfg w →
        w.unwritten.length ≤ 1 ∧ (cfg.showingProgress = false → w.unwritten = [])) := by
  have hkept := reachable_kept h
  refine ⟨?_, ?_, ?_⟩
  · refine hkept.recorded.trans (.of_eq ?_)
    rw [hkept.pushed]
    simp only [unwritten, append_assoc]
  · rw [hkept.pushed]
    exact prefix_append _ _
  · rintro (⟨errored, hexit⟩ | ⟨hrun, hm, hsub, hprog⟩)
    · exact unwritten_of_exit h hexit
    · exact unwritten_of_join h hrun hm hsub hprog

/-- The source of the only job cannot be opened. The progress thread takes the vector for the last
time after the runner was deleted, and the error is recorded after that. -/
def lateMessageSteps : List ReportLabel := flatten [
  (addJobSteps (smallJob 8) openRefused (opensAs 2)).map .queue, [.queue .start, .setShowing],
  (flatten [[Label.join .exitProcessNoCleanup, .main .tick], ticks 9, [.submit openRefused], ticks 2,
    [.submit (.closed (.ok ()))], ticks 1, [.submit (.closed (.ok ()))], ticks 3,
    [.progress]]).map .queue,
  [.take, .write, .queue (.submit .tick), .passSubmit, .queue .progress]]

theorem messages_delivered_late : ∃ w, (system progressConfig).Reachable w ∧
    Ending progressConfig w ∧ w.unwritten.length = 1 ∧
    w.queue.recorded.map Error.humanFriendlyErrorMessage ~ w.unwritten := by
  obtain ⟨w, hw, hp⟩ := Transition.System.Reachable.exists_of_run (S := system progressConfig)
    ⟨smallStorage 8, rfl⟩ lateMessageSteps
    (fun w => decide (w.queue.halted = some (.exit true) ∧ w.printed = [] ∧ w.shown = [] ∧
      w.unwritten.length = 1)) (by decide +kernel)
  obtain ⟨hexit, hprinted, hshown, hlen⟩ := of_decide_eq_true hp
  obtain ⟨hrec, -, hend⟩ := messages_delivered hw
  rw [hprinted, hshown] at hrec
  exact ⟨w, hw, .inl ⟨true, hexit⟩, hlen, hrec⟩

end Reporting

end Wcp
