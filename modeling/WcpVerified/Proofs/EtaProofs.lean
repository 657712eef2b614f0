import WcpVerified.Proofs.ErrorProofs

/-!
# Proofs: the copies that the ETA calculator counts as remaining

`addCopyJobPart` counts a copy before its runner exists, and `onCopyCompleted` discounts it before
the runner is destroyed. A runner that is destroyed on another path than the one of finished runners
is never discounted.
-/

namespace Wcp

open MachineWord

/-- One for the copies that the ETA calculator counts in a class. -/
def countsAs : (big : Bool) → (size : ℕ) → ℕ
  | true, size => if BIG_FILE_SIZE < size then 1 else 0
  | false, size => if BIG_FILE_SIZE < size then 0 else 1

/-- The copy that was counted and whose runner is not constructed yet. -/
def MainPc.arriving (big : Bool) : MainPc → ℕ
  | .part _ _ p .push => countsAs big p.size
  | _ => 0

/-- The copy that was discounted and whose runner is not destroyed yet. -/
def SubmitPc.leaving (runners : Store CopyRunner) (big : Bool) : SubmitPc → ℕ
  | .deleting r .completion => (runners.get? r).elim 0 fun x => countsAs big x.size
  | _ => 0

namespace CopyQueue

variable {cfg : Config} {s s' : State} {l : Label}

/-- `bigCopiesRemaining` or `smallCopiesRemaining`. -/
def remaining (s : State) : Bool → ℕ
  | true => s.bigCopiesRemaining
  | false => s.smallCopiesRemaining

/-- The number of runners of a class. -/
def liveCopies (runners : Store CopyRunner) (big : Bool) : ℕ :=
  runners.sum fun _ x => countsAs big x.size

/-- The step does not go on with the removal of a runner that `onCopyCompleted` is not told of: one
that saved an error, one whose files could not be opened, or the one of an empty file. -/
structure LeavesFinished (s : State) (l : Label) : Prop where
  error : ∀ r e, l = .submit .tick → s.submit ≠ .recording e (.completion r)
  addFailed : ∀ r n e, l = .submit .tick → s.submit ≠ .deleting r (.addFailed n e)
  emptyFile : ∀ r n, l = .submit .tick → s.submit ≠ .deleting r (.emptyFile n)

/-- Every copy that is counted as remaining is a runner, or will be one. -/
def Remaining (s : State) : Prop :=
  ∀ big, remaining s big + s.submit.leaving s.runners big =
    liveCopies s.runners big + s.main.arriving big

theorem liveCopies_modify {runners : Store CopyRunner} {r : ℕ} {g : CopyRunner → CopyRunner}
    (hg : ∀ x, (g x).size = x.size) (big : Bool) :
    liveCopies (runners.modify r g) big = liveCopies runners big :=
  Store.sum_modify_eq fun x _ => by rw [hg x]

/-- Nothing that is counted changes. -/
theorem Remaining.of_eq (h : Remaining s) (hc : ∀ big, remaining s' big = remaining s big)
    (hr : ∀ big, liveCopies s'.runners big = liveCopies s.runners big)
    (hm : ∀ big, s'.main.arriving big = s.main.arriving big)
    (hl : ∀ big, s'.submit.leaving s'.runners big = s.submit.leaving s.runners big) :
    Remaining s' := by
  intro big
  rw [hc, hr, hm, hl]
  exact h big

theorem leaving_of_hand {pc : SubmitPc} {runners : Store CopyRunner} (h : pc.hand = none)
    (big : Bool) : pc.leaving runners big = 0 := by
  unfold SubmitPc.leaving
  split
  · cases h
  · rfl

theorem leaving_afterClose (caller : CloseCaller) (r : ℕ) (result : Option Error)
    (runners : Store CopyRunner) (big : Bool) :
    (afterClose caller r result).leaving runners big = 0 := by
  cases caller <;> cases result <;> rfl

/-- The runner at hand is destroyed. -/
theorem Remaining.delete (h : Remaining s) (hleave : LeavesFinished s (.submit .tick)) {r : ℕ}
    {caller : DeleteCaller} {x : CopyRunner} (hp : s.submit = .deleting r caller)
    (hr : s.runners.get? r = some x) (hc : ∀ big, remaining s' big = remaining s big)
    (hm : s'.main = s.main) (hr' : s'.runners = s.runners.erase r)
    (hp' : s'.submit = afterDelete caller) : Remaining s' := by
  intro big
  have hbig := h big
  have hsum : liveCopies (s.runners.erase r) big + countsAs big x.size = liveCopies s.runners big :=
    Store.sum_erase hr
  have hl : s.submit.leaving s.runners big = countsAs big x.size := by
    cases caller with
    | completion => rw [hp, SubmitPc.leaving, hr, Option.elim_some]
    | addFailed n e => exact absurd hp (hleave.addFailed r n e rfl)
    | emptyFile n => exact absurd hp (hleave.emptyFile r n rfl)
  rw [hc, hm, hr', hp', leaving_of_hand (afterDelete_hand caller)]
  omega

theorem remaining_initial (storage : Storage) : Remaining (initial cfg storage) := by
  intro big
  have : liveCopies (initial cfg storage).runners big = 0 := Store.sum_empty
  rw [this]
  cases big <;> rfl

theorem remaining_move (hm : Move cfg s l s') (hleave : LeavesFinished s l) (ht : Threads cfg s)
    (ho : State.Owned s) (h : Remaining s) : Remaining s' := by
  cases hm with
  | start hm hs =>
    refine h.of_eq (fun big => by cases big <;> rfl) (fun _ => rfl) (fun _ => rfl) fun big => ?_
    exact (leaving_of_hand (hand_of_not_alive (ht.idle hs)) big).symm
  | partTotal hm =>
    exact h.of_eq (fun big => by cases big <;> rfl) (fun _ => rfl) (fun _ => by rw [hm]; rfl)
      fun _ => rfl
  | @partEta f job p hm =>
    intro big
    have hbig := h big
    rw [hm] at hbig
    simp only [partStep, MainPc.arriving] at hbig ⊢
    cases big <;> simp only [remaining, countsAs] at hbig ⊢ <;> split <;> omega
  | @partPush f job p hm =>
    intro big
    have hbig := h big
    rw [hm] at hbig
    have hsum : liveCopies (s.runners.push (.create f p.offset p.size p.alignment)) big =
        liveCopies s.runners big + countsAs big p.size := Store.sum_push
    have hl : s.submit.leaving (s.runners.push (.create f p.offset p.size p.alignment)) big =
        s.submit.leaving s.runners big := by
      unfold SubmitPc.leaving
      split
      · rename_i r heq
        obtain ⟨x, hx⟩ := ho.live r (by simp [heq, SubmitPc.hand])
        rw [Store.get?_push_of_some hx, hx]
      · rfl
    have hmain : (if p.offset + p.size = job.stxSize then MainPc.ready else
        .part f job (partAt cfg.heap job (p.offset + p.size)) .total).arriving big = 0 := by
      split <;> rfl
    have hcount : remaining (partStep cfg f job p .push s) big = remaining s big := by
      cases big <;> rfl
    rw [hcount]
    simp only [partStep, hmain, hsum, hl]
    exact hbig
  | joinFinish hm =>
    refine h.of_eq (fun big => by cases big <;> rfl) (fun _ => rfl) (fun big => ?_) fun _ => rfl
    rcases hm with hm | ⟨hm, -⟩ <;> rw [hm] <;> rfl
  | takeGive hp =>
    exact h.of_eq (fun big => by cases big <;> rfl) (liveCopies_modify fun _ => rfl)
      (fun _ => rfl) fun _ => by rw [hp]; rfl
  | @ensured n r side x f hp =>
    refine h.of_eq (fun big => by cases big <;> rfl) (fun _ => rfl) (fun _ => rfl) fun _ => ?_
    rw [hp]
    simp only [afterEnsure]
    split
    · rfl
    · split <;> rfl
  | ensureFailed hp =>
    refine h.of_eq (fun big => by cases big <;> rfl) (fun _ => rfl) (fun _ => rfl) fun _ => ?_
    rw [hp]
    simp only [afterEnsureFailed]
    split <;> rfl
  | batch hp =>
    exact h.of_eq (fun big => by cases big <;> rfl) (liveCopies_modify fun _ => rfl)
      (fun _ => rfl) fun _ => by rw [hp]; rfl
  | closeNone hp =>
    refine h.of_eq (fun big => by cases big <;> rfl) (fun _ => rfl) (fun _ => rfl) fun _ => ?_
    rw [hp, leaving_afterClose]
    rfl
  | @closeNext caller r side result hp =>
    refine h.of_eq (fun big => by cases big <;> rfl) (fun _ => rfl) (fun _ => rfl) fun big => ?_
    have hnext : (closeNext caller r side result).leaving s.runners big = 0 := by
      cases side
      · rfl
      · exact leaving_afterClose caller r result s.runners big
    rw [hp]
    exact hnext
  | @record e caller hp =>
    refine h.of_eq (fun big => by cases big <;> rfl) (fun _ => rfl) (fun _ => rfl) fun _ => ?_
    rw [hp]
    cases caller with
    | completion r => exact absurd hp (hleave.error r e rfl)
    | finished | addFailed | emptyFile => rfl
  | @finish r x f hp hr =>
    intro big
    have hbig := h big
    have hlive : countsAs big x.size ≤ liveCopies s.runners big :=
      Store.le_sum (f := fun _ x => countsAs big x.size) hr
    have hnone : s.submit.leaving s.runners big = 0 := by rw [hp]; rfl
    rw [hnone] at hbig
    simp only [SubmitPc.leaving, hr, Option.elim_some]
    by_cases hx : BIG_FILE_SIZE < x.size
    · cases big with
      | true =>
        simp only [remaining, countsAs, if_pos hx] at hbig hlive ⊢
        rw [decU64_of_pos (by omega)]
        omega
      | false =>
        simp only [remaining, countsAs, if_pos hx] at hbig ⊢
        exact hbig
    · cases big with
      | true =>
        simp only [remaining, countsAs, if_neg hx] at hbig ⊢
        exact hbig
      | false =>
        simp only [remaining, countsAs, if_neg hx] at hbig hlive ⊢
        rw [decU64_of_pos (by omega)]
        omega
  | deleteShared hp hr =>
    exact h.delete hleave hp hr (fun big => by cases big <;> rfl) rfl rfl rfl
  | deleteLast hp hr =>
    exact h.delete hleave hp hr (fun big => by cases big <;> rfl) rfl rfl rfl
  | completion hp hc hr hf hy =>
    refine h.of_eq (fun big => by cases big <;> rfl)
      (liveCopies_modify fun _ => CopyRunner.onCompletionEvent_same.size) (fun _ => rfl)
      fun _ => ?_
    rw [hp]
    dsimp only
    split <;> rfl
  | @event r x f hp =>
    refine h.of_eq (fun big => by cases big <;> rfl) (fun _ => rfl) (fun _ => rfl) fun _ => ?_
    rw [hp]
    cases x.runnerResult <;> rfl
  | _ =>
    first
    | exact h.of_eq (fun big => by cases big <;> rfl) (fun _ => rfl) (fun _ => rfl) fun _ => rfl
    | (have hp := ‹s.submit = _›
       exact h.of_eq (fun big => by cases big <;> rfl) (fun _ => rfl) (fun _ => rfl)
         fun _ => by rw [hp]; rfl)
    | (have hm := ‹s.main = _›
       exact h.of_eq (fun big => by cases big <;> rfl) (fun _ => rfl) (fun _ => by rw [hm]; rfl)
         fun _ => rfl)

/-- In the runs that tell `onCopyCompleted` of every runner, the counts are right. -/
theorem reachIn_remaining (h : (system cfg).ReachIn LeavesFinished s) : Remaining s := by
  refine h.invariant ?_ fun s l s' hr hs hok hstep => remaining_move (step_move hstep).2 hok
    (reachable_threads hr) (reachable_owned hr).1 hs
  rintro s ⟨storage, rfl⟩
  exact remaining_initial storage

/-- Without runners, and with none to come, nothing is counted. -/
theorem remaining_of_isDone (h : Remaining s) (ht : Threads cfg s)
    (hc : Counts s) (hd : isDone s = true) (big : Bool) : remaining s big = 0 := by
  have hbig := h big
  have hnone := hc.none_of_isDone hd
  have hlive : liveCopies s.runners big = 0 := Store.sum_eq_zero fun r x hx => by
    rw [hnone r] at hx
    cases hx
  have hmain : s.main.arriving big = 0 := by
    have hj := ht.joining
    rw [(isDone_iff.mp hd).1] at hj
    cases hmain : s.main with
    | part => rw [hmain] at hj; cases hj
    | ready | ctor | joinAction | joinSubmit | joinProgress => rfl
  omega

/-- In the runs in which every runner that is destroyed has finished its copy: at the top of the
outer loop, with no part being added, the two counters are the numbers of big and of small runners;
no decrement wraps; both are zero when the queue is done, and when `join` returns. -/
theorem remaining_counts_exact (h : (system cfg).ReachIn LeavesFinished s) :
    (s.submit = .top → (∀ f job p stage, s.main ≠ .part f job p stage) →
      s.bigCopiesRemaining = liveCopies s.runners true ∧
      s.smallCopiesRemaining = liveCopies s.runners false) ∧
    (∀ r x, s.submit = .finishing r → s.runners.get? r = some x →
      0 < if BIG_FILE_SIZE < x.size then s.bigCopiesRemaining else s.smallCopiesRemaining) ∧
    (isDone s = true → s.bigCopiesRemaining = 0 ∧ s.smallCopiesRemaining = 0) ∧
    ∀ l s', step cfg s l = some s' → s'.joined ≠ s.joined →
      s'.bigCopiesRemaining = 0 ∧ s'.smallCopiesRemaining = 0 := by
  have hrem := reachIn_remaining h
  have hdone : isDone s = true → s.bigCopiesRemaining = 0 ∧ s.smallCopiesRemaining = 0 := by
    intro hd
    have hz := remaining_of_isDone hrem (reachable_threads h)
      (reachable_owned h).2 hd
    exact ⟨hz true, hz false⟩
  refine ⟨fun hp hm => ?_, fun r x hp hr => ?_, hdone, fun l s' hstep hne => ?_⟩
  · have hmain : ∀ big, s.main.arriving big = 0 := by
      intro big
      cases hmain : s.main with
      | part f job p stage => exact absurd hmain (hm f job p stage)
      | ready | ctor | joinAction | joinSubmit | joinProgress => rfl
    have hleave : ∀ big, s.submit.leaving s.runners big = 0 := by
      intro big
      rw [hp]
      rfl
    have htrue := hrem true
    have hfalse := hrem false
    rw [hmain, hleave] at htrue hfalse
    exact ⟨htrue, hfalse⟩
  · have hlive : ∀ big, countsAs big x.size ≤ liveCopies s.runners big :=
      fun big => Store.le_sum (f := fun _ x => countsAs big x.size) hr
    have hleave : ∀ big, s.submit.leaving s.runners big = 0 := by
      intro big
      rw [hp]
      rfl
    split
    · rename_i hx
      have hbig := hrem true
      have hle := hlive true
      simp only [countsAs, if_pos hx] at hle
      simp only [hleave, remaining] at hbig
      omega
    · rename_i hx
      have hsmall := hrem false
      have hle := hlive false
      simp only [countsAs, if_neg hx] at hle
      simp only [hleave, remaining] at hsmall
      omega
  · have hm := (step_move hstep).2
    cases hm with
    | joinFinish hm hp => exact hdone (isDone_of_joinFinish (reachable_threads h) hm hp)
    | _ => exact absurd rfl hne

/-- A check that implies `LeavesFinished`. -/
def leavesFinishedCheck (s : State) (_ : Label) : Bool :=
  match s.submit with
  | .recording _ (.completion _) | .deleting _ (.addFailed _ _) | .deleting _ (.emptyFile _) => false
  | _ => true

theorem leavesFinished_of_check (s : State) (l : Label) (h : leavesFinishedCheck s l = true) :
    LeavesFinished s l := by
  unfold leavesFinishedCheck at h
  refine ⟨fun r e _ hp => ?_, fun r n e _ hp => ?_, fun r n _ hp => ?_⟩ <;> rw [hp] at h <;> cases h

theorem remaining_counts_exact_wholeCopy :
    (∃ s, (system smallConfig).ReachIn LeavesFinished s ∧ s.submit = .top ∧
      s.smallCopiesRemaining = liveCopies s.runners false ∧ s.smallCopiesRemaining = 1) ∧
    ∃ s, (system smallConfig).ReachIn LeavesFinished s ∧ isDone s = true ∧
      s.smallCopiesRemaining = 0 := by
  constructor
  · obtain ⟨s, hs, hp⟩ := Transition.System.ReachIn.exists_of_runIn leavesFinished_of_check
      (initial_init smallConfig (smallStorage 8)) inFlightSteps
      (fun s => decide (s.submit = .top ∧ s.main = .joinAction .return ∧
        s.smallCopiesRemaining = 1)) (by decide +kernel)
    obtain ⟨hpc, hm, hone⟩ := of_decide_eq_true hp
    exact ⟨s, hs, hpc, ((remaining_counts_exact hs).1 hpc (by rw [hm]; nofun)).2, hone⟩
  · obtain ⟨s, hs, hp⟩ := Transition.System.ReachIn.exists_of_runIn leavesFinished_of_check
      (initial_init smallConfig (smallStorage 8)) (List.flatten [wholeCopySteps, ticks 3])
      (fun s => isDone s) (by decide +kernel)
    exact ⟨s, hs, hp, ((remaining_counts_exact hs).2.2.1 hp).2⟩

/-- An empty file is copied. -/
def emptyCopySteps : List Label := List.flatten [
  addJobSteps (smallJob 0) (opensAs 1) (opensAs 2), [.start, .join .return], ticks 9,
  [.submit (.closed (.ok ()))], ticks 2, [.submit (.closed (.ok ()))], ticks 6]

theorem empty_copy_stays_counted : ∃ s, (system smallConfig).Reachable s ∧ isDone s = true ∧
    s.submit = .checkDone ∧ s.errored = false ∧ s.smallCopiesRemaining = 1 ∧
    s.smallCopiesRemaining ≠ liveCopies s.runners false := by
  obtain ⟨s, hs, hp⟩ := exists_of_run smallConfig (smallStorage 0) emptyCopySteps
    (fun s => decide (isDone s = true ∧ s.submit = .checkDone ∧ s.errored = false ∧
      s.smallCopiesRemaining = 1 ∧ s.smallCopiesRemaining ≠ liveCopies s.runners false))
    (by decide +kernel)
  exact ⟨s, hs, of_decide_eq_true hp⟩

end CopyQueue

end Wcp
