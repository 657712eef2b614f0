import WcpVerified.ShowProgress
import WcpVerified.Proofs.ErrorProofs

/-!
# Proofs: the counters of bytes

`totalBytesCopied` is what the runners have written and `totalBytesToCopy` what they are to write,
summed over the runners alive and those destroyed since the last `join`. Hence what the progress
thread computes from them never wraps, although it reads them at different moments.
-/

namespace Wcp

/-- What `addCopyJobPart` has added to `totalBytesToCopy` for a runner that does not exist yet. -/
def MainPc.announced : MainPc → ℕ
  | .part _ _ p .eta | .part _ _ p .push => p.size
  | _ => 0

/-- The submit thread is handling a file that could not be opened, and that is not empty. -/
def SubmitPc.addFailing : SubmitPc → Bool
  | .closing (.addFailed _ _) _ _ _ | .deleting _ (.addFailed _ _) => true
  | .recording _ (.addFailed _) | .ensure _ _ _ (.failed _) => true
  | _ => false

/-- What is known of the runner at hand on the way to its destruction. -/
def SubmitPc.Ends (errored : Bool) (x : CopyRunner) : SubmitPc → Prop
  | .closing .finished _ _ _ | .recording _ (.finished _) | .finishing _ =>
    x.writeOffset = x.chunkEnd
  | .deleting _ .completion => x.writeOffset = x.chunkEnd ∨ errored = true
  | _ => True

/-- What a runner has written. -/
def CopyRunner.copied (x : CopyRunner) : ℕ := x.writeOffset - x.offset

theorem CopyRunner.writeOffset_le_onCompletionEvent {strerror : Errno → List Char}
    {modes : DebugModes} {src dst : Path} {ev : EventType} {res : ℤ} (x : CopyRunner) :
    x.writeOffset ≤ (x.onCompletionEvent strerror modes src dst ev res).writeOffset := by
  cases ev with
  | read => exact onCompletionEvent_read_writeOffset.ge
  | write =>
    rcases onCompletionEvent_write strerror modes src dst x res with h | ⟨w, h, -⟩ <;> omega

namespace CopyQueue

variable {cfg : Config} {s s' : State} {l : Label}

/-- The sum of a quantity over the runners created since the last `join`. -/
def total (f : CopyRunner → ℕ) (s : State) : ℕ :=
  s.runners.sum (fun _ => f) + (s.destroyed.map f).sum

/-- The counters of bytes are right. -/
structure Totals (s : State) : Prop where
  copied : s.totalBytesCopied = total CopyRunner.copied s
  toCopy : s.totalBytesToCopy = total CopyRunner.size s + s.main.announced
  destroyed : ∀ x ∈ s.destroyed, x.offset ≤ x.writeOffset ∧ x.writeOffset ≤ x.chunkEnd

/-! ## One step -/

theorem total_erase {f : CopyRunner → ℕ} {r : ℕ} {x : CopyRunner} (hr : s.runners.get? r = some x)
    (hr' : s'.runners = s.runners.erase r) (hd : s'.destroyed = s.destroyed ++ [x]) :
    total f s' = total f s := by
  have herase : (s.runners.erase r).sum (fun _ => f) + f x = s.runners.sum (fun _ => f) :=
    Store.sum_erase hr
  rw [total, total, hr', hd, List.map_append, List.sum_append, List.map_singleton,
    List.sum_singleton]
  omega

theorem total_modify {f : CopyRunner → ℕ} {r : ℕ} {g : CopyRunner → CopyRunner}
    (hg : ∀ x, f (g x) = f x) (hr' : s'.runners = s.runners.modify r g)
    (hd : s'.destroyed = s.destroyed) : total f s' = total f s := by
  rw [total, total, hr', hd, Store.sum_modify_eq fun x _ => hg x]

/-- The runners, the counters and what is announced stay. -/
theorem Totals.of_eq (h : Totals s) (hr : s'.runners = s.runners) (hd : s'.destroyed = s.destroyed)
    (hc : s'.totalBytesCopied = s.totalBytesCopied) (ht : s'.totalBytesToCopy = s.totalBytesToCopy)
    (hm : s'.main.announced = s.main.announced) : Totals s' where
  copied := by rw [hc, h.copied, total, total, hr, hd]
  toCopy := by rw [ht, h.toCopy, hm, total, total, hr, hd]
  destroyed := by rw [hd]; exact h.destroyed

/-- A runner changes, and keeps its size. -/
theorem Totals.modify (h : Totals s) {r : ℕ} {g : CopyRunner → CopyRunner}
    (hr : s'.runners = s.runners.modify r g) (hg : ∀ x, (g x).size = x.size)
    (hd : s'.destroyed = s.destroyed) (ht : s'.totalBytesToCopy = s.totalBytesToCopy)
    (hm : s'.main = s.main) (hc : s'.totalBytesCopied = total CopyRunner.copied s') : Totals s' where
  copied := hc
  toCopy := by rw [ht, h.toCopy, hm, total_modify hg hr hd]
  destroyed := by rw [hd]; exact h.destroyed

theorem Totals.delete (h : Totals s) (hring : State.Ring s) {r : ℕ} {x : CopyRunner}
    (hr : s.runners.get? r = some x) (hr' : s'.runners = s.runners.erase r)
    (hd : s'.destroyed = s.destroyed ++ [x]) (hc : s'.totalBytesCopied = s.totalBytesCopied)
    (ht : s'.totalBytesToCopy = s.totalBytesToCopy) (hm : s'.main = s.main) : Totals s' where
  copied := by rw [hc, h.copied, total_erase hr hr' hd]
  toCopy := by rw [ht, h.toCopy, hm, total_erase hr hr' hd]
  destroyed := by
    intro y hy
    rw [hd, List.mem_append, List.mem_singleton] at hy
    rcases hy with hy | rfl
    · exact h.destroyed y hy
    · exact hring.written r y hr

theorem totals_initial (storage : Storage) : Totals (initial cfg storage) where
  copied := (Nat.add_eq_zero_iff.mpr ⟨Store.sum_empty, rfl⟩).symm
  toCopy := (Nat.add_eq_zero_iff.mpr
    ⟨Nat.add_eq_zero_iff.mpr ⟨Store.sum_empty, rfl⟩, rfl⟩).symm
  destroyed _ hx := absurd hx List.not_mem_nil

theorem totals_move (hm : Move cfg s l s') (ht : Threads cfg s) (hc : Counts s)
    (hring : State.Ring s) (h : Totals s) : Totals s' := by
  cases hm with
  | @partTotal f job p hm =>
    refine ⟨h.copied, ?_, h.destroyed⟩
    have htotal := h.toCopy
    rw [hm] at htotal
    show s.totalBytesToCopy + p.size = total CopyRunner.size s + p.size
    rw [htotal]
    rfl
  | partEta hm =>
    refine ⟨h.copied, ?_, h.destroyed⟩
    have htotal := h.toCopy
    rw [hm] at htotal
    exact htotal
  | @partPush f job p hm =>
    have htotal := h.toCopy
    have hcopied := h.copied
    rw [hm] at htotal
    have hpush : ∀ g : CopyRunner → ℕ, total g (partStep cfg f job p .push s) =
        total g s + g (.create f p.offset p.size p.alignment) := by
      intro g
      simp only [total, partStep, Store.sum_push]
      omega
    have hmain : (partStep cfg f job p .push s).main.announced = 0 := by
      simp only [partStep]
      split <;> rfl
    refine ⟨?_, ?_, h.destroyed⟩
    · rw [hpush]
      simp only [CopyRunner.copied, CopyRunner.create, Nat.sub_self, Nat.add_zero]
      exact hcopied
    · rw [hpush, hmain]
      exact htotal
  | joinFinish hm hp =>
    have hnone := hc.none_of_isDone (isDone_of_joinFinish ht hm hp)
    have hzero : ∀ g : CopyRunner → ℕ, total g (finishJoin s) = 0 := by
      intro g
      refine Nat.add_eq_zero_iff.mpr ⟨Store.sum_eq_zero fun r x hx => ?_, rfl⟩
      have hx : s.runners.get? r = some x := hx
      rw [hnone r] at hx
      cases hx
    exact ⟨(hzero _).symm, (hzero _).symm, fun x hx => absurd hx List.not_mem_nil⟩
  | takeGive hp =>
    refine h.modify rfl (fun _ => rfl) rfl rfl rfl ?_
    refine h.copied.trans (Eq.symm ?_)
    exact total_modify (fun _ => by rfl) rfl rfl
  | batch hp =>
    refine h.modify rfl (fun _ => rfl) rfl rfl rfl ?_
    refine h.copied.trans (Eq.symm ?_)
    exact total_modify (fun _ => by rfl) rfl rfl
  | @completion i c x y f hp hi hr hf hy =>
    have hsame : x.SameChunk y := hy ▸ CopyRunner.onCompletionEvent_same
    have hle : x.writeOffset ≤ y.writeOffset := hy ▸ x.writeOffset_le_onCompletionEvent
    have hge := (hring.written c.runner x hr).1
    refine h.modify rfl (fun _ => CopyRunner.onCompletionEvent_same.size) rfl rfl rfl ?_
    have hsum : (s.runners.modify c.runner fun x => x.onCompletionEvent cfg.strerror cfg.modes
        f.sourceFd.path f.destFd.path c.event c.res).sum (fun _ => CopyRunner.copied) + x.copied =
        s.runners.sum (fun _ => CopyRunner.copied) + y.copied := by
      rw [hy]
      exact Store.sum_modify hr
    have hcopied := h.copied
    have hoff := hsame.offset
    simp only [total, CopyRunner.copied] at hsum hcopied ⊢
    omega
  | deleteShared hp hr => exact h.delete hring hr rfl rfl rfl rfl rfl
  | deleteLast hp hr => exact h.delete hring hr rfl rfl rfl rfl rfl
  | _ =>
    first
    | exact h.of_eq rfl rfl rfl rfl rfl
    | (have hm := ‹s.main = _›
       exact h.of_eq rfl rfl rfl rfl (by rw [hm]; rfl))

theorem reachable_totals {ok : State → Label → Prop} (h : (system cfg).ReachIn ok s) :
    Totals s := by
  refine h.invariant ?_ fun s l s' hr hs _ hstep => totals_move (step_move hstep).2
    (reachable_threads hr) (reachable_owned hr).2 (reachable_ring hr) hs
  rintro s ⟨storage, rfl⟩
  exact totals_initial storage

/-- Nothing is copied that was not to be copied. -/
theorem Totals.copied_le (h : Totals s) (hring : State.Ring s) :
    s.totalBytesCopied ≤ s.totalBytesToCopy := by
  have hlive : s.runners.sum (fun _ => CopyRunner.copied) ≤ s.runners.sum fun _ => CopyRunner.size := by
    refine Store.sum_le_sum fun r x hx => ?_
    have := hring.written r x hx
    simp only [CopyRunner.copied, CopyRunner.chunkEnd] at *
    omega
  have hgone : (s.destroyed.map CopyRunner.copied).sum ≤ (s.destroyed.map CopyRunner.size).sum := by
    refine List.sum_le_sum fun x hx => ?_
    have := h.destroyed x hx
    simp only [CopyRunner.copied, CopyRunner.chunkEnd] at *
    omega
  rw [h.copied, h.toCopy, total, total]
  omega

/-- Until `join` resets it, the counter never decreases. -/
theorem copied_le_move (hm : Move cfg s l s') (hj : s'.joined = s.joined) :
    s.totalBytesCopied ≤ s'.totalBytesCopied := by
  cases hm with
  | completion => exact Nat.le_add_right _ _
  | joinFinish => simp [finishJoin] at hj
  | _ => exact le_rfl

/-! ## What the destroyed runners have written -/

/-- Every runner that was destroyed had written its chunk, or an error was recorded or is about to
be. -/
structure Complete (s : State) : Prop where
  hand : ∀ r x, s.submit.hand = some r → s.runners.get? r = some x → s.submit.Ends s.errored x
  failing : s.submit.addFailing = true → s.failed = true
  gone : ∀ x ∈ s.destroyed, x.writeOffset = x.chunkEnd ∨ s.errored = true ∨
    s.failed = true ∧ ∃ e n, s.submit = .recording e (.addFailed n)

theorem ends_afterClose {errored : Bool} {x : CopyRunner} {caller : CloseCaller} {r : ℕ}
    {stage : CloseStage} {result : Option Error}
    (h : (SubmitPc.closing caller r stage result).Ends errored x) :
    (afterClose caller r result).Ends errored x := by
  cases caller <;> cases result <;> exact h

theorem addFailing_afterClose {caller : CloseCaller} {r : ℕ} {stage : CloseStage}
    {result : Option Error} (h : (afterClose caller r result).addFailing = true) :
    (SubmitPc.closing caller r stage result).addFailing = true := by
  cases caller <;> cases result <;> exact h

theorem addFailing_of_not_alive {pc : SubmitPc} (h : pc.alive = false) : pc.addFailing = false := by
  cases pc <;> first | rfl | cases h

/-- A step of the submit thread with the same runner at hand, or none. -/
theorem Complete.of_submit (h : Complete s) (hd : s'.destroyed = s.destroyed)
    (he : s'.errored = s.errored) (hno : ∀ e n, s.submit ≠ .recording e (.addFailed n))
    (hhand : ∀ r x, s'.submit.hand = some r → s'.runners.get? r = some x →
      s'.submit.Ends s'.errored x)
    (hfail : s'.submit.addFailing = true → s'.failed = true) : Complete s' where
  hand := hhand
  failing := hfail
  gone x hx := by
    rw [hd] at hx
    rcases h.gone x hx with hw | herr | ⟨-, e, n, hp⟩
    · exact .inl hw
    · exact .inr (.inl (he ▸ herr))
    · exact absurd hp (hno e n)

/-- A step inside `handleFileClose`. -/
theorem Complete.of_closing (h : Complete s) {caller : CloseCaller} {r : ℕ}
    {stage stage' : CloseStage} {result result' : Option Error}
    (hp : s.submit = .closing caller r stage result)
    (hp' : s'.submit = .closing caller r stage' result') (hr : s'.runners = s.runners)
    (hd : s'.destroyed = s.destroyed) (he : s'.errored = s.errored)
    (hf : s.failed = true → s'.failed = true) : Complete s' := by
  refine h.of_submit hd he (by rw [hp]; nofun) (fun j y hj hy => ?_) fun hc => ?_
  · rw [hp'] at hj
    rw [hr] at hy
    have hends := h.hand j y (by rw [hp]; exact hj) hy
    rw [hp] at hends
    rw [hp', he]
    cases caller <;> exact hends
  · refine hf (h.failing ?_)
    rw [hp'] at hc
    rw [hp]
    cases caller <;> exact hc

/-- A step of another thread. -/
theorem Complete.of_other (h : Complete s) (hp : s'.submit = s.submit)
    (hd : s'.destroyed = s.destroyed) (he : s.errored = true → s'.errored = true)
    (hf : s.failed = true → s'.failed = true)
    (hr : ∀ r x, s.submit.hand = some r → s'.runners.get? r = some x →
      s.runners.get? r = some x) : Complete s' where
  hand r x hh hx := by
    rw [hp] at hh ⊢
    have hends := h.hand r x hh (hr r x hh hx)
    unfold SubmitPc.Ends at hends ⊢
    split at hends
    · exact hends
    · exact hends
    · exact hends
    · exact hends.imp_right he
    · exact trivial
  failing hc := hf (h.failing (hp ▸ hc))
  gone x hx := by
    rw [hd] at hx
    rw [hp]
    exact (h.gone x hx).imp_right (Or.imp he fun hc => ⟨hf hc.1, hc.2⟩)

/-- The runner at hand is destroyed. -/
theorem Complete.delete (h : Complete s) (hring : State.Ring s) (hhandled : Handled s) {r : ℕ}
    {caller : DeleteCaller} {x : CopyRunner} {f : JobFiles} (hp : s.submit = .deleting r caller)
    (hr : s.runners.get? r = some x) (hf : s.files.get? x.file = some f)
    (hd : s'.destroyed = s.destroyed ++ [x]) (hp' : s'.submit = afterDelete caller)
    (he : s'.errored = s.errored) (hfail : s.failed = true → s'.failed = true) : Complete s' := by
  have hhand : s.submit.hand = some r := by rw [hp]; rfl
  have hfailing : ∀ n e, caller = .addFailed n e → s'.failed = true := by
    rintro n e rfl
    exact hfail (h.failing (by rw [hp]; rfl))
  refine ⟨fun j y hj => ?_, fun hc => ?_, fun y hy => ?_⟩
  · rw [hp', afterDelete_hand] at hj
    cases hj
  · cases caller with
    | addFailed n e => exact hfailing n e rfl
    | completion | emptyFile => rw [hp'] at hc; cases hc
  · rw [hd, List.mem_append, List.mem_singleton] at hy
    rcases hy with hy | rfl
    · rcases h.gone y hy with hw | herr | ⟨-, e, n, hc⟩
      · exact .inl hw
      · exact .inr (.inl (he ▸ herr))
      · rw [hp] at hc
        cases hc
    · cases caller with
      | completion =>
        have hends := h.hand r y hhand hr
        rw [hp] at hends
        exact hends.imp_right fun herr => .inl (he ▸ herr)
      | addFailed n e => exact .inr (.inr ⟨hfailing n e rfl, e, n, hp'⟩)
      | emptyFile n =>
        have hclean := hhandled r y f hhand hr hf
        rw [hp] at hclean
        have hw := hring.written r y hr
        have hsize : y.size = 0 := hclean.2.1
        left
        simp only [CopyRunner.chunkEnd] at hw ⊢
        omega

theorem complete_initial (storage : Storage) : Complete (initial cfg storage) where
  hand r x hh := by cases hh
  failing hc := by cases hc
  gone x hx := absurd hx List.not_mem_nil

theorem runnerResult_written {x : CopyRunner} (h : x.runnerResult = .finished) :
    x.writeOffset = x.chunkEnd := by
  unfold CopyRunner.runnerResult at h
  split at h
  · split at h
    · cases h
    · split at h
      · assumption
      · cases h
  · cases h

theorem complete_move (hm : Move cfg s l s') (ht : Threads cfg s) (ho : State.Owned s)
    (hring : State.Ring s) (hhandled : Handled s) (h : Complete s) : Complete s' := by
  -- the runner at hand is live, so a runner that is added is another one
  have hlive : ∀ r, s.submit.hand = some r → ∃ x, s.runners.get? r = some x :=
    fun r hr => ho.live r (by simp [hr])
  cases hm with
  | start hm hs =>
    have hna := ht.idle hs
    refine h.of_submit rfl rfl (fun e n hp => ?_) (fun r x hh => by cases hh) fun hc => by cases hc
    rw [hp] at hna
    cases hna
  | partPush hm =>
    refine h.of_other rfl rfl id id fun r x hh hx => ?_
    obtain ⟨y, hy⟩ := hlive r hh
    have hx : _ = some x := hx
    rw [partStep, Store.get?_push_of_some hy] at hx
    rw [hy, hx]
  | walkError => exact h.of_other rfl rfl (fun _ => rfl) (fun _ => rfl) fun _ _ _ hx => hx
  | joinFinish hm hp =>
    have hna : s.submit.alive = false := by
      rw [returned_of_joinFinish ht hm hp]
      rfl
    refine ⟨fun r x hh => ?_, fun hc => ?_, fun x hx => absurd hx List.not_mem_nil⟩
    · have hh : s.submit.hand = some r := hh
      rw [hand_of_not_alive hna] at hh
      cases hh
    · have hc : s.submit.addFailing = true := hc
      rw [addFailing_of_not_alive hna] at hc
      cases hc
  | openFailed hp hr =>
    exact h.of_submit rfl rfl (by rw [hp]; intro _ _ hc; cases hc) (fun _ _ _ _ => trivial) fun _ => rfl
  | @ensured n r side x f hp hr =>
    refine h.of_submit rfl rfl (by rw [hp]; intro _ _ hc; cases hc) (fun j y _ _ => ?_) fun hc => ?_
    · simp only [afterEnsure]
      split
      · exact trivial
      · split <;> exact trivial
    · simp only [afterEnsure] at hc
      split at hc
      · cases hc
      · split at hc <;> cases hc
  | @ensureFailed n r side e x f hp hr =>
    have hfailed : s.failed = true := h.failing (by rw [hp]; rfl)
    refine h.of_submit rfl rfl (by rw [hp]; intro _ _ hc; cases hc) (fun j y _ _ => ?_) fun _ => hfailed
    simp only [afterEnsureFailed]
    split <;> exact trivial
  | closeEnter hp | closeNotOpen hp | notify hp => exact h.of_closing hp rfl rfl rfl rfl id
  | @closeNone caller r result x f hp hr =>
    refine h.of_submit rfl rfl (by rw [hp]; intro _ _ hc; cases hc) (fun j y hj hy => ?_) fun hc => ?_
    · have := h.hand j y (by rw [hp, ← hj]; exact (afterClose_hand _ _ _).symm) hy
      rw [hp] at this
      exact ends_afterClose this
    · exact h.failing (by rw [hp]; exact addFailing_afterClose hc)
  | close hp => exact h.of_closing hp rfl rfl rfl rfl fun hc => by simp [hc]
  | @closeNext caller r side result hp =>
    cases side with
    | source => exact h.of_closing hp rfl rfl rfl rfl id
    | dest =>
      refine h.of_submit rfl rfl (by rw [hp]; intro _ _ hc; cases hc) (fun j y hj hy => ?_) fun hc => ?_
      · have hends := h.hand j y (by rw [hp, ← hj]; exact (afterClose_hand _ _ _).symm) hy
        rw [hp] at hends
        exact ends_afterClose hends
      · exact h.failing (by rw [hp]; exact addFailing_afterClose hc)
  | @record e caller hp =>
    refine ⟨fun j y hj hy => ?_, fun hc => ?_, fun x _ => .inr (.inl rfl)⟩
    · cases caller with
      | finished r =>
        have hends := h.hand j y (by rw [hp]; exact hj) hy
        rw [hp] at hends
        exact hends
      | completion r => exact .inr rfl
      | addFailed | emptyFile => exact trivial
    · cases caller <;> cases hc
  | @finish r x f hp hr =>
    refine h.of_submit rfl rfl (by rw [hp]; intro _ _ hc; cases hc) (fun j y hj hy => ?_) fun hc => by cases hc
    have hends := h.hand j y (by rw [hp]; exact hj) hy
    rw [hp] at hends
    exact .inl hends
  | deleteShared hp hr hf => exact h.delete hring hhandled hp hr hf rfl rfl rfl id
  | deleteLast hp hr hf =>
    exact h.delete hring hhandled hp hr hf rfl rfl rfl fun hc => by simp [hc]
  | completion hp =>
    refine h.of_submit rfl rfl (by rw [hp]; intro _ _ hc; cases hc) (fun j y _ _ => ?_) fun hc => ?_
    · dsimp only
      split <;> exact trivial
    · dsimp only at hc
      split at hc <;> cases hc
  | @event r x f hp hr =>
    refine h.of_submit rfl rfl (by rw [hp]; intro _ _ hc; cases hc) (fun j y hj hy => ?_) fun hc => ?_
    · cases hres : x.runnerResult with
      | finished =>
        have hjr : j = r := by
          simp only [hres, afterEvent] at hj
          exact (Option.some.inj hj).symm
        have hy : s.runners.get? j = some y := hy
        rw [hjr, hr] at hy
        cases hy
        simp only [afterEvent]
        exact runnerResult_written hres
      | error | reschedule | «continue» => simp only [afterEvent]; exact trivial
    · dsimp only at hc
      cases hres : x.runnerResult <;> simp only [hres, afterEvent] at hc <;> cases hc
  | _ =>
    first
    | exact h.of_other rfl rfl id id fun _ _ _ hx => hx
    | (have hp := ‹s.submit = _›
       exact h.of_submit rfl rfl (by rw [hp]; intro _ _ hc; cases hc) (fun _ _ _ _ => trivial) fun hc => by cases hc)

theorem reachable_complete {ok : State → Label → Prop} (h : (system cfg).ReachIn ok s) :
    Complete s := by
  refine h.invariant ?_ fun s l s' hr hs _ hstep => complete_move (step_move hstep).2
    (reachable_threads hr) (reachable_owned hr).1 (reachable_ring hr) (reachable_handled hr) hs
  rintro s ⟨storage, rfl⟩
  exact complete_initial storage

/-- When nothing is left to do and every runner had written its chunk, everything is copied. -/
theorem Totals.copied_eq (h : Totals s) (ht : Threads cfg s) (hc : Counts s) (hd : isDone s = true)
    (hw : ∀ x ∈ s.destroyed, x.writeOffset = x.chunkEnd) :
    s.totalBytesCopied = s.totalBytesToCopy := by
  have hnone := hc.none_of_isDone hd
  have hlive : ∀ f : CopyRunner → ℕ, s.runners.sum (fun _ => f) = 0 := by
    intro f
    refine Store.sum_eq_zero fun r x hx => ?_
    rw [hnone r] at hx
    cases hx
  have hmain : s.main.announced = 0 := by
    have hj := ht.joining
    rw [(isDone_iff.mp hd).1] at hj
    cases hm : s.main with
    | part => rw [hm] at hj; cases hj
    | ready | ctor | joinAction | joinSubmit | joinProgress => rfl
  have hgone : s.destroyed.map CopyRunner.copied = s.destroyed.map CopyRunner.size := by
    refine List.map_congr_left fun x hx => ?_
    have := hw x hx
    simp only [CopyRunner.copied, CopyRunner.chunkEnd] at *
    omega
  rw [h.copied, h.toCopy, total, total, hlive, hlive, hmain, hgone, Nat.add_zero]

/-! ## What the progress thread reads -/

/-- The display is consistent with what it has read. -/
structure Shown (s : State) (d : Display) : Prop where
  inside : d.stage ≠ .outside → s.progress = .looping ∨ s.progress = .ended
  haveTotal : d.stage = .readToCopy true → s.state = .additionComplete
  toCopy : ∀ toCopy, d.stage = .readCopied true toCopy →
    s.state = .additionComplete ∧ toCopy = s.totalBytesToCopy
  drawn : ∀ toCopy copied, d.stage = .draw true toCopy copied → copied ≤ toCopy
  measured : ∀ b toCopy copied, d.stage = .draw b toCopy copied →
    (∀ start ∈ d.startQueue, start ≤ copied) ∧ copied ≤ s.totalBytesCopied
  queue : s.progress = .looping ∨ s.progress = .ended →
    ∀ start ∈ d.startQueue, start ≤ s.totalBytesCopied
  nonempty : d.startQueue ≠ []

/-- While the progress thread exists, `join` does not reset the counters, and once everything has
been added nothing more is. -/
theorem kept_of_progress (hm : Move cfg s l s') (ht : Threads cfg s)
    (hp : s.progress = .looping ∨ s.progress = .ended) :
    s.totalBytesCopied ≤ s'.totalBytesCopied ∧
    (s.state = .additionComplete → s'.state = .additionComplete ∧
      s'.totalBytesToCopy = s.totalBytesToCopy) := by
  have hshown : cfg.showingProgress = true := ht.shown (by rcases hp with hp | hp <;> rw [hp] <;> nofun)
  have hnotIdle : s.state ≠ .idle := by
    rcases hp with hp | hp
    · exact ht.progressing hp
    · intro hc
      have := (isDone_iff.mp (ht.ended hp)).1
      rw [hc] at this
      cases this
  have hjoining : s.state = .additionComplete → s.main.joining = true := by
    intro hs
    rw [ht.joining, hs]
    rfl
  cases hm with
  | start hm hs => exact absurd hs hnotIdle
  | join => exact ⟨le_rfl, fun _ => ⟨rfl, rfl⟩⟩
  | partTotal hm =>
    refine ⟨le_rfl, fun hs => ?_⟩
    have := hjoining hs
    rw [hm] at this
    cases this
  | joinFinish hm hsub =>
    rcases hm with hm | ⟨hm, hret⟩
    · rw [(hsub hm).2] at hshown
      cases hshown
    · rw [hret] at hp
      rcases hp with hp | hp <;> cases hp
  | completion => exact ⟨Nat.le_add_right _ _, fun hs => ⟨hs, rfl⟩⟩
  | _ => exact ⟨le_rfl, fun hs => ⟨hs, rfl⟩⟩

/-- Only its own steps change where the progress thread is, once it exists. -/
theorem progress_move (hm : Move cfg s l s') (ht : Threads cfg s)
    (hp : s.progress = .looping ∨ s.progress = .ended) (hl : l ≠ .progress) :
    s'.progress = s.progress := by
  cases hm with
  | start hm hs =>
    rcases hp with hp | hp
    · exact absurd hs (ht.progressing hp)
    · have := (isDone_iff.mp (ht.ended hp)).1
      rw [hs] at this
      cases this
  | progressEnd | progressExit | progressReturn => exact absurd rfl hl
  | _ => rfl

/-- Where the thread comes from, if it exists after a step. -/
theorem progress_of_move (hm : Move cfg s l s') (hl : l ≠ .start)
    (hp : s'.progress = .looping ∨ s'.progress = .ended) :
    s.progress = .looping ∨ s.progress = .ended := by
  cases hm with
  | start => exact absurd rfl hl
  | progressEnd hp' => exact .inl hp'
  | progressReturn =>
    rcases hp with hp | hp <;> cases hp
  | _ => exact hp

theorem watchedStep_cases {w w' : State × Display} {wl : WatchedLabel}
    (h : watchedStep cfg w wl = some w') :
    (∃ l, step cfg w.1 l = some w'.1 ∧ (l = .start ∧ w'.2 = {} ∨
      l ≠ .start ∧ w'.2 = w.2 ∧ (l = .progress → w.2.stage = .outside))) ∨
    ∃ expired, w'.1 = w.1 ∧ showStep expired w.1 w.2 = some w'.2 := by
  have hmap : ∀ {o : Option State} {d : Display}, o.map (·, d) = some w' →
      o = some w'.1 ∧ w'.2 = d := by
    intro o d ho
    obtain ⟨s', hs', rfl⟩ := Option.map_eq_some_iff.mp ho
    exact ⟨hs', rfl⟩
  unfold watchedStep at h
  split at h
  · obtain ⟨hs, hd⟩ := hmap h
    exact .inl ⟨.start, hs, .inl ⟨rfl, hd⟩⟩
  · split at h
    · rename_i hout
      obtain ⟨hs, hd⟩ := hmap h
      exact .inl ⟨.progress, hs, .inr ⟨nofun, hd, fun _ => hout⟩⟩
    · cases h
  · rename_i l hstart hprogress
    obtain ⟨hs, hd⟩ := hmap h
    exact .inl ⟨l, hs, .inr ⟨hstart, hd, fun hc => absurd hc hprogress⟩⟩
  · rename_i expired
    split at h
    · cases h
    · obtain ⟨d', hd', rfl⟩ := Option.map_eq_some_iff.mp h
      exact .inr ⟨expired, rfl, hd'⟩

/-- A step of the queue keeps the display consistent. -/
theorem Shown.queue_move {d : Display} (h : Shown s d) (hm : Move cfg s l s') (ht : Threads cfg s)
    (hl : l ≠ .start) (hout : l = .progress → d.stage = .outside) : Shown s' d := by
  have hin : d.stage ≠ .outside → s'.progress = .looping ∨ s'.progress = .ended := by
    intro hne
    rw [progress_move hm ht (h.inside hne) fun hc => hne (hout hc)]
    exact h.inside hne
  have hkept : ∀ stage, d.stage = stage → stage ≠ .outside → _ :=
    fun stage hs hne => kept_of_progress hm ht (h.inside (hs ▸ hne))
  refine ⟨hin, fun hs => ?_, fun t hs => ?_, h.drawn, fun b t c hs => ?_, fun hp => ?_, h.nonempty⟩
  · exact ((hkept _ hs nofun).2 (h.haveTotal hs)).1
  · obtain ⟨hstate, rfl⟩ := h.toCopy t hs
    obtain ⟨hstate', htotal⟩ := (hkept _ hs nofun).2 hstate
    exact ⟨hstate', htotal.symm⟩
  · obtain ⟨hall, hle⟩ := h.measured b t c hs
    exact ⟨hall, hle.trans (hkept _ hs nofun).1⟩
  · have hp' := progress_of_move hm hl hp
    exact fun start hmem => (h.queue hp' start hmem).trans (kept_of_progress hm ht hp').1

/-- A step of `showProgress` keeps the display consistent. -/
theorem Shown.show_step {d d' : Display} {expired : Bool} (h : Shown s d) (ht : Totals s)
    (hring : State.Ring s) (hstep : showStep expired s d = some d') : Shown s d' := by
  unfold showStep at hstep
  split at hstep
  · rename_i hs
    split at hstep
    · rename_i hp
      cases hstep
      refine ⟨fun _ => hp, fun hc => ?_, nofun, nofun, nofun, h.queue, h.nonempty⟩
      simpa using hc
    · cases hstep
  · rename_i b hs
    cases hstep
    refine ⟨fun _ => h.inside (by rw [hs]; nofun), nofun, fun t hc => ?_, nofun, nofun, h.queue,
      h.nonempty⟩
    cases hc
    exact ⟨h.haveTotal hs, rfl⟩
  · rename_i b t hs
    cases hstep
    have hp := h.inside (by rw [hs]; nofun)
    refine ⟨fun _ => hp, nofun, nofun, fun t' c hc => ?_, fun b' t' c hc => ?_, h.queue, h.nonempty⟩
    · cases hc
      rw [(h.toCopy t hs).2]
      exact ht.copied_le hring
    · cases hc
      exact ⟨h.queue hp, le_rfl⟩
  · rename_i b t c hs
    cases hstep
    have hp := h.inside (by rw [hs]; nofun)
    obtain ⟨hall, hle⟩ := h.measured b t c hs
    have hpushed : ∀ start ∈ (if 0 < c then d.startQueue ++ [c] else d.startQueue),
        start ≤ s.totalBytesCopied := by
      intro start hmem
      split at hmem
      · rcases List.mem_append.mp hmem with hmem | hmem
        · exact h.queue hp start hmem
        · rw [List.mem_singleton] at hmem
          omega
      · exact h.queue hp start hmem
    refine ⟨nofun, nofun, nofun, nofun, nofun, fun _ start hmem => ?_, ?_⟩
    · dsimp only at hmem
      split at hmem
      · exact hpushed start (List.mem_of_mem_tail hmem)
      · exact hpushed start hmem
    · have hne := h.nonempty
      obtain ⟨a, rest, hq⟩ := List.exists_cons_of_ne_nil hne
      dsimp only
      split
      · rename_i hc
        rw [if_pos hc.1, hq]
        simp
      · split
        · simp
        · exact hne

theorem watched_reachable {w : State × Display} (h : (watched cfg).Reachable w) :
    (system cfg).Reachable w.1 ∧ Shown w.1 w.2 := by
  refine h.invariant (P := fun w => (system cfg).Reachable w.1 ∧ Shown w.1 w.2) ?_
    fun w wl w' _ hw _ hstep => ?_
  · rintro w ⟨storage, rfl⟩
    refine ⟨.init ⟨storage, rfl⟩, nofun, nofun, nofun, nofun, nofun, fun hp => ?_, nofun⟩
    rcases hp with hp | hp <;> cases hp
  · obtain ⟨hreach, hshown⟩ := hw
    rcases watchedStep_cases hstep with ⟨l, hl, ⟨rfl, hd⟩ | ⟨hne, hd, hout⟩⟩ | ⟨expired, hs, hd⟩
    · refine ⟨hreach.step (l := .start) trivial hl, ?_⟩
      rw [hd]
      refine ⟨nofun, nofun, nofun, nofun, nofun, fun _ start hmem => ?_, nofun⟩
      rw [List.mem_singleton] at hmem
      rw [hmem]
      exact Nat.zero_le _
    · refine ⟨hreach.step trivial hl, ?_⟩
      rw [hd]
      exact hshown.queue_move (step_move hl).2 (reachable_threads hreach) hne hout
    · rw [hs]
      exact ⟨hreach, hshown.show_step (reachable_totals hreach) (reachable_ring hreach) hd⟩

/-- In every run: `totalBytesCopied` is what the runners have written, destroyed ones included, and
at most `totalBytesToCopy`; only `join` lowers it. So the differences that `showProgress` takes do not
wrap. When the queue is done and there was no error, or when `join` returns true, everything has been
copied. -/
theorem progress_accounting {d : Display} (h : (watched cfg).Reachable (s, d)) :
    s.totalBytesCopied = total (fun x => x.writeOffset - x.offset) s ∧
    s.totalBytesCopied ≤ s.totalBytesToCopy ∧
    (∀ l s', step cfg s l = some s' → s'.joined = s.joined →
      s.totalBytesCopied ≤ s'.totalBytesCopied) ∧
    (∀ haveTotal toCopy copied, d.stage = .draw haveTotal toCopy copied →
      (haveTotal = true → copied ≤ toCopy) ∧
      ∃ currentStart, d.startQueue.head? = some currentStart ∧ currentStart ≤ copied) ∧
    (isDone s = true → s.errored = false → s.failed = false →
      s.totalBytesCopied = s.totalBytesToCopy) ∧
    ∀ l s', step cfg s l = some s' → s'.joined = s.joined ++ [true] →
      s.totalBytesCopied = s.totalBytesToCopy := by
  obtain ⟨hreach, hshown⟩ := watched_reachable h
  have htotals := reachable_totals hreach
  have hthreads := reachable_threads hreach
  have hcounts := (reachable_owned hreach).2
  have hcomplete := reachable_complete hreach
  refine ⟨htotals.copied, htotals.copied_le (reachable_ring hreach), fun l s' hstep hj => ?_,
    fun b t c hs => ?_, fun hd he hf => ?_, fun l s' hstep hj => ?_⟩
  · exact copied_le_move (step_move hstep).2 hj
  · refine ⟨fun hb => hshown.drawn t c (hb ▸ hs), ?_⟩
    obtain ⟨start, rest, hq⟩ := List.exists_cons_of_ne_nil hshown.nonempty
    have hle := (hshown.measured b t c hs).1 start
    have hq : d.startQueue = start :: rest := hq
    exact ⟨start, by rw [hq]; rfl, hle (by rw [hq]; exact List.mem_cons_self)⟩
  · refine htotals.copied_eq hthreads hcounts hd fun x hx => ?_
    rcases hcomplete.gone x hx with hw | hc | ⟨hc, -⟩
    · exact hw
    · rw [he] at hc; cases hc
    · rw [hf] at hc; cases hc
  · have hm := (step_move hstep).2
    cases hm with
    | joinFinish hm hp =>
      have herrored : s.errored = false := by
        have : s.joined ++ [!s.errored] = s.joined ++ [true] := hj
        simpa using this
      refine htotals.copied_eq hthreads hcounts (isDone_of_joinFinish hthreads hm hp) fun x hx => ?_
      rcases hcomplete.gone x hx with hw | hc | ⟨-, e, n, hc⟩
      · exact hw
      · rw [herrored] at hc; cases hc
      · rw [returned_of_joinFinish hthreads hm hp] at hc
        cases hc
    | _ =>
      have hj : s.joined = s.joined ++ [true] := hj
      simp at hj

/-- One chunk is copied while the display has read the state and the total. -/
def watchedSteps : List WatchedLabel :=
  (oneChunkSteps.map .queue) ++ [.showing false, .showing false] ++
  (List.flatten [[.submit (.rand 0 0)], ticks 1, [.submit (.submitted 2), .kernel 0 8, .kernel 0 8,
    .submit (.peeked (some 0))], ticks 2, [.submit (.peeked (some 0))]]).map .queue ++
  [.showing false]

theorem progress_accounting_oneChunk : ∃ s d, (watched progressConfig).Reachable (s, d) ∧
    d.stage = .draw true 8 8 ∧ s.totalBytesCopied ≤ s.totalBytesToCopy ∧
    ∃ currentStart, d.startQueue.head? = some currentStart ∧ currentStart ≤ 8 := by
  obtain ⟨⟨s, d⟩, hw, hp⟩ := Transition.System.Reachable.exists_of_run
    (S := watched progressConfig) ⟨smallStorage 8, rfl⟩ watchedSteps
    (fun w => decide (w.2.stage = .draw true 8 8)) (by decide +kernel)
  have hstage : d.stage = .draw true 8 8 := of_decide_eq_true hp
  obtain ⟨-, hle, -, hdraw, -⟩ := progress_accounting hw
  exact ⟨s, d, hw, hstage, hle, (hdraw true 8 8 hstage).2⟩

end CopyQueue

end Wcp
