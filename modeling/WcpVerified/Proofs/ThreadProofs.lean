import WcpVerified.Proofs.StepProofs

/-!
# Proofs: how the threads start and end

`start` creates the submit thread and, if progress is shown, the progress thread; `join` waits for
both. The queue is idle only while neither exists, and a thread that has left its loop has seen
`isDone`, which stays true until `join` returns.
-/

namespace Wcp

/-- Whether the main thread is inside `join`. -/
def MainPc.joining : MainPc → Bool
  | .joinAction _ | .joinSubmit | .joinProgress => true
  | _ => false

/-- Whether the submit thread exists. -/
def SubmitPc.alive : SubmitPc → Bool
  | .notStarted | .returned => false
  | _ => true

namespace CopyQueue

/-- How the threads are created and joined. -/
structure Threads (cfg : Config) (s : State) : Prop where
  joining : s.main.joining = (s.state == .additionComplete)
  idle : s.state = .idle → s.submit.alive = false
  running : s.state = .running → s.submit.alive = true
  started : s.submit = .notStarted → s.state = .idle
  returned : s.submit = .returned → s.state = .additionComplete → s.keepAliveCount = 0
  shown : s.progress ≠ .notStarted → cfg.showingProgress = true
  progressing : s.progress = .looping → s.state ≠ .idle
  ended : s.progress = .ended → isDone s
  joinProgress : s.main = .joinProgress → s.submit = .returned
  progressEnd : s.progressEnd = true → s.main = .joinProgress
  buffer : s.submit.alive = false → s.nextBuffer = none

variable {cfg : Config} {s s' : State} {l : Label}

@[simp] theorem afterClose_alive (caller : CloseCaller) (r : ℕ) (result : Option Error) :
    (afterClose caller r result).alive = true := by
  cases caller <;> cases result <;> rfl

@[simp] theorem closeNext_alive (caller : CloseCaller) (r : ℕ) (side : Side)
    (result : Option Error) : (closeNext caller r side result).alive = true := by
  cases side
  · rfl
  · exact afterClose_alive caller r result

@[simp] theorem afterError_alive (caller : ErrorCaller) :
    (afterError caller).alive = true := by
  cases caller <;> rfl

@[simp] theorem afterDelete_alive (caller : DeleteCaller) :
    (afterDelete caller).alive = true := by
  cases caller <;> rfl

@[simp] theorem afterEnsure_alive (n r : ℕ) (side : Side) (x : CopyRunner) :
    (afterEnsure n r side x).alive = true := by
  unfold afterEnsure
  split
  · rfl
  · split <;> rfl

@[simp] theorem afterEnsureFailed_alive (n r : ℕ) (x : CopyRunner) (e : Error) :
    (afterEnsureFailed n r x e).alive = true := by
  unfold afterEnsureFailed
  split <;> rfl

@[simp] theorem afterEvent_alive (r : ℕ) (res : CopyRunner.RunnerResult) :
    (afterEvent r res).alive = true := by
  cases res <;> rfl

namespace Threads

/-- A step of the submit thread that does not end it. -/
theorem of_submit (h : Threads cfg s) (hs : s'.state = s.state) (hm : s'.main = s.main)
    (hp : s'.progress = s.progress) (he : s'.progressEnd = s.progressEnd)
    (hk : s'.keepAliveCount ≤ s.keepAliveCount) (ha : s.submit.alive = true)
    (ha' : s'.submit.alive = true) : Threads cfg s' where
  joining := by rw [hm, hs]; exact h.joining
  idle hi := by have := h.idle (hs ▸ hi); rw [ha] at this; cases this
  running _ := ha'
  started hn := by rw [hn] at ha'; cases ha'
  returned hr := by rw [hr] at ha'; cases ha'
  shown hl := h.shown (hp ▸ hl)
  progressing hl := hs ▸ h.progressing (hp ▸ hl)
  ended hl := by
    have := h.ended (hp ▸ hl)
    simp only [isDone, Bool.and_eq_true, beq_iff_eq] at this ⊢
    exact ⟨hs ▸ this.1, by omega⟩
  joinProgress hj := by
    have := h.joinProgress (hm ▸ hj)
    rw [this] at ha
    cases ha
  progressEnd hj := hm ▸ h.progressEnd (he ▸ hj)
  buffer hb := by rw [ha'] at hb; cases hb

/-- A step of the main thread inside `addCopyJob`. -/
theorem of_main (h : Threads cfg s) (hs : s'.state = s.state) (hj : s.main.joining = false)
    (hj' : s'.main.joining = false)
    (hp : s'.progress = s.progress) (he : s'.progressEnd = s.progressEnd)
    (hu : s'.submit = s.submit) (hb : s'.nextBuffer = s.nextBuffer) : Threads cfg s' where
  joining := by rw [hj', hs, ← h.joining, hj]
  idle hi := hu ▸ h.idle (hs ▸ hi)
  running hi := hu ▸ h.running (hs ▸ hi)
  started hi := hs ▸ h.started (hu ▸ hi)
  returned _ hc := by
    have := h.joining
    rw [hj, ← hs, hc] at this
    cases this
  shown hl := h.shown (hp ▸ hl)
  progressing hl := hs ▸ h.progressing (hp ▸ hl)
  ended hl := by
    have := h.joining
    have hd := h.ended (hp ▸ hl)
    simp only [isDone, Bool.and_eq_true, beq_iff_eq] at hd
    rw [hj, hd.1] at this
    cases this
  joinProgress hc := by rw [hc] at hj'; cases hj'
  progressEnd hc := by
    have := h.progressEnd (he ▸ hc)
    rw [this] at hj
    cases hj
  buffer hc := by rw [hb]; exact h.buffer (hu ▸ hc)

end Threads

theorem threads_initial (storage : Storage) : Threads cfg (initial cfg storage) where
  joining := rfl
  idle _ := rfl
  running h := by cases h
  started _ := rfl
  returned h := by cases h
  shown h := absurd rfl h
  progressing h := by cases h
  ended h := by cases h
  joinProgress h := by cases h
  progressEnd h := by cases h
  buffer _ := rfl

/-- `join` ends when the submit thread has returned. -/
theorem returned_of_joinFinish (h : Threads cfg s)
    (hm : s.main = .joinSubmit ∨ s.main = .joinProgress ∧ s.progress = .returned)
    (hp : s.main = .joinSubmit → s.submit = .returned ∧ cfg.showingProgress = false) :
    s.submit = .returned := by
  rcases hm with hm | ⟨hm, -⟩
  · exact (hp hm).1
  · exact h.joinProgress hm

theorem threads_move (hm : Move cfg s l s') (h : Threads cfg s) : Threads cfg s' := by
  cases hm with
  | abort | submitExit | progressExit | kernel | otherProcess => exact { h with }
  | submitAgain => exact h
  | start hm hs =>
    refine { h with
      joining := by rw [hm]; rfl, idle := nofun, running := fun _ => rfl, started := nofun
      returned := nofun, shown := fun hp => ?_, progressing := fun _ => nofun, ended := fun he => ?_
      joinProgress := fun hj => ?_, buffer := nofun }
    · by_contra hc
      exact hp (if_neg hc)
    · dsimp only at he
      split at he <;> cases he
    · rw [hm] at hj; cases hj
  | join hm hs =>
    have ha := h.running hs
    refine { h with
      joining := rfl, idle := nofun, running := nofun, started := fun hi => ?_
      returned := fun hi => ?_, progressing := fun _ => nofun, ended := fun he => ?_
      joinProgress := nofun, progressEnd := fun hj => ?_ }
    · rw [hi] at ha; cases ha
    · rw [hi] at ha; cases ha
    · have := h.ended he
      simp [isDone, hs] at this
    · have := h.progressEnd hj
      rw [hm] at this; cases this
  | joinAction hm =>
    have hc := h.joining
    rw [hm] at hc
    refine { h with joining := hc, joinProgress := nofun, progressEnd := fun hj => ?_ }
    have := h.progressEnd hj
    rw [hm] at this; cases this
  | joinUnlock hm hp =>
    have hc := h.joining
    rw [hm] at hc
    exact { h with joining := hc, joinProgress := fun _ => hp, progressEnd := fun _ => rfl }
  | joinFinish hm hp =>
    have hr := returned_of_joinFinish h hm hp
    have hg : s.progress = .notStarted ∨ s.progress = .returned := by
      rcases hm with hm | ⟨-, hg⟩
      · by_contra hc
        push Not at hc
        have := h.shown hc.1
        rw [(hp hm).2] at this; cases this
      · exact .inr hg
    refine { h with
      joining := rfl, idle := fun _ => ?_, running := nofun, started := fun _ => rfl
      returned := fun _ => nofun, progressing := fun hl => ?_, ended := fun he => ?_
      joinProgress := nofun, progressEnd := nofun }
    · change s.submit.alive = false
      rw [hr]; rfl
    · have hl : s.progress = .looping := hl
      rcases hg with hg | hg <;> rw [hg] at hl <;> cases hl
    · have he : s.progress = .ended := he
      rcases hg with hg | hg <;> rw [hg] at he <;> cases he
  | partPush hm =>
    refine h.of_main rfl (by rw [hm]; rfl) ?_ rfl rfl rfl rfl
    dsimp only [partStep]
    split <;> rfl
  | walkError hm =>
    exact h.of_main rfl (by rw [hm]; rfl) (congrArg MainPc.joining hm) rfl rfl rfl rfl
  | submitReturn hp hd =>
    simp only [isDone, Bool.and_eq_true, beq_iff_eq] at hd
    refine { h with
      idle := fun _ => rfl, running := fun hi => ?_, started := nofun, returned := fun _ _ => hd.2
      joinProgress := fun _ => rfl, buffer := fun _ => rfl }
    have hi : s.state = .running := hi
    rw [hd.1] at hi; cases hi
  | progressEnd hp hd =>
    refine { h with
      shown := fun _ => h.shown (by rw [hp]; nofun), progressing := nofun, ended := fun _ => ?_ }
    rcases hd with hd | hd
    · exact hd
    · have hj := h.progressEnd hd
      have hc := h.joining
      rw [hj] at hc
      have hc : s.state = .additionComplete := by simpa [MainPc.joining] using hc.symm
      have hk := h.returned (h.joinProgress hj) hc
      simp [isDone, hc, hk]
  | progressReturn hp =>
    exact { h with
      shown := fun _ => h.shown (by rw [hp]; nofun), progressing := nofun, ended := nofun }
  | completion hp =>
    refine h.of_submit rfl rfl rfl rfl le_rfl (by rw [hp]; rfl) ?_
    dsimp only
    split <;> rfl
  | deleteShared hp | deleteLast hp =>
    exact h.of_submit rfl rfl rfl rfl (Nat.sub_le ..) (by rw [hp]; rfl) (by simp)
  | _ =>
    first
    | (have hm := ‹s.main = _›
       exact h.of_main rfl (by rw [hm]; rfl) rfl rfl rfl rfl rfl)
    | (have hp := ‹s.submit = _›
       exact h.of_submit rfl rfl rfl rfl le_rfl (by rw [hp]; rfl) (by first | rfl | simp))

/-- The threads of a reachable queue are consistent. -/
theorem reachable_threads {ok : State → Label → Prop} (h : (system cfg).ReachIn ok s) :
    Threads cfg s := by
  refine h.invariant ?_ fun s l s' _ hs _ hstep => threads_move (step_move hstep).2 hs
  rintro s ⟨storage, rfl⟩
  exact threads_initial storage

end CopyQueue

end Wcp
