import WcpVerified.Proofs.RoomProofs

/-!
# Proofs: who owns a runner

A runner that has no request outstanding waits in `copiesPendingStart`, waits in
`copiesPendingContinue`, or is the one the submit thread is working on; it is in exactly one of these
places. A runner with requests outstanding is in none of them, unless the submit thread is handling
one of its completions.
-/

namespace Wcp

open List

namespace CopyRunner

/-- A runner that was never started. -/
structure Fresh (x : CopyRunner) : Prop where
  jobs : x.jobsRunning = 0
  buffer : x.buffer = none
  error : x.savedError = none
  read : x.readOffset = x.offset
  write : x.writeOffset = x.offset

/-- A runner that waits for its next round. -/
structure Resumable (x : CopyRunner) : Prop where
  jobs : x.jobsRunning = 0
  buffer : x.buffer.isSome = true
  error : x.savedError = none
  write : x.writeOffset < x.chunkEnd

/-- A runner that may be started: one of an empty file needs no buffer. -/
def Startable (x : CopyRunner) : Prop := x.Fresh ∧ x.size = 0 ∨ x.Resumable

theorem Startable.jobs {x : CopyRunner} (h : x.Startable) : x.jobsRunning = 0 := by
  rcases h with ⟨h, -⟩ | h <;> exact h.jobs

theorem Startable.error {x : CopyRunner} (h : x.Startable) : x.savedError = none := by
  rcases h with ⟨h, -⟩ | h <;> exact h.error

/-- A runner that takes its buffer may be started. -/
theorem Fresh.giveBuffer {x : CopyRunner} (h : x.Fresh) (hb : x.needsBuffer = true) (b : ℕ) :
    (x.giveBuffer b).Startable := by
  simp only [needsBuffer, Bool.and_eq_true, decide_eq_true_eq] at hb
  have hw := h.write
  exact .inr ⟨h.jobs, rfl, h.error, by simp only [CopyRunner.giveBuffer, chunkEnd]; omega⟩

theorem Fresh.startable {x : CopyRunner} (h : x.Fresh) (hb : x.needsBuffer = false) :
    x.Startable := by
  refine .inl ⟨h, ?_⟩
  rw [needsBuffer, h.buffer] at hb
  simpa using hb

end CopyRunner

/-- What is known of the runner whose files are closed. -/
def CloseCaller.Holds (x : CopyRunner) : CloseCaller → Prop
  | .saveError => x.buffer.isSome = true ∧ x.savedError.isSome = true
  | _ => x.jobsRunning = 0

/-- What is known of the runner at hand at each point of the submit thread. -/
def SubmitPc.Holds (x : CopyRunner) : SubmitPc → Prop
  | .starting _ _ | .ensure _ _ _ _ => x.Startable
  | .batch _ _ => x.Resumable
  | .closing caller _ _ _ => caller.Holds x
  | .event _ => x.buffer.isSome = true
  | _ => x.jobsRunning = 0

/-- The owners of the runners without outstanding requests. -/
structure Own (runners : Store CopyRunner) (start cont : List ℕ) (pc : SubmitPc) : Prop where
  nodup : (start ++ cont ++ pc.hand.toList).Nodup
  live : ∀ r ∈ start ++ cont ++ pc.hand.toList, ∃ x, runners.get? r = some x
  waits : ∀ r x, runners.get? r = some x → x.jobsRunning = 0 → r ∈ start ++ cont ++ pc.hand.toList
  flying : ∀ r x, runners.get? r = some x → x.jobsRunning ≠ 0 → x.buffer.isSome = true
  fresh : ∀ r ∈ start, ∀ x, runners.get? r = some x → x.Fresh
  resumable : ∀ r ∈ cont, ∀ x, runners.get? r = some x → x.Resumable
  hand : ∀ r, pc.hand = some r → ∀ x, runners.get? r = some x → pc.Holds x

namespace Own

variable {runners runners' : Store CopyRunner} {start cont : List ℕ} {pc pc' : SubmitPc} {r : ℕ}
  {x : CopyRunner} {g : CopyRunner → CopyRunner}

/-- The submit thread goes on with the same runner at hand. -/
theorem of_hand (h : Own runners start cont pc) (hh : pc'.hand = pc.hand)
    (hok : ∀ r x, pc.hand = some r → runners.get? r = some x → pc.Holds x → pc'.Holds x) :
    Own runners start cont pc' where
  nodup := hh ▸ h.nodup
  live := hh ▸ h.live
  waits := hh ▸ h.waits
  flying := h.flying
  fresh := h.fresh
  resumable := h.resumable
  hand r hr x hx := hok r x (hh ▸ hr) hx (h.hand r (hh ▸ hr) x hx)

/-- The same, for what is known of the runner at hand. -/
theorem of_same (h : Own runners start cont pc) (hr : runners.get? r = some x)
    (hp : pc.hand = some r) (hp' : pc'.hand = some r) (hok : pc.Holds x → pc'.Holds x) :
    Own runners start cont pc' := by
  refine h.of_hand (hp'.trans hp.symm) fun j y hj hy => ?_
  rw [hp] at hj
  cases hj
  rw [hr] at hy
  cases hy
  exact hok

/-- A runner is constructed and appended to `copiesPendingStart`. -/
theorem push (h : Own runners start cont pc) (hx : x.Fresh) :
    Own (runners.push x) (start ++ [runners.next]) cont pc := by
  have hnew : runners.next ∉ start ++ cont ++ pc.hand.toList := fun hc => by
    obtain ⟨y, hy⟩ := h.live _ hc
    exact absurd (Store.lt_next hy) (lt_irrefl _)
  have hperm : start ++ [runners.next] ++ cont ++ pc.hand.toList ~
      runners.next :: (start ++ cont ++ pc.hand.toList) := by
    rw [append_assoc, append_assoc, append_assoc, singleton_append]
    exact perm_middle
  have hget : ∀ j y, (runners.push x).get? j = some y → j ≠ runners.next →
      runners.get? j = some y := fun j y hy hj => by rwa [Store.get?_push, if_neg hj] at hy
  refine ⟨?_, ?_, ?_, ?_, ?_, ?_, ?_⟩
  · rw [hperm.nodup_iff, nodup_cons]
    exact ⟨hnew, h.nodup⟩
  · intro j hj
    rcases mem_cons.mp (hperm.mem_iff.mp hj) with rfl | hj
    · exact ⟨x, Store.get?_push_self⟩
    · obtain ⟨y, hy⟩ := h.live j hj
      exact ⟨y, Store.get?_push_of_some hy⟩
  · intro j y hy hz
    rw [hperm.mem_iff, mem_cons]
    by_cases hj : j = runners.next
    · exact .inl hj
    · exact .inr (h.waits j y (hget j y hy hj) hz)
  · intro j y hy hz
    by_cases hj : j = runners.next
    · subst hj
      rw [Store.get?_push_self] at hy
      cases hy
      exact absurd hx.jobs hz
    · exact h.flying j y (hget j y hy hj) hz
  · intro j hj y hy
    by_cases hjn : j = runners.next
    · subst hjn
      rw [Store.get?_push_self] at hy
      cases hy
      exact hx
    · refine h.fresh j ?_ y (hget j y hy hjn)
      simpa [hjn] using hj
  · intro j hj y hy
    refine h.resumable j hj y (hget j y hy ?_)
    rintro rfl
    exact hnew (by simp [hj])
  · intro j hj y hy
    refine h.hand j hj y (hget j y hy ?_)
    rintro rfl
    exact hnew (by simp [hj])

/-- The first rescheduled runner is taken up again. -/
theorem pick (h : Own runners start (r :: cont) pc) (hn : pc.hand = none)
    (hh : pc'.hand = some r) (hok : ∀ x, x.Resumable → pc'.Holds x) :
    Own runners start cont pc' := by
  have hperm : start ++ cont ++ pc'.hand.toList ~ start ++ r :: cont ++ pc.hand.toList := by
    rw [hn, hh, Option.toList_none, append_nil, append_assoc]
    exact (perm_append_singleton r cont).append_left start
  refine ⟨hperm.nodup_iff.mpr h.nodup, fun j hj => h.live j (hperm.mem_iff.mp hj),
    fun j y hy hz => hperm.mem_iff.mpr (h.waits j y hy hz), h.flying, h.fresh,
    fun j hj => h.resumable j (mem_cons_of_mem _ hj), fun j hj y hy => ?_⟩
  rw [hh] at hj
  cases hj
  exact hok y (h.resumable r mem_cons_self y hy)

/-- The first runner of `copiesPendingStart` is taken up, with or without a buffer given to it. -/
theorem take (h : Own runners (r :: start) cont pc) (hn : pc.hand = none)
    (hother : ∀ j, j ≠ r → runners'.get? j = runners.get? j) (hr : runners'.get? r = some x)
    (hh : pc'.hand = some r) (hok : pc'.Holds x) (hj : x.jobsRunning = 0) :
    Own runners' start cont pc' := by
  have hperm : start ++ cont ++ pc'.hand.toList ~ r :: start ++ cont ++ pc.hand.toList := by
    rw [hn, hh, Option.toList_none, append_nil]
    exact perm_append_singleton r _
  have hnot : ∀ j ∈ start ++ cont, j ≠ r := by
    have := h.nodup
    rw [hn, Option.toList_none, append_nil, cons_append, nodup_cons] at this
    rintro j hj rfl
    exact this.1 hj
  refine ⟨hperm.nodup_iff.mpr h.nodup, fun j hj => ?_, fun j y hy hz => ?_, fun j y hy hz => ?_,
    fun j hj y hy => ?_, fun j hj y hy => ?_, fun j hj y hy => ?_⟩
  · by_cases hjr : j = r
    · rw [hjr]; exact ⟨_, hr⟩
    · rw [hother j hjr]; exact h.live j (hperm.mem_iff.mp hj)
  · rw [hperm.mem_iff]
    by_cases hjr : j = r
    · simp [hjr]
    · exact h.waits j y (hother j hjr ▸ hy) hz
  · by_cases hjr : j = r
    · subst hjr
      rw [hr] at hy
      cases hy
      exact absurd hj hz
    · exact h.flying j y (hother j hjr ▸ hy) hz
  · exact h.fresh j (mem_cons_of_mem _ hj) y (hother j (hnot j (by simp [hj])) ▸ hy)
  · exact h.resumable j hj y (hother j (hnot j (by simp [hj])) ▸ hy)
  · rw [hh] at hj
    cases hj
    rw [hr] at hy
    cases hy
    exact hok

/-- The runner at hand is in neither list. -/
theorem hand_notMem (h : Own runners start cont pc) (hh : pc.hand = some r) :
    ∀ j ∈ start ++ cont, j ≠ r := by
  have := h.nodup
  rw [hh, nodup_append] at this
  exact fun j hj => this.2.2 j hj r (by simp)

/-- The submit thread lets go of the runner at hand: it is destroyed, or it has requests
outstanding. -/
theorem release (h : Own runners start cont pc) (hh : pc.hand = some r) (hn : pc'.hand = none)
    (hother : ∀ j, j ≠ r → runners'.get? j = runners.get? j)
    (hself : ∀ y, runners'.get? r = some y → y.jobsRunning ≠ 0 ∧ y.buffer.isSome = true) :
    Own runners' start cont pc' := by
  have hnot := h.hand_notMem hh
  have hsub : start ++ cont ++ pc'.hand.toList = start ++ cont := by simp [hn]
  refine ⟨?_, fun j hmem => ?_, fun j y hy hz => ?_, fun j y hy hz => ?_,
    fun j hj y hy => ?_, fun j hj y hy => ?_, fun j hj => ?_⟩
  · rw [hsub]; exact (nodup_append.mp h.nodup).1
  · rw [hsub] at hmem
    rw [hother j (hnot j hmem)]
    exact h.live j (mem_append_left _ hmem)
  · rw [hsub]
    have hjr : j ≠ r := by
      rintro rfl
      exact (hself y hy).1 hz
    rw [hother j hjr] at hy
    have := h.waits j y hy hz
    rw [hh] at this
    simpa [hjr] using this
  · by_cases hjr : j = r
    · subst hjr; exact (hself y hy).2
    · exact h.flying j y (hother j hjr ▸ hy) hz
  · exact h.fresh j hj y (hother j (hnot j (by simp [hj])) ▸ hy)
  · exact h.resumable j hj y (hother j (hnot j (by simp [hj])) ▸ hy)
  · rw [hn] at hj; cases hj

/-- The runner at hand is rescheduled. -/
theorem reschedule (h : Own runners start cont pc) (hh : pc.hand = some r)
    (hr : runners.get? r = some x) (hn : pc'.hand = none) (hx : x.Resumable) :
    Own runners start (cont ++ [r]) pc' := by
  have heq : start ++ (cont ++ [r]) ++ pc'.hand.toList = start ++ cont ++ pc.hand.toList := by
    simp [hn, hh]
  refine ⟨heq ▸ h.nodup, heq ▸ h.live, heq ▸ h.waits, h.flying, h.fresh, fun j hj y hy => ?_,
    fun j hj => ?_⟩
  · rcases mem_append.mp hj with hj | hj
    · exact h.resumable j hj y hy
    · rw [mem_singleton] at hj
      subst hj
      rw [hr] at hy
      cases hy
      exact hx
  · rw [hn] at hj; cases hj

/-- A completion is handed to its runner. -/
theorem complete (h : Own runners start cont pc) (hn : pc.hand = none)
    (hr : runners.get? r = some x) (hj : x.jobsRunning ≠ 0) (hh : pc'.hand = some r)
    (hb : (g x).buffer = x.buffer) (hok : (g x).buffer.isSome = true → pc'.Holds (g x)) :
    Own (runners.modify r g) start cont pc' := by
  have hnot : ∀ j ∈ start ++ cont, j ≠ r := by
    rintro j hmem rfl
    refine hj ?_
    rcases mem_append.mp hmem with hmem | hmem
    · exact (h.fresh j hmem x hr).jobs
    · exact (h.resumable j hmem x hr).jobs
  have hother : ∀ j, j ≠ r → (runners.modify r g).get? j = runners.get? j :=
    fun j => Store.get?_modify_of_ne
  have hold : start ++ cont ++ pc.hand.toList = start ++ cont := by simp [hn]
  have hnew : start ++ cont ++ pc'.hand.toList = start ++ cont ++ [r] := by simp [hh]
  have hbuf : (g x).buffer.isSome = true := hb ▸ h.flying r x hr hj
  refine ⟨?_, fun j hmem => ?_, fun j y hy hz => ?_, fun j y hy hz => ?_,
    fun j hj y hy => ?_, fun j hj y hy => ?_, fun j hj y hy => ?_⟩
  · rw [hnew, nodup_append]
    refine ⟨hold ▸ h.nodup, by simp, fun a ha b hb' => ?_⟩
    rw [mem_singleton] at hb'
    exact hb' ▸ hnot a ha
  · by_cases hjr : j = r
    · rw [hjr]; exact ⟨_, Store.get?_modify_self hr⟩
    · rw [hother j hjr]
      rw [hnew, mem_append, mem_singleton] at hmem
      exact h.live j (mem_append_left _ (hmem.resolve_right hjr))
  · rw [hnew, mem_append, mem_singleton]
    by_cases hjr : j = r
    · exact .inr hjr
    · rw [hother j hjr] at hy
      exact .inl (hold ▸ h.waits j y hy hz)
  · by_cases hjr : j = r
    · subst hjr
      rw [Store.get?_modify_self hr] at hy
      cases hy
      exact hbuf
    · exact h.flying j y (hother j hjr ▸ hy) hz
  · exact h.fresh j hj y (hother j (hnot j (by simp [hj])) ▸ hy)
  · exact h.resumable j hj y (hother j (hnot j (by simp [hj])) ▸ hy)
  · rw [hh] at hj
    cases hj
    rw [Store.get?_modify_self hr] at hy
    cases hy
    exact hok hbuf

end Own

namespace CopyQueue

variable {cfg : Config} {s s' : State} {l : Label}

/-- Every runner of a queue has one owner. -/
def State.Owned (s : State) : Prop :=
  Own s.runners s.copiesPendingStart s.copiesPendingContinue s.submit

theorem hand_of_not_alive {pc : SubmitPc} (h : pc.alive = false) : pc.hand = none := by
  cases pc <;> first | rfl | cases h

@[simp] theorem afterClose_hand (caller : CloseCaller) (r : ℕ) (result : Option Error) :
    (afterClose caller r result).hand = some r := by
  cases caller <;> cases result <;> rfl

theorem afterClose_holds {caller : CloseCaller} {r : ℕ} {result : Option Error} {x : CopyRunner}
    (h : caller.Holds x) : (afterClose caller r result).Holds x := by
  cases caller with
  | saveError => exact h.1
  | finished | addFailed | emptyFile => cases result <;> exact h

@[simp] theorem afterError_hand (caller : ErrorCaller) :
    (afterError caller).hand = caller.runner? := by
  cases caller <;> rfl

theorem afterError_holds {caller : ErrorCaller} {r : ℕ} {e : Error} {x : CopyRunner}
    (hr : caller.runner? = some r) (h : (SubmitPc.recording e caller).Holds x) :
    (afterError caller).Holds x := by
  cases caller with
  | addFailed => cases hr
  | finished | completion | emptyFile => exact h

@[simp] theorem afterEnsure_hand (n r : ℕ) (side : Side) (x : CopyRunner) :
    (afterEnsure n r side x).hand = some r := by
  unfold afterEnsure
  split
  · rfl
  · split <;> rfl

theorem afterEnsure_holds {n r : ℕ} {side : Side} {x : CopyRunner} (h : x.Startable) :
    (afterEnsure n r side x).Holds x := by
  unfold afterEnsure
  split
  · exact h
  · split
    · exact h.jobs
    · rename_i hs
      exact h.resolve_left fun hc => hs hc.2

@[simp] theorem afterEnsureFailed_hand (n r : ℕ) (x : CopyRunner) (e : Error) :
    (afterEnsureFailed n r x e).hand = some r := by
  unfold afterEnsureFailed
  split <;> rfl

theorem afterEnsureFailed_holds {n r : ℕ} {e : Error} {x : CopyRunner} (h : x.Startable) :
    (afterEnsureFailed n r x e).Holds x := by
  unfold afterEnsureFailed
  split <;> exact h.jobs

@[simp] theorem afterDelete_hand (caller : DeleteCaller) : (afterDelete caller).hand = none := by
  cases caller <;> rfl

theorem owned_initial (storage : Storage) : State.Owned (initial cfg storage) where
  nodup := nodup_nil
  live r hr := absurd hr not_mem_nil
  waits r x hr := by cases hr
  flying r x hr := by cases hr
  fresh r hr := absurd hr not_mem_nil
  resumable r hr := absurd hr not_mem_nil
  hand r hr := by cases hr

/-- What the result of `onCompletionEvent` says of the runner. -/
theorem owned_event {r : ℕ} {x : CopyRunner} (hring : State.Ring s) (h : State.Owned s)
    (hp : s.submit = .event r) (hr : s.runners.get? r = some x) :
    Own s.runners s.copiesPendingStart
      (if x.runnerResult = .reschedule then s.copiesPendingContinue ++ [r]
        else s.copiesPendingContinue) (afterEvent r x.runnerResult) := by
  have hh : s.submit.hand = some r := by rw [hp]; rfl
  have hb := h.hand r hh x hr
  rw [hp] at hb
  have hw := hring.written r x hr
  unfold CopyRunner.runnerResult
  split
  · rename_i hz
    cases he : x.savedError with
    | some e =>
      exact h.of_same hr hh rfl fun _ => hz
    | none =>
      dsimp only
      split
      · exact h.of_same hr hh rfl fun _ => hz
      · rw [if_pos rfl]
        exact h.reschedule hh hr rfl ⟨hz, hb, he, by omega⟩
  · rename_i hz
    refine h.release hh rfl (fun _ _ => rfl) fun y hy => ?_
    rw [hr] at hy
    cases hy
    exact ⟨hz, hb⟩

/-- The counters of the queue, and what the submit thread relies on when it takes a runner from
`copiesPendingStart`. -/
structure Counts (s : State) : Prop where
  startCount : s.copiesPendingStartCount = s.copiesPendingStart.length
  keepAlive : s.keepAliveCount = s.runners.size
  continue_nil : s.submit.alive = false → s.copiesPendingContinue = []
  taking : ∀ n, s.submit = .taking n → s.copiesPendingStart ≠ [] ∧ s.nextBuffer.isSome = true

theorem owned_move (hm : Move cfg s l s') (hns : s'.submit ≠ .spinning) (ht : Threads cfg s)
    (hring : State.Ring s) (hc : Counts s) (h : State.Owned s) : State.Owned s' := by
  unfold State.Owned at h ⊢
  cases hm with
  | start hm hs =>
    have ha := ht.idle hs
    rw [hc.continue_nil ha] at h
    have hn := hand_of_not_alive ha
    exact h.of_hand hn.symm fun r x hr => by rw [hn] at hr; cases hr
  | partPush hm => exact h.push ⟨rfl, rfl, rfl, rfl, rfl⟩
  | pickContinue hp hc =>
    rw [hc] at h
    exact h.pick (by rw [hp]; rfl) rfl fun x hx => .inr hx
  | take hp hs hr hf ho hx =>
    rw [hs] at h
    have hfresh := h.fresh _ mem_cons_self _ hr
    exact h.take (by rw [hp]; rfl) (fun _ _ => rfl) hr rfl (hfresh.startable hx) hfresh.jobs
  | takeGive hp hs hr hf ho hx hb =>
    rw [hs] at h
    have hfresh := h.fresh _ mem_cons_self _ hr
    exact h.take (by rw [hp]; rfl) (fun _ => Store.get?_modify_of_ne) (Store.get?_modify_self hr)
      rfl (hfresh.giveBuffer hx _) hfresh.jobs
  | ensured hp hr =>
    rw [hp] at h
    exact h.of_same hr rfl (afterEnsure_hand ..) afterEnsure_holds
  | ensureFailed hp hr =>
    rw [hp] at h
    exact h.of_same hr rfl (afterEnsureFailed_hand ..) afterEnsureFailed_holds
  | spin => exact absurd rfl hns
  | batch hp hr hf hj he =>
    have hh := h.hand _ (by rw [hp]; rfl) _ hr
    rw [hp] at hh
    refine h.release (by rw [hp]; rfl) rfl (fun _ => Store.get?_modify_of_ne) fun y hy => ?_
    rw [Store.get?_modify_self hr] at hy
    cases hy
    have hlen := he ▸ CopyRunner.requests_ne_nil hh.write
    exact ⟨by simp only [CopyRunner.submitted]; omega, hh.buffer⟩
  | closeNone hp hr =>
    rw [hp] at h
    exact h.of_same hr rfl (afterClose_hand ..) afterClose_holds
  | @closeNext caller r side result hp =>
    rw [hp] at h
    cases side with
    | source => exact h.of_hand rfl fun _ _ _ _ hx => hx
    | dest => exact h.of_hand (afterClose_hand ..) fun _ _ _ _ => afterClose_holds
  | record hp =>
    rw [hp] at h
    exact h.of_hand (afterError_hand _) fun _ _ hr _ => afterError_holds hr
  | deleteShared hp hr | deleteLast hp hr =>
    refine h.release (by rw [hp]; rfl) (afterDelete_hand _) (fun _ => Store.get?_erase_of_ne)
      fun y hy => ?_
    rw [Store.get?_erase_self] at hy
    cases hy
  | completion hp hc hr hf hy =>
    have hj := hring.jobs_pos (mem_append_right _ (mem_map_of_mem (mem_of_getElem? hc))) hr
    dsimp only
    split
    · rename_i hs
      refine h.complete (by rw [hp]; rfl) hr (by omega) rfl
        CopyRunner.onCompletionEvent_same.buffer fun hbuf => ⟨hbuf, ?_⟩
      rw [savesError, Bool.and_eq_true, hy] at hs
      exact hs.2
    · exact h.complete (by rw [hp]; rfl) hr (by omega) rfl
        CopyRunner.onCompletionEvent_same.buffer fun hbuf => hbuf
  | event hp hr =>
    exact owned_event hring h hp hr
  | _ =>
    first
    | exact h
    | (have hp := ‹s.submit = _›
       rw [hp] at h
       exact h.of_hand rfl fun _ _ _ _ hx => hx)

theorem counts_initial (storage : Storage) : Counts (initial cfg storage) where
  startCount := rfl
  keepAlive := Store.sum_empty.symm
  continue_nil _ := rfl
  taking := nofun

namespace Counts

/-- A step that changes no queue and no number of runners. -/
theorem of_submit (h : Counts s) (hs : s'.copiesPendingStart = s.copiesPendingStart)
    (hn : s'.copiesPendingStartCount = s.copiesPendingStartCount)
    (hk : s'.keepAliveCount = s.keepAliveCount) (hr : s'.runners.size = s.runners.size)
    (ha : s'.submit.alive = true) (ht : ∀ n, s'.submit ≠ .taking n) : Counts s' where
  startCount := by rw [hn, hs]; exact h.startCount
  keepAlive := by rw [hk, hr]; exact h.keepAlive
  continue_nil hc := by rw [ha] at hc; cases hc
  taking n hp := absurd hp (ht n)

/-- A runner is taken from `copiesPendingStart`. -/
theorem take (h : Counts s) {r : ℕ} (hs : s.copiesPendingStart = r :: s'.copiesPendingStart)
    (hn : s'.copiesPendingStartCount = s.copiesPendingStartCount - 1)
    (hk : s'.keepAliveCount = s.keepAliveCount) (hr : s'.runners.size = s.runners.size)
    (ha : s'.submit.alive = true) (ht : ∀ n, s'.submit ≠ .taking n) : Counts s' where
  startCount := by rw [hn, h.startCount, hs]; rfl
  keepAlive := by rw [hk, hr]; exact h.keepAlive
  continue_nil hc := by rw [ha] at hc; cases hc
  taking n hp := absurd hp (ht n)

/-- A runner is destroyed. -/
theorem delete (h : Counts s) {r : ℕ} {x : CopyRunner} (hx : s.runners.get? r = some x)
    (hs : s'.copiesPendingStart = s.copiesPendingStart)
    (hn : s'.copiesPendingStartCount = s.copiesPendingStartCount)
    (hk : s'.keepAliveCount = s.keepAliveCount - 1) (hr : s'.runners = s.runners.erase r)
    (ha : s'.submit.alive = true) (ht : ∀ n, s'.submit ≠ .taking n) : Counts s' where
  startCount := by rw [hn, hs]; exact h.startCount
  keepAlive := by
    have : (s.runners.erase r).size + 1 = s.runners.size := Store.sum_erase hx
    rw [hk, hr, h.keepAlive]
    omega
  continue_nil hc := by rw [ha] at hc; cases hc
  taking n hp := absurd hp (ht n)

/-- When everything is done, no runner is alive. -/
theorem none_of_isDone (h : Counts s) (hd : isDone s = true) (r : ℕ) : s.runners.get? r = none := by
  simp only [isDone, Bool.and_eq_true, beq_iff_eq] at hd
  exact Store.size_eq_zero.mp (h.keepAlive ▸ hd.2) r

end Counts

theorem ne_taking_of_hand {pc : SubmitPc} {r : ℕ} (h : pc.hand = some r) (n : ℕ) :
    pc ≠ .taking n := by
  rintro rfl
  cases h

theorem counts_move (hm : Move cfg s l s') (ho : State.Owned s) (h : Counts s) : Counts s' := by
  have hmodify : ∀ r (g : CopyRunner → CopyRunner), (s.runners.modify r g).size = s.runners.size :=
    fun r g => Store.sum_modify_eq fun _ _ => rfl
  cases hm with
  | start => exact ⟨h.startCount, h.keepAlive, nofun, nofun⟩
  | partPush hm =>
    refine ⟨?_, ?_, h.continue_nil, fun n hp => ⟨by simp [partStep], (h.taking n hp).2⟩⟩
    · simp [partStep, h.startCount]
    · simp only [partStep, h.keepAlive]
      exact Store.sum_push.symm
  | pickStart hp hc hb hn =>
    refine ⟨h.startCount, h.keepAlive, nofun, fun n _ => ⟨fun hs => ?_, hb⟩⟩
    rw [h.startCount, hs] at hn
    simp at hn
  | take hp hs => exact h.take hs rfl rfl rfl rfl nofun
  | takeGive hp hs => exact h.take hs rfl rfl (hmodify ..) rfl nofun
  | ensured =>
    exact h.of_submit rfl rfl rfl rfl (afterEnsure_alive ..)
      (ne_taking_of_hand (afterEnsure_hand ..))
  | ensureFailed =>
    exact h.of_submit rfl rfl rfl rfl (afterEnsureFailed_alive ..)
      (ne_taking_of_hand (afterEnsureFailed_hand ..))
  | batch => exact h.of_submit rfl rfl rfl (hmodify ..) rfl nofun
  | closeNone =>
    exact h.of_submit rfl rfl rfl rfl (afterClose_alive ..)
      (ne_taking_of_hand (afterClose_hand ..))
  | @closeNext caller r side result =>
    refine h.of_submit rfl rfl rfl rfl (closeNext_alive ..) ?_
    cases side
    · nofun
    · exact ne_taking_of_hand (afterClose_hand ..)
  | @record e caller => cases caller <;> exact h.of_submit rfl rfl rfl rfl rfl nofun
  | @deleteShared r caller x f hp hr | @deleteLast r caller x f hp hr =>
    cases caller <;> exact h.delete hr rfl rfl rfl rfl rfl nofun
  | completion =>
    refine h.of_submit rfl rfl rfl (hmodify ..) ?_ ?_ <;> dsimp only <;> split <;> first | rfl | nofun
  | @event r x =>
    cases x.runnerResult <;> exact h.of_submit rfl rfl rfl rfl rfl nofun
  | submitReturn hp hd =>
    refine ⟨h.startCount, h.keepAlive, fun _ => ?_, nofun⟩
    rw [eq_nil_iff_forall_not_mem]
    intro r hr
    obtain ⟨x, hx⟩ := ho.live r (by simp [show r ∈ s.copiesPendingContinue from hr])
    rw [h.none_of_isDone hd r] at hx
    cases hx
  | _ =>
    first
    | exact ⟨h.startCount, h.keepAlive, h.continue_nil, h.taking⟩
    | exact h.of_submit rfl rfl rfl rfl rfl fun _ hc => by cases hc

/-- In a reachable queue, every runner has one owner and the counters are right. -/
theorem reachable_owned {ok : State → Label → Prop} (h : (system cfg).ReachIn ok s) :
    State.Owned s ∧ Counts s := by
  refine h.invariant (P := fun s => State.Owned s ∧ Counts s) ?_ fun s l s' hr hs hok hstep => ?_
  · rintro s ⟨storage, rfl⟩
    exact ⟨owned_initial storage, counts_initial storage⟩
  · have hm := (step_move hstep).2
    exact ⟨owned_move hm (reachable_room (hr.step hok hstep)).notSpinning (reachable_threads hr)
      (reachable_ring hr) hs.2 hs.1, counts_move hm hs.1 hs.2⟩

end CopyQueue

end Wcp
