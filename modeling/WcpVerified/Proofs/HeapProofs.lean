import WcpVerified.Proofs.FileProofs
import WcpVerified.Library.Pool

/-!
# Proofs: the blocks of the heap

A block is held by the submit thread, in `nextBuffer`, or by one runner, and the blocks held are
those marked used. `returnBlock` divides by `blockSize`, so the blocks are not empty.
-/

namespace Wcp

namespace Heap

variable {h : Heap}

/-- `returnBlock` finds the index of a block. -/
theorem blockIndex_blockAddr (hb : 0 < h.blockSize) (i : ℕ) : h.blockIndex (h.blockAddr i) = i := by
  rw [blockIndex, blockAddr, Nat.add_sub_cancel_left, Nat.mul_div_cancel_left i hb]

/-- `getBlock` finds a free block, or there is none. -/
theorem getBlock_cases (h : Heap) (usedList : List Bool) :
    (∃ i, usedList[i]? = some false ∧ h.getBlock usedList =
      (some (h.blockAddr i), usedList.set i true)) ∨
    h.getBlock usedList = (none, usedList) ∧ ∀ u ∈ usedList, u = true := by
  unfold getBlock
  cases hi : usedList.findIdx? (!·) with
  | some i =>
    obtain ⟨hlt, hfree, -⟩ := List.findIdx?_eq_some_iff_getElem.mp hi
    refine .inl ⟨i, ?_, rfl⟩
    rw [List.getElem?_eq_getElem hlt]
    simpa using hfree
  | none =>
    refine .inr ⟨rfl, fun u hu => ?_⟩
    simpa using List.findIdx?_eq_none_iff.mp hi u hu

end Heap

namespace CopyQueue

variable {cfg : Config} {s s' : State} {l : Label}

/-- The buffer held by the submit thread (`none`) or by a runner. -/
def heldBy (s : State) : Option ℕ → Option ℕ
  | none => s.nextBuffer
  | some r => (s.runners.get? r).bind CopyRunner.buffer

/-- The block held. -/
def blockOf (cfg : Config) (s : State) (o : Option ℕ) : Option ℕ :=
  (heldBy s o).map cfg.heap.blockIndex

/-- The heap of a queue: buffers are blocks of the heap, and these are conserved. -/
structure Blocks (cfg : Config) (s : State) : Prop where
  length : s.usedList.length = cfg.heap.blocks
  addr : ∀ o b, heldBy s o = some b → b = cfg.heap.blockAddr (cfg.heap.blockIndex b)
  conserved : Pool.Conserved s.usedList (blockOf cfg s)

/-- Nobody's buffer changes. -/
theorem Blocks.of_eq (h : Blocks cfg s) (hu : s'.usedList = s.usedList)
    (hh : ∀ o, heldBy s' o = heldBy s o) : Blocks cfg s' where
  length := hu ▸ h.length
  addr o b hb := h.addr o b (hh o ▸ hb)
  conserved := by
    rw [hu]
    exact h.conserved.of_eq fun o => by rw [blockOf, hh o, blockOf]

/-- The runners keep their buffers. -/
theorem Blocks.of_runners (h : Blocks cfg s) (hu : s'.usedList = s.usedList)
    (hn : s'.nextBuffer = s.nextBuffer)
    (hr : ∀ r, (s'.runners.get? r).bind CopyRunner.buffer =
      (s.runners.get? r).bind CopyRunner.buffer) : Blocks cfg s' := by
  refine h.of_eq hu fun o => ?_
  cases o with
  | none => exact hn
  | some r => exact hr r

theorem buffer_modify {runners : Store CopyRunner} {j : ℕ} {g : CopyRunner → CopyRunner}
    (hg : ∀ x, (g x).buffer = x.buffer) (r : ℕ) :
    ((runners.modify j g).get? r).bind CopyRunner.buffer =
      (runners.get? r).bind CopyRunner.buffer := by
  rw [Store.get?_modify]
  split
  · subst r
    cases runners.get? j with
    | none => rfl
    | some x => exact hg x
  · rfl

theorem Blocks.fetch (h : Blocks cfg s) (hb : 0 < cfg.heap.blockSize) (hn : s.nextBuffer = none)
    (hr : s'.runners = s.runners) (hn' : s'.nextBuffer = (cfg.heap.getBlock s.usedList).1)
    (hu : s'.usedList = (cfg.heap.getBlock s.usedList).2) : Blocks cfg s' := by
  rcases cfg.heap.getBlock_cases s.usedList with ⟨i, hi, he⟩ | ⟨he, -⟩
  · rw [he] at hn' hu
    have hother : ∀ o, o ≠ none → heldBy s' o = heldBy s o := by
      intro o ho
      cases o with
      | none => exact absurd rfl ho
      | some r => simp only [heldBy, hr]
    have hself : heldBy s' none = some (cfg.heap.blockAddr i) := hn'
    refine ⟨?_, fun o b hob => ?_, ?_⟩
    · rw [hu, List.length_set]
      exact h.length
    · by_cases ho : o = none
      · rw [ho, hself] at hob
        cases hob
        rw [Heap.blockIndex_blockAddr hb]
      · exact h.addr o b (hother o ho ▸ hob)
    · rw [hu]
      refine h.conserved.acquire hi (o := none) ?_ (fun o ho => ?_) ?_
      · rw [blockOf, hself, Option.map_some, Heap.blockIndex_blockAddr hb]
      · rw [blockOf, hother o ho, blockOf]
      · rw [blockOf, heldBy, hn]
        rfl
  · rw [he] at hn' hu
    refine h.of_eq hu fun o => ?_
    cases o with
    | none => exact hn'.trans hn.symm
    | some r => simp only [heldBy, hr]

/-- `nextBuffer` is given to a runner. -/
theorem Blocks.give (h : Blocks cfg s) {r b : ℕ} {x : CopyRunner}
    (hx : s.runners.get? r = some x) (hxb : x.buffer = none) (hn : s.nextBuffer = some b)
    (hr : s'.runners = s.runners.modify r fun x => x.giveBuffer b) (hn' : s'.nextBuffer = none)
    (hu : s'.usedList = s.usedList) : Blocks cfg s' := by
  have hold : heldBy s none = some b := hn
  have hfree : heldBy s (some r) = none := by simp only [heldBy, hx, Option.bind_some, hxb]
  have hgone : heldBy s' none = none := hn'
  have hself : heldBy s' (some r) = some b := by
    simp only [heldBy, hr, Store.get?_modify_self hx, Option.bind_some, CopyRunner.giveBuffer]
  have hother : ∀ o, o ≠ none → o ≠ some r → heldBy s' o = heldBy s o := by
    intro o ho hor
    cases o with
    | none => exact absurd rfl ho
    | some j =>
      have hj : j ≠ r := fun hc => hor (congrArg some hc)
      simp only [heldBy, hr, Store.get?_modify_of_ne hj]
  refine ⟨hu ▸ h.length, fun o c hoc => ?_, ?_⟩
  · by_cases ho : o = none
    · rw [ho, hgone] at hoc; cases hoc
    · by_cases hor : o = some r
      · rw [hor, hself] at hoc
        exact h.addr none c (hold.trans hoc)
      · exact h.addr o c (hother o ho hor ▸ hoc)
  · rw [hu]
    refine h.conserved.transfer (o := none) (p := some r) (i := cfg.heap.blockIndex b) (Option.some_ne_none r).symm ?_ ?_
      ?_ ?_ fun o ho hor => ?_
    · rw [blockOf, hold, Option.map_some]
    · rw [blockOf, hfree, Option.map_none]
    · rw [blockOf, hgone, Option.map_none]
    · rw [blockOf, hself, Option.map_some]
    · rw [blockOf, hother o ho hor, blockOf]

/-- A holder returns its block, if it has one. -/
theorem Blocks.release (h : Blocks cfg s) (o : Option ℕ) (hgone : heldBy s' o = none)
    (hother : ∀ p, p ≠ o → heldBy s' p = heldBy s p)
    (hu : s'.usedList = match heldBy s o with
      | some b => cfg.heap.returnBlock s.usedList b
      | none => s.usedList) : Blocks cfg s' := by
  cases hold : heldBy s o with
  | none =>
    rw [hold] at hu
    refine h.of_eq hu fun p => ?_
    by_cases hp : p = o
    · rw [hp, hgone, hold]
    · exact hother p hp
  | some b =>
    rw [hold] at hu
    refine ⟨?_, fun p c hpc => ?_, ?_⟩
    · rw [hu]
      exact (List.length_set ..).trans h.length
    · by_cases hp : p = o
      · rw [hp, hgone] at hpc; cases hpc
      · exact h.addr p c (hother p hp ▸ hpc)
    · rw [hu]
      refine h.conserved.release (o := o) ?_ ?_ fun p hp => ?_
      · rw [blockOf, hold, Option.map_some]
      · rw [blockOf, hgone, Option.map_none]
      · rw [blockOf, hother p hp, blockOf]

theorem blocks_initial (storage : Storage) : Blocks cfg (initial cfg storage) where
  length := List.length_replicate
  addr o b hb := by cases o <;> cases hb
  conserved := .free _ fun o => by cases o <;> rfl

/-- The runner that is deleted returns its block. -/
theorem Blocks.delete (h : Blocks cfg s) {r : ℕ} {x : CopyRunner} (hx : s.runners.get? r = some x)
    (hr : s'.runners = s.runners.erase r) (hn : s'.nextBuffer = s.nextBuffer)
    (hu : s'.usedList = match x.buffer with
      | some b => cfg.heap.returnBlock s.usedList b
      | none => s.usedList) : Blocks cfg s' := by
  refine h.release (some r) ?_ (fun p hp => ?_) ?_
  · simp only [heldBy, hr, Store.get?_erase_self, Option.bind_none]
  · cases p with
    | none => exact hn
    | some j =>
      have hj : j ≠ r := fun hc => hp (congrArg some hc)
      simp only [heldBy, hr, Store.get?_erase_of_ne hj]
  · simpa only [heldBy, hx, Option.bind_some] using hu

theorem blocks_move (hm : Move cfg s l s') (hb : 0 < cfg.heap.blockSize) (ht : Threads cfg s)
    (ho : State.Owned s) (h : Blocks cfg s) : Blocks cfg s' := by
  cases hm with
  | start hm hs => exact h.of_runners rfl (ht.buffer (ht.idle hs)).symm fun _ => rfl
  | partPush =>
    refine h.of_runners rfl rfl fun r => ?_
    dsimp only [partStep]
    rw [Store.get?_push]
    split
    · rename_i hr
      rw [hr, s.runners.fresh _ le_rfl]
      rfl
    · rfl
  | fetch hp hn => exact h.fetch hb hn rfl rfl rfl
  | takeGive hp hs hr hf hout hx hn =>
    have hfresh := ho.fresh _ (by rw [hs]; exact List.mem_cons_self) _ hr
    exact h.give hr hfresh.buffer hn rfl rfl rfl
  | batch => exact h.of_runners rfl rfl (buffer_modify fun _ => rfl)
  | completion =>
    exact h.of_runners rfl rfl (buffer_modify fun _ => CopyRunner.onCompletionEvent_same.buffer)
  | deleteShared hp hr | deleteLast hp hr => exact h.delete hr rfl rfl rfl
  | submitReturn =>
    refine h.release none rfl (fun p hp => ?_) rfl
    cases p with
    | none => exact absurd rfl hp
    | some r => rfl
  | _ => exact ⟨h.length, h.addr, h.conserved⟩

theorem reachable_blocks {ok : State → Label → Prop} (hb : 0 < cfg.heap.blockSize)
    (h : (system cfg).ReachIn ok s) : Blocks cfg s := by
  refine h.invariant ?_ fun s l s' hr hs _ hstep => blocks_move (step_move hstep).2 hb
    (reachable_threads hr) (reachable_owned hr).1 hs
  rintro s ⟨storage, rfl⟩
  exact blocks_initial storage

/-! ## Without a submit thread -/

/-- Without a submit thread, no request is outstanding. -/
def Quiet (s : State) : Prop := s.submit.alive = false → tags s.sq s.chains s.cq = []

theorem quiet_move (hm : Move cfg s l s') (hring : State.Ring s) (hc : Counts s) (h : Quiet s) :
    Quiet s' := by
  cases hm with
  | kernel hi hcomp =>
    intro ha
    obtain ⟨e, rest, hreqs, -⟩ := Chain.complete_spec hcomp
    have hmem : e ∈ s.chains.flatMap Chain.reqs :=
      List.mem_flatMap.mpr ⟨_, List.mem_of_getElem? hi, by rw [hreqs]; exact List.mem_cons_self⟩
    have htag : e.tag ∈ tags s.sq s.chains s.cq :=
      List.mem_append_left _ (List.mem_map_of_mem (List.mem_append_right _ hmem))
    rw [h ha] at htag
    cases htag
  | submitReturn hp hd =>
    intro _
    rw [List.eq_nil_iff_forall_not_mem]
    intro t ht
    obtain ⟨x, hx⟩ := hring.live t ht
    rw [hc.none_of_isDone hd] at hx
    cases hx
  | completion =>
    intro ha
    dsimp only at ha
    split at ha <;> cases ha
  | _ =>
    first
    | exact h
    | exact fun ha => by cases ha
    | exact fun ha => by simp at ha

theorem reachable_quiet {ok : State → Label → Prop} (h : (system cfg).ReachIn ok s) : Quiet s := by
  refine h.invariant ?_ fun s l s' hr hs _ hstep => quiet_move (step_move hstep).2
    (reachable_ring hr) (reachable_owned hr).2 hs
  rintro s ⟨storage, rfl⟩
  exact fun _ => rfl

/-- Without a submit thread, nobody holds a block: the runners wait for their start. -/
theorem heldBy_of_not_alive {ok : State → Label → Prop} (h : (system cfg).ReachIn ok s)
    (ha : s.submit.alive = false) (o : Option ℕ) : heldBy s o = none := by
  cases o with
  | none => exact (reachable_threads h).buffer ha
  | some r =>
    cases hx : s.runners.get? r with
    | none => simp only [heldBy, hx, Option.bind_none]
    | some x =>
      have hj : x.jobsRunning = 0 := by
        rw [(reachable_ring h).jobs r x hx, reachable_quiet h ha]
        rfl
      obtain ⟨ho, hc⟩ := reachable_owned h
      have hmem := ho.waits r x hx hj
      rw [hc.continue_nil ha, hand_of_not_alive ha] at hmem
      simp only [List.append_nil, Option.toList_none] at hmem
      simp only [heldBy, hx, Option.bind_some]
      exact (ho.fresh r hmem x hx).buffer

/-- Blocks are conserved: each one marked used is held by the submit thread or by exactly one runner,
and each one held is marked used; no two runners share a buffer, and when `submitLoop` has returned
all blocks are free. -/
theorem blocks_conserved (hb : 0 < cfg.heap.blockSize) (h : (system cfg).Reachable s) :
    (∀ i, s.usedList[i]? = some true → ∃! o, heldBy s o = some (cfg.heap.blockAddr i)) ∧
    (∀ o b, heldBy s o = some b → ∃ i < cfg.heap.blocks, b = cfg.heap.blockAddr i ∧
      s.usedList[i]? = some true) ∧
    (∀ r r' x x' b, s.runners.get? r = some x → s.runners.get? r' = some x' →
      x.buffer = some b → x'.buffer = some b → r = r') ∧
    (s.submit = .returned → Heap.getFreeBlocksCount s.usedList = cfg.heap.blocks) := by
  have hblocks := reachable_blocks hb h
  -- two holders of one address hold one block
  have hunique : ∀ o o' b, heldBy s o = some b → heldBy s o' = some b → o = o' := by
    intro o o' b ho ho'
    refine hblocks.conserved.unique o o' (cfg.heap.blockIndex b) ?_ ?_
    · rw [blockOf, ho, Option.map_some]
    · rw [blockOf, ho', Option.map_some]
  refine ⟨fun i hi => ?_, fun o b hob => ?_, fun r r' x x' b hx hx' hxb hxb' => ?_, fun hp => ?_⟩
  · obtain ⟨o, ho⟩ := hblocks.conserved.owned i hi
    obtain ⟨b, hob, hbi⟩ := Option.map_eq_some_iff.mp ho
    have haddr := hblocks.addr o b hob
    rw [hbi] at haddr
    refine ⟨o, haddr ▸ hob, fun o' ho' => ?_⟩
    exact hunique o' o _ ho' (haddr ▸ hob)
  · have hused := hblocks.conserved.held o (cfg.heap.blockIndex b)
      (by rw [blockOf, hob, Option.map_some])
    have hlt := (List.getElem?_eq_some_iff.mp hused).1
    exact ⟨_, hblocks.length ▸ hlt, hblocks.addr o b hob, hused⟩
  · have hr : heldBy s (some r) = some b := by simp only [heldBy, hx, Option.bind_some, hxb]
    have hr' : heldBy s (some r') = some b := by simp only [heldBy, hx', Option.bind_some, hxb']
    exact Option.some.inj (hunique _ _ b hr hr')
  · have hnone := heldBy_of_not_alive h (by rw [hp]; rfl)
    rw [Heap.getFreeBlocksCount, hblocks.conserved.countP_free fun o => ?_]
    · exact hblocks.length
    · rw [blockOf, hnone o, Option.map_none]

theorem blocks_conserved_inFlight : ∃ s, (system smallConfig).Reachable s ∧
    s.usedList = [true, false] ∧ ∃! o, heldBy s o = some 64 := by
  obtain ⟨s, hs, hp⟩ := exists_of_run smallConfig (smallStorage 8) inFlightSteps
    (fun s => decide (s.usedList = [true, false])) (by decide +kernel)
  have hused := of_decide_eq_true hp
  exact ⟨s, hs, hused, (blocks_conserved (by decide) hs).1 0 (by rw [hused]; rfl)⟩

end CopyQueue

end Wcp
