import WcpVerified.HeapClients
import WcpVerified.Proofs.HeapProofs

/-!
# Proofs: each block has one client at a time

`Slab` ties the flags to what the clients hold: a block is marked used exactly when its index is among
those held, and none is held twice. It is kept by the successful compare-exchange of a scan and by
`returnBlock`; a scan itself needs no invariant, as a thread takes a block only if its flag is clear
at that moment.
-/

namespace Wcp

namespace HeapClients

variable {h : Heap} {s s' : State}

/-- The indices `returnBlock` would recover for the blocks that are held. -/
def indices (h : Heap) (s : State) : List ℕ := s.held.map fun x => h.blockIndex x.2

/-- The flags say which blocks are held. -/
structure Slab (h : Heap) (s : State) : Prop where
  length : s.usedList.length = h.blocks
  addr : ∀ x ∈ s.held, x.2 = h.blockAddr (h.blockIndex x.2)
  nodup : (indices h s).Nodup
  used : ∀ i, s.usedList[i]? = some true ↔ i ∈ indices h s
  count : s.held.length + Heap.getFreeBlocksCount s.usedList = h.blocks

/-- What a step can do to the flags and to what is held. -/
theorem step_cases {l : Label} (hs : step h s l = some s') :
    (s'.usedList = s.usedList ∧ s'.held = s.held) ∨
    (∃ thread i, s.usedList[i]? = some false ∧ s'.usedList = s.usedList.set i true ∧
      s'.held = (thread, h.blockAddr i) :: s.held) ∨
    ∃ x ∈ s.held, s'.usedList = h.returnBlock s.usedList x.2 ∧ s'.held = s.held.erase x := by
  cases l with
  | getBlock thread =>
    rw [step] at hs
    split at hs
    · cases hs
      exact .inl ⟨rfl, rfl⟩
    · cases hs
  | scan thread =>
    rw [step] at hs
    split at hs
    · cases hs
    · rename_i i _
      split at hs
      · cases hs
        exact .inl ⟨rfl, rfl⟩
      · cases hs
        exact .inl ⟨rfl, rfl⟩
      · rename_i hfree
        cases hs
        exact .inr (.inl ⟨thread, i, hfree, rfl, rfl⟩)
  | returnBlock thread block =>
    rw [step] at hs
    split at hs
    · by_cases hmem : (thread, block) ∈ s.held
      · rw [if_pos hmem] at hs
        cases hs
        exact .inr (.inr ⟨(thread, block), hmem, rfl, rfl⟩)
      · rw [if_neg hmem] at hs
        cases hs
    · cases hs

theorem slab_fresh : Slab h (fresh h) where
  length := List.length_replicate
  addr x hx := absurd hx List.not_mem_nil
  nodup := List.nodup_nil
  used i := by
    show (List.replicate h.blocks false)[i]? = some true ↔ i ∈ []
    simp [List.getElem?_replicate]
  count := by
    show 0 + (List.replicate h.blocks false).countP (!·) = h.blocks
    simp [List.countP_replicate]

/-- A block whose flag was clear is taken. -/
theorem Slab.take (hI : Slab h s) (hb : 0 < h.blockSize) {thread i : ℕ}
    (hfree : s.usedList[i]? = some false) (hu : s'.usedList = s.usedList.set i true)
    (hheld : s'.held = (thread, h.blockAddr i) :: s.held) : Slab h s' := by
  have hidx : indices h s' = i :: indices h s := by
    rw [indices, hheld, List.map_cons, Heap.blockIndex_blockAddr hb]
    rfl
  obtain ⟨hlt, hflag⟩ := List.getElem?_eq_some_iff.mp hfree
  refine ⟨?_, ?_, ?_, ?_, ?_⟩
  · rw [hu, List.length_set, hI.length]
  · intro x hx
    rw [hheld] at hx
    rcases List.mem_cons.mp hx with rfl | hx
    · rw [Heap.blockIndex_blockAddr hb]
    · exact hI.addr x hx
  · rw [hidx]
    refine List.nodup_cons.mpr ⟨fun hmem => ?_, hI.nodup⟩
    rw [(hI.used i).mpr hmem] at hfree
    cases hfree
  · intro j
    rw [hu, hidx, List.mem_cons]
    by_cases hji : j = i
    · rw [hji, List.getElem?_set_self hlt]
      simp
    · rw [List.getElem?_set_ne (Ne.symm hji), hI.used j]
      simp [hji]
  · have hpos : 0 < s.usedList.countP (!·) :=
      List.countP_pos_iff.mpr ⟨_, List.getElem_mem hlt, by rw [hflag]; rfl⟩
    have hcount := hI.count
    rw [Heap.getFreeBlocksCount] at hcount
    rw [hheld, hu, Heap.getFreeBlocksCount, List.countP_set hlt, hflag, List.length_cons]
    simp only [Bool.not_false, Bool.not_true, if_true, Bool.false_eq_true, if_false]
    omega

/-- A block that is held is returned. -/
theorem Slab.give (hI : Slab h s) {x : ℕ × ℕ} (hx : x ∈ s.held)
    (hu : s'.usedList = h.returnBlock s.usedList x.2) (hheld : s'.held = s.held.erase x) :
    Slab h s' := by
  have hmem : h.blockIndex x.2 ∈ indices h s := List.mem_map_of_mem hx
  have hused := (hI.used _).mpr hmem
  obtain ⟨hlt, hflag⟩ := List.getElem?_eq_some_iff.mp hused
  have hperm : (indices h s).Perm (h.blockIndex x.2 :: indices h s') := by
    rw [indices, indices, hheld]
    exact (List.perm_cons_erase hx).map _
  obtain ⟨hgone, hnodup⟩ := List.nodup_cons.mp (hperm.nodup_iff.mp hI.nodup)
  refine ⟨?_, ?_, ?_, ?_, ?_⟩
  · rw [hu, Heap.returnBlock, List.length_set, hI.length]
  · intro y hy
    rw [hheld] at hy
    exact hI.addr y (List.mem_of_mem_erase hy)
  · exact hnodup
  · intro j
    rw [hu, Heap.returnBlock]
    by_cases hji : j = h.blockIndex x.2
    · rw [hji, List.getElem?_set_self hlt]
      simp [hgone]
    · rw [List.getElem?_set_ne (Ne.symm hji), hI.used j, hperm.mem_iff]
      simp [hji]
  · have hpos : 0 < s.held.length := List.length_pos_of_mem hx
    have hcount := hI.count
    rw [Heap.getFreeBlocksCount] at hcount
    rw [hheld, hu, Heap.getFreeBlocksCount, Heap.returnBlock, List.countP_set hlt, hflag,
      List.length_erase_of_mem hx]
    simp only [Bool.not_false, Bool.not_true, if_true, Bool.false_eq_true, if_false]
    omega

theorem reachable_slab (hb : 0 < h.blockSize) (hr : (system h).Reachable s) : Slab h s := by
  apply hr.invariant
  · intro s hs
    rw [show s = fresh h from hs]
    exact slab_fresh
  · intro s l s' _ hI _ hstep
    rcases step_cases hstep with ⟨hu, hheld⟩ | ⟨thread, i, hfree, hu, hheld⟩ | ⟨x, hx, hu, hheld⟩
    · have hidx : indices h s' = indices h s := by rw [indices, indices, hheld]
      exact ⟨hu ▸ hI.length, hheld ▸ hI.addr, hidx ▸ hI.nodup, fun i => by rw [hu, hidx, hI.used],
        by rw [hu, hheld, hI.count]⟩
    · exact hI.take hb hfree hu hheld
    · exact hI.give hx hu hheld

/-! ## A `getBlock` by itself -/

theorem getBlock_of_first {usedList : List Bool} {i : ℕ} (hfree : usedList[i]? = some false)
    (hbefore : ∀ j < i, usedList[j]? = some true) :
    h.getBlock usedList = (some (h.blockAddr i), usedList.set i true) := by
  obtain ⟨hlt, hflag⟩ := List.getElem?_eq_some_iff.mp hfree
  have hfind : usedList.findIdx? (!·) = some i := by
    refine List.findIdx?_eq_some_iff_getElem.mpr ⟨hlt, by simp [hflag], fun j hj => ?_⟩
    obtain ⟨_, hj'⟩ := List.getElem?_eq_some_iff.mp (hbefore j hj)
    simp [hj']
  rw [Heap.getBlock, hfind]

theorem getBlock_of_none {usedList : List Bool} {i : ℕ} (hend : usedList[i]? = none)
    (hbefore : ∀ j < i, usedList[j]? = some true) : h.getBlock usedList = (none, usedList) := by
  have hfind : usedList.findIdx? (!·) = none := by
    refine List.findIdx?_eq_none_iff.mpr fun u hu => ?_
    obtain ⟨j, hj⟩ := List.mem_iff_getElem?.mp hu
    have hlt := (List.getElem?_eq_some_iff.mp hj).1
    have hlen := List.getElem?_eq_none_iff.mp hend
    rw [hbefore j (by omega)] at hj
    cases hj
    rfl
  rw [Heap.getBlock, hfind]

/-- A scan that nothing interrupts does what `Heap.getBlock` does in one step. -/
theorem scan_alone (thread : ℕ) {i : ℕ} (hpc : s.threads thread = .scan i)
    (hbefore : ∀ j < i, s.usedList[j]? = some true) :
    ∃ n s', (system h).run s (List.replicate n (.scan thread)) = some s' ∧
      s'.threads thread = .outside (h.getBlock s.usedList).1 ∧
      s'.usedList = (h.getBlock s.usedList).2 := by
  induction hm : s.usedList.length - i generalizing s i with
  | zero =>
    have hend : s.usedList[i]? = none := List.getElem?_eq_none (by omega)
    refine ⟨1, s.goto thread (.outside none), ?_, ?_, ?_⟩
    · show ((step h s (.scan thread)).bind some) = _
      simp only [step, hpc, hend, Option.bind_some]
    · rw [getBlock_of_none hend hbefore]
      exact Function.update_self ..
    · rw [getBlock_of_none hend hbefore]
      rfl
  | succ m ih =>
    have hlt : i < s.usedList.length := by omega
    by_cases hflag : s.usedList[i] = true
    · have hused : s.usedList[i]? = some true := by rw [List.getElem?_eq_getElem hlt, hflag]
      obtain ⟨n, s', hrun, hres⟩ := ih (s := s.goto thread (.scan (i + 1)))
        (Function.update_self ..) (fun j hj => by
          by_cases hji : j = i
          · rw [hji]; exact hused
          · exact hbefore j (by omega))
        (by show s.usedList.length - (i + 1) = m; omega)
      refine ⟨n + 1, s', ?_, hres⟩
      show ((step h s (.scan thread)).bind _) = _
      simp only [step, hpc, hused, Option.bind_some]
      exact hrun
    · have hfree : s.usedList[i]? = some false := by
        rw [List.getElem?_eq_getElem hlt, Bool.eq_false_iff.mpr hflag]
      refine ⟨1, { s.goto thread (.outside (some (h.blockAddr i))) with
        usedList := s.usedList.set i true
        held := (thread, h.blockAddr i) :: s.held }, ?_, ?_, ?_⟩
      · show ((step h s (.scan thread)).bind some) = _
        simp only [step, hpc, hfree, Option.bind_some]
      · rw [getBlock_of_first hfree hbefore]
        exact Function.update_self ..
      · rw [getBlock_of_first hfree hbefore]

/-! ## What the clients see -/

theorem Slab.in_arena (hI : Slab h s) {x : ℕ × ℕ} (hx : x ∈ s.held) :
    h.data ≤ x.2 ∧ x.2 + h.blockSize ≤ h.data + h.blocks * h.blockSize := by
  have hlt : h.blockIndex x.2 < h.blocks := by
    rw [← hI.length]
    exact (List.getElem?_eq_some_iff.mp ((hI.used _).mpr (List.mem_map_of_mem hx))).1
  have hmul : h.blockSize * (h.blockIndex x.2 + 1) ≤ h.blocks * h.blockSize := by
    rw [Nat.mul_comm]
    exact Nat.mul_le_mul_right _ hlt
  rw [hI.addr x hx, Heap.blockAddr]
  rw [Nat.mul_add, Nat.mul_one] at hmul
  omega

/-- Blocks with different indices do not overlap. -/
theorem blocks_disjoint {i j : ℕ} (hij : i ≠ j) : h.blockAddr i + h.blockSize ≤ h.blockAddr j ∨
    h.blockAddr j + h.blockSize ≤ h.blockAddr i := by
  unfold Heap.blockAddr
  rcases Nat.lt_or_gt_of_ne hij with hlt | hlt
  · left
    have := Nat.mul_le_mul_left h.blockSize (Nat.succ_le_of_lt hlt)
    rw [Nat.mul_succ] at this
    omega
  · right
    have := Nat.mul_le_mul_left h.blockSize (Nat.succ_le_of_lt hlt)
    rw [Nat.mul_succ] at this
    omega

theorem Slab.pairwise_disjoint (hI : Slab h s) : s.held.Pairwise fun x y =>
    x.2 + h.blockSize ≤ y.2 ∨ y.2 + h.blockSize ≤ x.2 := by
  have hne : s.held.Pairwise fun x y => h.blockIndex x.2 ≠ h.blockIndex y.2 :=
    List.pairwise_map.mp hI.nodup
  refine hne.imp_of_mem fun {x y} hx hy hxy => ?_
  rw [hI.addr x hx, hI.addr y hy]
  exact blocks_disjoint hxy

theorem Slab.used_iff (hI : Slab h s) (hb : 0 < h.blockSize) (i : ℕ) :
    s.usedList[i]? = some true ↔ ∃ thread, (thread, h.blockAddr i) ∈ s.held := by
  rw [hI.used i]
  constructor
  · intro hmem
    obtain ⟨⟨thread, block⟩, hx, hidx⟩ := List.mem_map.mp hmem
    refine ⟨thread, ?_⟩
    have haddr : block = h.blockAddr i := by
      have := hI.addr _ hx
      rwa [show h.blockIndex block = i from hidx] at this
    exact haddr ▸ hx
  · rintro ⟨thread, hx⟩
    have := List.mem_map_of_mem (f := fun x : ℕ × ℕ => h.blockIndex x.2) hx
    rwa [Heap.blockIndex_blockAddr hb] at this

/-- In every run of any number of threads: the blocks held are disjoint ranges of the arena, their
flags are set and no others, `returnBlock` recovers the index that `getBlock` chose, blocks held and
blocks free add up, and a `getBlock` that runs alone does what `Heap.getBlock` does and returns null
only if all blocks are held. -/
theorem one_client_a_block (hb : 0 < h.blockSize) (hr : (system h).Reachable s) :
    s.held.Pairwise (fun x y => x.2 + h.blockSize ≤ y.2 ∨ y.2 + h.blockSize ≤ x.2) ∧
    (∀ x ∈ s.held, h.data ≤ x.2 ∧ x.2 + h.blockSize ≤ h.data + h.blocks * h.blockSize) ∧
    (∀ i, s.usedList[i]? = some true ↔ ∃ thread, (thread, h.blockAddr i) ∈ s.held) ∧
    (∀ i, h.blockIndex (h.blockAddr i) = i) ∧
    (∀ x ∈ s.held, ∃ i < h.blocks, x.2 = h.blockAddr i ∧ h.blockIndex x.2 = i) ∧
    s.held.length + Heap.getFreeBlocksCount s.usedList = h.blocks ∧
    ∀ thread result, s.threads thread = .outside result →
      ∃ n s', (system h).run s (.getBlock thread :: List.replicate n (.scan thread)) = some s' ∧
        s'.threads thread = .outside (h.getBlock s.usedList).1 ∧
        s'.usedList = (h.getBlock s.usedList).2 ∧
        ((h.getBlock s.usedList).1 = none →
          ∀ i < h.blocks, ∃ client, (client, h.blockAddr i) ∈ s.held) := by
  have hI := reachable_slab hb hr
  refine ⟨hI.pairwise_disjoint, fun x hx => hI.in_arena hx, hI.used_iff hb,
    Heap.blockIndex_blockAddr hb, fun x hx => ?_, hI.count, fun thread result hpc => ?_⟩
  · have hused := (hI.used _).mpr (List.mem_map_of_mem hx)
    exact ⟨_, hI.length ▸ (List.getElem?_eq_some_iff.mp hused).1, hI.addr x hx, rfl⟩
  · obtain ⟨n, s', hrun, hres, hu⟩ := scan_alone (h := h) (s := s.goto thread (.scan 0)) thread
      (Function.update_self ..) (fun j hj => absurd hj (Nat.not_lt_zero j))
    refine ⟨n, s', ?_, hres, hu, fun hnull i hi => ?_⟩
    · show ((step h s (.getBlock thread)).bind _) = _
      simp only [step, hpc, Option.bind_some]
      exact hrun
    · rw [← hI.used_iff hb]
      rcases Heap.getBlock_cases h s.usedList with ⟨j, -, hget⟩ | ⟨-, hall⟩
      · rw [hget] at hnull
        cases hnull
      · have hlt : i < s.usedList.length := hI.length ▸ hi
        rw [List.getElem?_eq_getElem hlt, hall _ (List.getElem_mem hlt)]

/-- Two threads of which each gets one of the two blocks of a heap, the second after it found the
first one taken. -/
def twoClients : List Label :=
  [.getBlock 0, .getBlock 1, .scan 0, .scan 1, .scan 1]

/-- A heap of two blocks. -/
def twoBlocks : Heap where
  blocks := 2
  blockSize := 4096
  alignment := 4096
  data := 8192
  alignment_pow := ⟨12, rfl⟩
  data_aligned := ⟨2, rfl⟩
  arena_le := by decide

theorem twoClients_disjoint : ∃ s, (system twoBlocks).run (fresh twoBlocks) twoClients = some s ∧
    s.held = [(1, 12288), (0, 8192)] ∧
    s.held.length + Heap.getFreeBlocksCount s.usedList = 2 := by
  have hs : ∃ s, (system twoBlocks).run (fresh twoBlocks) twoClients = some s ∧
      s.held = [(1, 12288), (0, 8192)] := ⟨_, rfl, rfl⟩
  obtain ⟨s, hrun, hheld⟩ := hs
  have hreach : (system twoBlocks).Reachable s :=
    Transition.System.ReachIn.of_runIn (fun _ _ _ => trivial) (.init rfl) hrun
  exact ⟨s, hrun, hheld, (one_client_a_block (by decide) hreach).2.2.2.2.2.1⟩

end HeapClients

end Wcp
