import WcpVerified.Proofs.FileProofs

/-!
# Proofs: the parts of a file and the tracker they share

The loop of `addCopyJob` cuts a file into consecutive parts, as many as `chunkCount` says. While they
are created by the adding thread and destroyed by the submit thread, the tracker counts those that are
left, and the part that is destroyed last deletes it together with the descriptors.
-/

namespace Wcp

open MachineWord List

/-! ## The loop -/

/-- Parts that follow one another from `a` to `b`. -/
def Consecutive : (a : ℕ) → List (ℕ × ℕ) → (b : ℕ) → Prop
  | a, [], b => a = b
  | a, (offset, count) :: parts, b => offset = a ∧ Consecutive (a + count) parts b

/-- The parts of a file of `size` bytes from `offset` on. -/
structure Partitions (offset size chunk : ℕ) (parts : List (ℕ × ℕ)) : Prop where
  consecutive : Consecutive offset parts size
  nonempty : ∀ p ∈ parts, 0 < p.2
  full : ∀ p ∈ parts.dropLast, p.2 = chunk
  cut : ∀ p ∈ parts, (offset ≤ p.1 ∧ p.1 < size) ∧ p.2 = min chunk (size - p.1) ∧
    chunk ∣ p.1 - offset
  length : parts.length = chunkCount (size - offset) chunk

variable {size chunk offset : ℕ}

theorem partitions_nil : Partitions size size chunk [] where
  consecutive := rfl
  nonempty p hp := absurd hp not_mem_nil
  full p hp := absurd hp not_mem_nil
  cut p hp := absurd hp not_mem_nil
  length := by rw [Nat.sub_self, chunkCount_zero]; rfl

/-- One more part in front. It is shorter than the others only if it is the last. -/
theorem Partitions.cons {parts : List (ℕ × ℕ)} (hc : 0 < chunk) (hlt : offset < size)
    (h : Partitions (offset + min chunk (size - offset)) size chunk parts) :
    Partitions offset size chunk ((offset, min chunk (size - offset)) :: parts) where
  consecutive := ⟨rfl, h.consecutive⟩
  nonempty p hp := by
    rcases mem_cons.mp hp with rfl | hp
    · show 0 < min chunk (size - offset)
      omega
    · exact h.nonempty p hp
  full p hp := by
    cases parts with
    | nil => exact absurd hp not_mem_nil
    | cons q parts =>
      rw [dropLast_cons_of_ne_nil (cons_ne_nil q parts)] at hp
      rcases mem_cons.mp hp with rfl | hp
      · -- a part that reaches the end would leave nothing behind it
        by_contra hne
        have hend : offset + min chunk (size - offset) = size := by
          have : min chunk (size - offset) ≠ chunk := hne
          omega
        have hlen := h.length
        rw [hend, Nat.sub_self, chunkCount_zero] at hlen
        cases hlen
      · exact h.full p hp
  cut p hp := by
    rcases mem_cons.mp hp with rfl | hp
    · exact ⟨⟨le_refl _, hlt⟩, rfl, by rw [Nat.sub_self]; exact dvd_zero _⟩
    · obtain ⟨⟨hge, hlt'⟩, hsize, hdvd⟩ := h.cut p hp
      have hmin : min chunk (size - offset) = chunk := by omega
      rw [hmin] at hge hdvd
      refine ⟨⟨by omega, hlt'⟩, hsize, ?_⟩
      rw [show p.1 - offset = p.1 - (offset + chunk) + chunk by omega]
      exact Nat.dvd_add hdvd (Nat.dvd_refl chunk)
  length := by
    rw [length_cons, h.length, chunkCount_succ hc (by omega : 0 < size - offset), Nat.sub_sub]

/-- The loop from some offset on. -/
theorem partLoop_run (hs : size < 2 ^ 64) (hc : 0 < chunk) (n : ℕ) (hle : offset ≤ size)
    (hn : chunkCount (size - offset) chunk = n) (acc : List (ℕ × ℕ)) :
    ∃ parts, Partitions offset size chunk parts ∧
      WhileLoop.run (fun p : ℕ × List (ℕ × ℕ) => p.1 != size)
        (fun p =>
          let count := min chunk (subU64 size p.1)
          (addU64 p.1 count, p.2 ++ [(p.1, count)]))
        (n + 1) (offset, acc) = some (size, acc ++ parts) := by
  induction n generalizing offset acc with
  | zero =>
    have hend : offset = size := by
      by_contra hne
      rw [chunkCount_succ hc (by omega : 0 < size - offset)] at hn
      cases hn
    subst hend
    refine ⟨[], partitions_nil, ?_⟩
    rw [WhileLoop.run, if_neg (by simp), append_nil]
  | succ n ih =>
    have hlt : offset < size := by
      by_contra hge
      have hend : size - offset = 0 := by omega
      rw [hend, chunkCount_zero] at hn
      cases hn
    rw [chunkCount_succ hc (by omega : 0 < size - offset), Nat.sub_sub] at hn
    obtain ⟨parts, hparts, hrun⟩ := ih (by omega : offset + min chunk (size - offset) ≤ size)
      (Nat.succ.inj hn) (acc ++ [(offset, min chunk (size - offset))])
    refine ⟨_, hparts.cons hc hlt, ?_⟩
    have hcond : ((offset, acc).1 != size) = true := bne_iff_ne.mpr hlt.ne
    rw [WhileLoop.run, if_pos hcond]
    dsimp only
    rw [subU64_of_le hle hs, addU64_of_lt (by omega), hrun, append_assoc]
    rfl

/-- The loop returns, and what it adds are the parts of the file. -/
theorem partLoop_partitions (hs : size < 2 ^ 64) (hc : 0 < chunk) :
    ∃ parts, partLoop size chunk (chunkCount size chunk + 1) = some parts ∧
      Partitions 0 size chunk parts := by
  obtain ⟨parts, hparts, hrun⟩ := partLoop_run hs hc _ (Nat.zero_le size) rfl []
  refine ⟨parts, ?_, hparts⟩
  rw [partLoop]
  rw [Nat.sub_zero] at hrun
  rw [hrun]
  rfl

namespace CopyQueue

variable {cfg : Config} {s s' : State} {l : Label}

/-- The parts of the loop are those that the main thread adds in a run of the queue. -/
theorem partAt_of_partitions {heap : Heap} {job : Job} {parts : List (ℕ × ℕ)}
    (hs : job.stxSize ≠ 0)
    (h : Partitions 0 job.stxSize (chunkSize heap job.stxBlksize) parts) {p : ℕ × ℕ}
    (hp : p ∈ parts) : partAt heap job p.1 = ⟨p.1, p.2, job.stxBlksize⟩ := by
  rw [partAt, if_neg hs, (h.cut p hp).2.1]

/-! ## The tracker -/

/-- A step keeps all runners and all objects of jobs. -/
structure KeepsObjects (s s' : State) : Prop where
  files : ∀ i, s'.files.get? i = none ↔ s.files.get? i = none
  next : s'.files.next = s.files.next
  runners : ∀ r, s'.runners.get? r = none → s.runners.get? r = none

/-- A step destroys a runner, and the objects of its job if it was the last one. -/
structure Destroys (s s' : State) (r : ℕ) (x : CopyRunner) (f : JobFiles) : Prop where
  runner : s.runners.get? r = some x
  file : s.files.get? x.file = some f
  runners : s'.runners = s.runners.erase r
  files : (f.chunksRemaining ≠ 1 ∧ s'.files = s.files.modify x.file fun y =>
      { y with chunksRemaining := y.chunksRemaining - 1 }) ∨
    f.chunksRemaining = 1 ∧ s'.files = s.files.erase x.file

/-- What a step can do to the runners and to the objects of the jobs. -/
theorem objects_move (hm : Move cfg s l s') :
    KeepsObjects s s' ∨ (∃ job, s'.files = s.files.push (.create job)) ∧ s'.runners = s.runners ∨
      ∃ r x f, Destroys s s' r x f := by
  cases hm with
  | addCopyJob => exact .inr (.inl ⟨⟨_, rfl⟩, rfl⟩)
  | deleteShared hp hr hf hj h1 => exact .inr (.inr ⟨_, _, _, hr, hf, rfl, .inl ⟨h1, rfl⟩⟩)
  | deleteLast hp hr hf hj h1 => exact .inr (.inr ⟨_, _, _, hr, hf, rfl, .inr ⟨h1, rfl⟩⟩)
  | ctorOpened | ctorFailed | beginParts | opened | openFailed | close | notify =>
    exact .inl ⟨fun i => Store.get?_modify_eq_none, rfl, fun r h => h⟩
  | takeGive | batch | completion =>
    exact .inl ⟨fun i => Iff.rfl, rfl, fun r h => Store.get?_modify_eq_none.mp h⟩
  | partPush =>
    refine .inl ⟨fun i => Iff.rfl, rfl, fun r h => ?_⟩
    cases hr : s.runners.get? r with
    | none => rfl
    | some x => exact absurd ((Store.get?_push_of_some hr).symm.trans h) (Option.some_ne_none x)
  | _ => exact .inl ⟨fun i => Iff.rfl, rfl, fun r h => h⟩

/-- The tracker of a job whose constructors have returned counts the parts that are left. -/
theorem tracker_eq (h : State.SharedFiles cfg s) {i : ℕ} {f : JobFiles}
    (hf : s.files.get? i = some f) : f.chunksRemaining =
      runnersOf s.runners i + pendingParts cfg (building s.main) i := h.chunks i f hf

/-- The objects of a job are deleted by its last runner only. -/
theorem deleted_by_last (h : State.SharedFiles cfg s) (hm : Move cfg s l s') {i : ℕ}
    (hlive : s.files.get? i ≠ none) (hgone : s'.files.get? i = none) :
    ∃ r x, s.runners.get? r = some x ∧ x.file = i ∧ s'.runners = s.runners.erase r ∧
      runnersOf s.runners i + pendingParts cfg (building s.main) i = 1 := by
  rcases objects_move hm with hk | ⟨⟨job, hpush⟩, -⟩ | ⟨r, x, f, hd⟩
  · exact absurd ((hk.files i).mp hgone) hlive
  · obtain ⟨f, hf⟩ := Option.ne_none_iff_exists'.mp hlive
    rw [hpush, Store.get?_push_of_some hf] at hgone
    cases hgone
  · rcases hd.files with ⟨-, hfiles⟩ | ⟨h1, hfiles⟩
    · rw [hfiles, Store.get?_modify_eq_none] at hgone
      exact absurd hgone hlive
    · have hi : i = x.file := by
        by_contra hne
        rw [hfiles, Store.get?_erase_of_ne hne] at hgone
        exact hlive hgone
      refine ⟨r, x, hd.runner, hi.symm, hd.runners, ?_⟩
      rw [hi, ← tracker_eq h hd.file, h1]

/-- A runner that is destroyed deletes the objects of its job exactly if no other part is left. -/
theorem last_deletes (h : State.SharedFiles cfg s) (hm : Move cfg s l s') {r : ℕ} {x : CopyRunner}
    (hx : s.runners.get? r = some x) (hgone : s'.runners.get? r = none) :
    s'.files.get? x.file = none ↔
      runnersOf s.runners x.file + pendingParts cfg (building s.main) x.file = 1 := by
  rcases objects_move hm with hk | ⟨-, hsame⟩ | ⟨r', x', f, hd⟩
  · rw [hk.runners r hgone] at hx
    cases hx
  · rw [hsame, hx] at hgone
    cases hgone
  · have hr : r = r' := by
      by_contra hne
      rw [hd.runners, Store.get?_erase_of_ne hne, hx] at hgone
      cases hgone
    have hxx : x' = x := by
      have := hd.runner
      rw [← hr, hx] at this
      exact (Option.some.inj this).symm
    have hfile := hxx ▸ hd.file
    rw [← tracker_eq h hfile]
    rcases hxx ▸ hd.files with ⟨h1, hfiles⟩ | ⟨h1, hfiles⟩
    · rw [hfiles, Store.get?_modify_eq_none, hfile]
      simp [h1]
    · rw [hfiles, Store.get?_erase_self]
      simp [h1]

/-- Objects that were deleted are not created again. -/
theorem deleted_stays (hm : Move cfg s l s') {i : ℕ} (hlt : i < s.files.next)
    (hgone : s.files.get? i = none) : i < s'.files.next ∧ s'.files.get? i = none := by
  rcases objects_move hm with hk | ⟨⟨job, hpush⟩, -⟩ | ⟨r, x, f, hd⟩
  · exact ⟨hk.next ▸ hlt, (hk.files i).mpr hgone⟩
  · rw [hpush, Store.get?_push, if_neg (by omega)]
    exact ⟨Nat.lt_succ_of_lt hlt, hgone⟩
  · rcases hd.files with ⟨-, hfiles⟩ | ⟨-, hfiles⟩
    · rw [hfiles]
      exact ⟨hlt, Store.get?_modify_eq_none.mpr hgone⟩
    · rw [hfiles, Store.get?_erase]
      refine ⟨hlt, ?_⟩
      split
      · rfl
      · exact hgone

/-- The loop of `addCopyJob` returns for every size and chunk size, with parts that are not empty,
follow one another from 0 to the end of the file, are full but for the last, and are as many as
`chunkCount`; they are the parts that the main thread adds. In every run of the queue the tracker is
that number before any part exists, and from then on counts the parts that exist or are still to be
created; the objects of a job exist as long as one of its parts does, and are deleted once, by the
part destroyed last. -/
theorem parts_and_tracker (hreach : (system cfg).Reachable s) :
    (∀ stxSize chunk, 1 ≤ stxSize → stxSize ≤ 2 ^ 63 - 1 → 0 < chunk →
      chunkCount stxSize chunk < 2 ^ 31 →
      ∃ fuel parts, partLoop stxSize chunk fuel = some parts ∧ Consecutive 0 parts stxSize ∧
        (∀ p ∈ parts, 0 < p.2) ∧ (∀ p ∈ parts.dropLast, p.2 = chunk) ∧
        parts.length = chunkCount stxSize chunk) ∧
    (∀ job : Job, 1 ≤ job.stxSize → job.stxSize ≤ 2 ^ 63 - 1 →
      0 < chunkSize cfg.heap job.stxBlksize →
      ∃ fuel parts, partLoop job.stxSize (chunkSize cfg.heap job.stxBlksize) fuel = some parts ∧
        ∀ p ∈ parts, partAt cfg.heap job p.1 = ⟨p.1, p.2, job.stxBlksize⟩) ∧
    (∀ i job p, s.main = .part i job p .total → p = partAt cfg.heap job 0 →
      runnersOf s.runners i = 0 → ∃ f, s.files.get? i = some f ∧
        f.chunksRemaining = if job.stxSize = 0 then 1
          else chunkCount job.stxSize (chunkSize cfg.heap job.stxBlksize)) ∧
    (∀ i f, s.files.get? i = some f →
      f.chunksRemaining = runnersOf s.runners i + pendingParts cfg (building s.main) i) ∧
    (∀ r x, s.runners.get? r = some x → s.files.get? x.file ≠ none) ∧
    s.halted ≠ some (.abort .useAfterFree) ∧
    (∀ i f, s.files.get? i = some f → (∀ job, building s.main ≠ some (i, job, none)) →
      0 < runnersOf s.runners i + pendingParts cfg (building s.main) i) ∧
    ∀ l s', (system cfg).step s l = some s' →
      (∀ i, s.files.get? i ≠ none → s'.files.get? i = none →
        ∃ r x, s.runners.get? r = some x ∧ x.file = i ∧ s'.runners = s.runners.erase r ∧
          runnersOf s.runners i + pendingParts cfg (building s.main) i = 1) ∧
      (∀ r x, s.runners.get? r = some x → s'.runners.get? r = none →
        (s'.files.get? x.file = none ↔
          runnersOf s.runners x.file + pendingParts cfg (building s.main) x.file = 1)) ∧
      ∀ i < s.files.next, s.files.get? i = none → i < s'.files.next ∧ s'.files.get? i = none := by
  have hsh := reachable_sharedFiles hreach
  refine ⟨fun stxSize chunk h1 h63 hc _ => ?_, fun job h1 h63 hc => ?_,
    fun i job p hm hp hnone => ?_, fun i f hf => tracker_eq hsh hf, fun r x hx => ?_, reachable_not_excluded hreach _ rfl,
    fun i f hf hctor => ?_, fun l s' hstep => ?_⟩
  · obtain ⟨parts, hloop, hparts⟩ := partLoop_partitions (by omega : stxSize < 2 ^ 64) hc
    exact ⟨_, parts, hloop, hparts.consecutive, hparts.nonempty, hparts.full, hparts.length⟩
  · obtain ⟨parts, hloop, hparts⟩ := partLoop_partitions (by omega : job.stxSize < 2 ^ 64) hc
    exact ⟨_, parts, hloop, fun p hp => partAt_of_partitions (by omega) hparts hp⟩
  · obtain ⟨hpart, f, hf, -⟩ := hsh.part i job p (by rw [hm]; rfl)
    refine ⟨f, hf, ?_⟩
    have hoff : p.offset = 0 := by
      rw [hp, partAt]
      split <;> rfl
    rw [tracker_eq hsh hf, hnone, hm]
    show 0 + pendingParts cfg (some (i, job, some p)) i = _
    rw [pendingParts_part, if_pos rfl, hoff, partsFrom_zero, Nat.zero_add]
    rfl
  · obtain ⟨f, hf⟩ := hsh.live r x hx
    rw [hf]
    exact Option.some_ne_none f
  · rw [← tracker_eq hsh hf]
    rcases hsh.pos i f hf with hpos | ⟨job, hb⟩
    · exact hpos
    · exact absurd hb (hctor job)
  · have hm := (step_move hstep).2
    exact ⟨fun i => deleted_by_last hsh hm, fun r x => last_deletes hsh hm,
      fun i => deleted_stays hm⟩

/-- Of the three parts of a file one has been created. -/
theorem parts_and_tracker_first : ∃ s f, (system smallConfig).Reachable s ∧
    s.files.get? 0 = some f ∧ f.chunksRemaining = 3 ∧
    runnersOf s.runners 0 + pendingParts smallConfig (building s.main) 0 = 3 ∧
    ∃ fuel parts, partLoop 20 8 fuel = some parts ∧ parts.length = 3 := by
  obtain ⟨s, hs, hp⟩ := exists_of_run smallConfig (smallStorage 20)
    (addJobSteps (smallJob 20) (opensAs 1) (opensAs 2))
    (fun s => (s.files.get? 0).any (·.chunksRemaining == 3)) (by decide +kernel)
  simp only [Option.any_eq_true, beq_iff_eq] at hp
  obtain ⟨f, hf, hthree⟩ := hp
  obtain ⟨hloop, -, -, hcount, -⟩ := parts_and_tracker hs
  obtain ⟨fuel, parts, hrun, -, -, -, hlen⟩ := hloop 20 8 (by decide) (by decide) (by decide)
    (by decide)
  exact ⟨s, f, hs, hf, hthree, (hcount 0 f hf).symm.trans hthree, fuel, parts, hrun, hlen⟩

end CopyQueue

end Wcp
