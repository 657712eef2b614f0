import WcpVerified.Program
import WcpVerified.Proofs.BufferProofs
import WcpVerified.Proofs.FrameProofs
import WcpVerified.Proofs.HeapProofs
import WcpVerified.Proofs.PlacementProofs

/-!
# Proofs: the assertions about the queue's own data hold

The assertions about runners and the accesses to objects never fail. Those of `addCopyJob` and
`giveBuffer` are about the jobs: they hold if a chunk of the job, aligned to the block size of the
file system, fits in a block of the heap. For the queue of `wcpMain` these are the block sizes up to
64 MiB. What is left are the assertion of `start`, and those that a system call has not failed.
-/

namespace Wcp

open List Alignment

namespace CopyQueue

variable {cfg : Config} {s s' : State} {l : Label} {job : Job}

/-- A file with blocks of a size that the heap has room to be aligned to; for an empty file nothing is
allocated. -/
def Fitting (heap : Heap) (job : Job) : Prop :=
  job.stxSize = 0 ∨ ∃ k < 64, job.stxBlksize = 2 ^ k ∧ 0 < chunkSize heap (2 ^ k) ∧
    (2 ^ k ≤ heap.alignment ∨ 2 ^ k ≤ heap.blockSize + 1)

/-- The assertions of `giveBuffer` hold for a runner of such a file that has no buffer. -/
theorem giveBufferFault_of_fitting (hdvd : cfg.heap.alignment ∣ cfg.heap.blockSize)
    (hbs : cfg.heap.blockSize < 2 ^ 64) (hfit : Fitting cfg.heap job) {x : CopyRunner}
    (hpart : IsPart cfg job ⟨x.offset, x.size, x.alignment⟩) (hbuf : x.buffer = none) {i : ℕ}
    (hi : i < cfg.heap.blocks) : giveBufferFault cfg x (some (cfg.heap.blockAddr i)) = none := by
  by_cases hz : job.stxSize = 0
  · have hsize : x.size = 0 := hpart.size_eq_zero_iff.mpr hz
    simp [giveBufferFault, CopyRunner.needsBuffer, hsize]
  · obtain ⟨k, hk, hblk, hc, hle⟩ := hfit.resolve_left hz
    have halign : x.alignment = 2 ^ k := (hpart.alignment_eq hz).trans hblk
    have hsize : x.size ≤ chunkSize cfg.heap (2 ^ k) := by
      have heq : x.size = _ := hpart.size_eq hz
      rw [heq, hblk]
      exact Nat.min_le_left _ _
    have hnone : giveBufferFault cfg (.create x.file x.offset x.size (2 ^ k))
        (some (cfg.heap.blockAddr i)) = none :=
      giveBufferFault_eq_none hk (roomy_chunkSize hdvd hbs hle hc) hsize x.file hi
    rw [← hnone]
    simp only [giveBufferFault, CopyRunner.needsBuffer, hbuf, CopyRunner.giveBuffer,
      CopyRunner.create, halign]
    rfl

/-- What is found when the process aborts, in a run with such files only. -/
theorem fault_of_abortReason {fault : Fault} (hdvd : cfg.heap.alignment ∣ cfg.heap.blockSize)
    (hbs : cfg.heap.blockSize < 2 ^ 64) (hpos : 0 < cfg.heap.blockSize)
    {ok : State → Label → Prop} (hok : ∀ s l job, ok s l → l = .addCopyJob job → Fitting cfg.heap job)
    (hr : (system cfg).ReachIn ok s) (h : AbortReason cfg s fault) :
    fault = .startNotIdle ∨ fault = .submitFailed := by
  obtain ⟨hown, hcounts⟩ := reachable_owned hr
  have hshared := reachable_sharedFiles hr
  have hfits := reachIn_jobs hok hr
  have hexcluded := excluded_abort (reachable_ring hr) hown hcounts hshared h
  cases h with
  | startNotIdle => exact .inl rfl
  | submitFailed => exact .inr rfl
  | chunkSizeZero hm hz =>
    obtain ⟨f, hf, rfl, -⟩ := hshared.ctor _ _ (by rw [hm]; rfl)
    obtain ⟨k, -, hblk, hc, -⟩ := (hfits _ f hf).resolve_left hz.1
    rw [← hblk] at hc
    omega
  | @giveBuffer n r rest x fault hp hs hx hg =>
    have hmem : r ∈ s.copiesPendingStart := by
      rw [hs]
      exact mem_cons_self
    obtain ⟨b, hb⟩ := Option.isSome_iff_exists.mp (hcounts.taking n hp).2
    obtain ⟨f, hf⟩ := hshared.live r x hx
    have hblk := reachable_blocks hpos hr
    have hlt : cfg.heap.blockIndex b < cfg.heap.blocks := by
      have hheld := hblk.conserved.held none (cfg.heap.blockIndex b) (by simp [blockOf, heldBy, hb])
      rw [← hblk.length]
      exact (List.getElem?_eq_some_iff.mp hheld).1
    have hnone := giveBufferFault_of_fitting hdvd hbs (hfits _ f hf)
      (reachable_chunked hr r x f hx hf) (hown.fresh r hmem x hx).buffer hlt
    rw [← hblk.addr none b hb, ← hb, hg] at hnone
    cases hnone
  | dtor => cases hexcluded
  | submitJobs => cases hexcluded
  | startEmpty => cases hexcluded
  | dangling => cases hexcluded
  | danglingStart => cases hexcluded
  | danglingCqe => cases hexcluded
  | danglingFile => cases hexcluded

theorem reachIn_abort {fault : Fault} (hdvd : cfg.heap.alignment ∣ cfg.heap.blockSize)
    (hbs : cfg.heap.blockSize < 2 ^ 64) (hpos : 0 < cfg.heap.blockSize)
    {ok : State → Label → Prop} (hok : ∀ s l job, ok s l → l = .addCopyJob job → Fitting cfg.heap job)
    (h : (system cfg).ReachIn ok s) (hh : s.halted = some (.abort fault)) :
    fault = .startNotIdle ∨ fault = .submitFailed := by
  cases h with
  | init hi =>
    obtain ⟨st, rfl⟩ := hi
    cases hh
  | step hr hl hs =>
    obtain ⟨hrun, hm⟩ := step_move hs
    cases hm with
    | abort ha =>
      cases hh
      exact fault_of_abortReason hdvd hbs hpos hok hr ha
    | submitExit => cases hh
    | progressExit => cases hh
    | _ => exact absurd (hrun.symm.trans hh) (by simp)

end CopyQueue

/-! ## The queue of the program -/

namespace Machine

variable (m : Machine)

theorem dvd_blockSize : m.heap.alignment ∣ m.heap.blockSize := by
  show 4096 ∣ wcpBlockSize
  decide

/-- A block has room for a chunk aligned to any of these block sizes. -/
theorem chunkSize_pos {k : ℕ} (hk : k ≤ 26) : 0 < chunkSize m.heap (2 ^ k) := by
  have hle : 2 ^ k ≤ 2 ^ 26 := Nat.pow_le_pow_right (by decide) hk
  have hsize : m.heap.blockSize = 2 ^ 27 := rfl
  by_cases hsmall : 2 ^ k ≤ m.heap.alignment
  · rw [chunkSize_of_le hsmall, hsize]
    decide
  · rw [chunkSize_of_gt (not_le.mp hsmall) (by omega) (by omega), alignDown]
    exact Nat.mul_pos (Nat.div_pos (by omega) (Nat.two_pow_pos k)) (Nat.two_pow_pos k)

theorem fitting {job : Job} (h : job.stxSize = 0 ∨ ∃ k ≤ 26, job.stxBlksize = 2 ^ k) :
    CopyQueue.Fitting m.heap job := by
  refine h.imp_right fun ⟨k, hk, hblk⟩ => ?_
  have hle : 2 ^ k ≤ 2 ^ 26 := Nat.pow_le_pow_right (by decide) hk
  have hsize : m.heap.blockSize = 2 ^ 27 := rfl
  exact ⟨k, by omega, hblk, m.chunkSize_pos hk, .inr (by omega)⟩

end Machine

namespace CopyQueue

/-- The steps of the runs in which the files have blocks of at most 64 MiB. -/
def SmallBlocks (_ : State) (l : Label) : Prop :=
  ∀ job, l = .addCopyJob job → job.stxSize = 0 ∨ ∃ k ≤ 26, job.stxBlksize = 2 ^ k

/-- **The assertions about the queue's own data hold.** On every machine on which `wcpMain` can make its
queue, in every run, however the threads are interleaved, whatever fails and however little is
transferred: `addCopyJob` finds a chunk size, `giveBuffer` is given a block and the chunk fits in it
behind the alignment, no runner with requests outstanding is submitted or destroyed, the critical section
finds a runner to start, and nothing is used after it was destroyed. -/
theorem wcp_assertions_hold (m : Machine) (showingProgress : Bool) (strerror : Errno → List Char)
    {s : State} (h : (system (m.config showingProgress strerror)).ReachIn SmallBlocks s) :
    ∀ fault ∈ [Fault.chunkSizeZero, .bufferNull, .bufferMisaligned, .bufferOverrun, .submitJobsRunning,
      .dtorJobsRunning, .startEmpty, .useAfterFree], s.halted ≠ some (.abort fault) := by
  have hsize : m.heap.blockSize = 2 ^ 27 := rfl
  intro fault hmem hh
  have hfault : fault = .startNotIdle ∨ fault = .submitFailed := by
    refine reachIn_abort ?_ ?_ ?_ ?_ h hh
    · exact m.dvd_blockSize
    · show m.heap.blockSize < 2 ^ 64
      omega
    · show 0 < m.heap.blockSize
      omega
    · intro s l job hl hjob
      exact m.fitting (hl job hjob)
  rcases hfault with rfl | rfl
  · exact absurd hmem (by decide)
  · exact absurd hmem (by decide)

/-- A machine with 16 GiB. -/
def machine16 : Machine where
  ram := 16 * 1024 * 1024 * 1024
  data := 4096
  sqEntries := 16
  data_aligned := dvd_refl 4096
  arena_le := by decide +kernel
  sqEntries_ge := by decide +kernel
  sqEntries_lt := by decide

/-- A file with blocks of 64 MiB. -/
def hugeBlocksJob : Job := { src := ['a'], dest := ['b'], stxSize := 5000, stxBlksize := 2 ^ 26 }

/-- A runner of such a file has been given its buffer. -/
theorem wcp_assertions_hold_hugeBlocks :
    ∃ s, (system (machine16.config false fun _ => [])).ReachIn SmallBlocks s ∧
      s.submit = .starting 0 0 ∧ ∀ fault ∈ [Fault.chunkSizeZero, .bufferNull, .bufferMisaligned,
        .bufferOverrun, .submitJobsRunning, .dtorJobsRunning, .startEmpty, .useAfterFree],
        s.halted ≠ some (.abort fault) := by
  have hcheck : ∀ (s : State) l, onlyJobCheck hugeBlocksJob l = true → SmallBlocks s l := by
    rintro s l h job rfl
    rw [of_decide_eq_true h]
    exact .inr ⟨26, le_rfl, rfl⟩
  obtain ⟨s, hs, hp⟩ := Transition.System.ReachIn.exists_of_runIn hcheck
    (initial_init (machine16.config false fun _ => []) (smallStorage 8))
    (addJobSteps hugeBlocksJob (opensAs 1) (opensAs 2) ++ [.start, .join .return] ++ ticks 5)
    (fun s => decide (s.submit = .starting 0 0)) (by decide +kernel)
  exact ⟨s, hs, of_decide_eq_true hp, wcp_assertions_hold machine16 false (fun _ => []) hs⟩

end CopyQueue

end Wcp
