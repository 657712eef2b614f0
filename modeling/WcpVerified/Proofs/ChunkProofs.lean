import WcpVerified.Library.Alignment
import WcpVerified.Proofs.FileProofs
import WcpVerified.Proofs.RoundProofs

/-!
# Proofs: the chunks of a job are well shaped

With a heap whose block size is a multiple of its alignment, and a block size of the file system
that is a power of two and not larger than a block, every chunk but the last of a file starts and
ends at a multiple of the file's block size.
-/

namespace Wcp

open MachineWord Alignment

/-- The heaps and files that the copy of a file is specified for. -/
structure Accepted (heap : Heap) (job : Job) : Prop where
  blockSize_dvd : heap.alignment ∣ heap.blockSize
  blockSize_lt : heap.blockSize < 2 ^ 31
  blksize_pow : ∃ k, job.stxBlksize = 2 ^ k
  blksize_le : job.stxBlksize ≤ heap.blockSize

variable {cfg : Config} {heap : Heap} {job : Job} {p : Part}

namespace Accepted

theorem blksize_pos (h : Accepted heap job) : 0 < job.stxBlksize := by
  obtain ⟨k, hk⟩ := h.blksize_pow
  rw [hk]
  exact Nat.two_pow_pos k

theorem chunkSize_dvd (h : Accepted heap job) :
    job.stxBlksize ∣ chunkSize heap job.stxBlksize := by
  unfold chunkSize
  split
  · exact Nat.dvd_mul_left _ _
  · rename_i hle
    -- of two powers of two, the smaller one divides the other
    obtain ⟨k, hk⟩ := h.blksize_pow
    obtain ⟨m, hm⟩ := heap.alignment_pow
    have hkm : k ≤ m := by
      by_contra hc
      have := Nat.pow_lt_pow_right (by omega : 1 < 2) (by omega : m < k)
      omega
    have hdvd : job.stxBlksize ∣ heap.alignment := by
      rw [hk, hm]
      exact Nat.pow_dvd_pow 2 hkm
    exact hdvd.trans h.blockSize_dvd

theorem chunkSize_le (h : Accepted heap job) :
    chunkSize heap job.stxBlksize ≤ heap.blockSize := by
  unfold chunkSize
  split
  · have hlt := h.blockSize_lt
    have hle := h.blksize_le
    have hpos := h.blksize_pos
    dsimp only
    rw [subU64_of_le (by omega) (by omega)]
    exact (Nat.div_mul_le_self _ _).trans (Nat.sub_le _ _)
  · exact le_refl _

end Accepted

/-- The runner of a part, as it is when it has been given its buffer. -/
def Part.runner (p : Part) (file buffer : ℕ) : CopyRunner :=
  (CopyRunner.create file p.offset p.size p.alignment).giveBuffer buffer

namespace CopyQueue

theorem IsPart.alignment_eq (h : IsPart cfg job p) (hs : job.stxSize ≠ 0) :
    p.alignment = job.stxBlksize := by
  have := congrArg Part.alignment h.eq
  rwa [partAt, if_neg hs] at this

theorem IsPart.size_pos (h : IsPart cfg job p) (hs : job.stxSize ≠ 0) : 0 < p.size := by
  have := h.size_eq_zero_iff
  omega

theorem IsPart.shaped (h : IsPart cfg job p) (hacc : Accepted cfg.heap job)
    (hs : job.stxSize ≠ 0) (file buffer : ℕ) : (p.runner file buffer).Shaped := by
  have halign := h.alignment_eq hs
  refine ⟨?_, ?_, h.size_pos hs, ?_⟩
  · show ∃ k, p.alignment = 2 ^ k
    exact halign ▸ hacc.blksize_pow
  · show p.alignment ∣ p.offset
    exact halign ▸ hacc.chunkSize_dvd.trans h.dvd
  · have hsize : p.size ≤ chunkSize cfg.heap job.stxBlksize := by
      rw [h.size_eq hs]
      exact Nat.min_le_left _ _
    have hup : alignUp p.alignment p.size ≤ chunkSize cfg.heap job.stxBlksize :=
      alignUp_le (halign ▸ hacc.chunkSize_dvd) hsize
    exact hup.trans_lt (hacc.chunkSize_le.trans_lt hacc.blockSize_lt)

/-- A chunk ends at a multiple of the block size, or at the end of the file. -/
theorem IsPart.end_dvd (h : IsPart cfg job p) (hacc : Accepted cfg.heap job)
    (hs : job.stxSize ≠ 0) :
    p.alignment ∣ p.offset + p.size ∨ p.offset + p.size = job.stxSize := by
  have hsize := h.size_eq hs
  have hlt := h.lt hs
  by_cases hc : chunkSize cfg.heap job.stxBlksize ≤ job.stxSize - p.offset
  · left
    rw [h.alignment_eq hs, hsize, Nat.min_eq_left hc]
    exact Nat.dvd_add (hacc.chunkSize_dvd.trans h.dvd) hacc.chunkSize_dvd
  · right
    omega

theorem smallJob_accepted (size : ℕ) : Accepted smallHeap (smallJob size) where
  blockSize_dvd := by decide
  blockSize_lt := by decide
  blksize_pow := ⟨2, rfl⟩
  blksize_le := (by decide : 4 ≤ 8)

end CopyQueue

end Wcp
