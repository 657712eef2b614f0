import WcpVerified.Proofs.PartitionProofs
import WcpVerified.Proofs.ChunkProofs

/-!
# Proofs: `addCopyJob`'s check against the assertions of `giveBuffer`

`giveBuffer` rounds the address of a block up to the alignment of the file, so a chunk has to leave
room for that. `addCopyJob` takes the room off the block size with an unsigned subtraction: where the
alignment is larger than a block, it wraps, and a chunk of nearly 2⁶⁴ bytes passes the check.
-/

namespace Wcp

open MachineWord Alignment

/-! ## The aligned address -/

/-- The mask of `giveBuffer` rounds up. -/
theorem alignBuffer_eq {b k : ℕ} (hk : k < 64) (hb : b + 2 ^ k ≤ 2 ^ 64) :
    CopyRunner.alignBuffer b (2 ^ k) = alignUp (2 ^ k) b := by
  have hpos : 0 < 2 ^ k := Nat.two_pow_pos k
  have hlt : 2 ^ k < 2 ^ 64 := Nat.pow_lt_pow_right (by decide) hk
  have hmask : subU64 0 (2 ^ k) = 2 ^ 64 - 2 ^ k := by
    unfold subU64
    rw [Nat.mod_eq_of_lt hlt]
    omega
  have hsum : addU64 (subU64 b 1) (2 ^ k) = b + 2 ^ k - 1 := by
    unfold addU64 subU64
    omega
  rw [CopyRunner.alignBuffer, hmask, hsum, and_mask hk.le (by omega), alignDown_add_pred hpos]

namespace Heap

variable {h : Heap} {i : ℕ}

theorem blockAddr_add_le (hi : i < h.blocks) : h.blockAddr i + h.blockSize ≤ 2 ^ 64 := by
  have hmul : h.blockSize * (i + 1) ≤ h.blocks * h.blockSize := by
    rw [Nat.mul_comm]
    exact Nat.mul_le_mul_right _ hi
  have harena := h.arena_le
  rw [Nat.mul_add, Nat.mul_one] at hmul
  unfold blockAddr
  omega

theorem dvd_blockAddr {a : ℕ} (ha : a ∣ h.alignment) (hdvd : h.alignment ∣ h.blockSize) (i : ℕ) :
    a ∣ h.blockAddr i :=
  Nat.dvd_add (ha.trans h.data_aligned) ((ha.trans hdvd).mul_right i)

end Heap

/-! ## The chunk size -/

variable {heap : Heap} {k : ℕ}

/-- Of two powers of two, the smaller one divides the other. -/
theorem pow_dvd_alignment (hle : 2 ^ k ≤ heap.alignment) : 2 ^ k ∣ heap.alignment := by
  obtain ⟨m, hm⟩ := heap.alignment_pow
  rw [hm] at hle ⊢
  exact Nat.pow_dvd_pow 2 ((Nat.pow_le_pow_iff_right (by decide)).mp hle)

theorem chunkSize_of_le (hle : 2 ^ k ≤ heap.alignment) : chunkSize heap (2 ^ k) = heap.blockSize := by
  rw [chunkSize, if_neg (by omega)]

/-- Where the block has room for the rounding, the chunk is what is left of it, rounded down. -/
theorem chunkSize_of_gt (hlt : heap.alignment < 2 ^ k) (hle : 2 ^ k ≤ heap.blockSize + 1)
    (hbs : heap.blockSize < 2 ^ 64) :
    chunkSize heap (2 ^ k) = alignDown (2 ^ k) (heap.blockSize + 1 - 2 ^ k) := by
  have hpos : 0 < 2 ^ k := Nat.two_pow_pos k
  rw [chunkSize, if_pos hlt]
  dsimp only
  rw [subU64_of_le (by omega) hbs, alignDown]
  congr 2
  omega

/-- Where it has not, the subtraction wraps. -/
theorem chunkSize_of_wrap (hk : k < 32) (hlt : heap.alignment < 2 ^ k)
    (hgt : heap.blockSize + 1 < 2 ^ k) : chunkSize heap (2 ^ k) = 2 ^ 64 - 2 ^ k := by
  have hle : 2 ^ k ≤ 2 ^ 31 := Nat.pow_le_pow_right (by decide) (by omega)
  have hsub : subU64 heap.blockSize (2 ^ k - 1) = 2 ^ 64 - (2 ^ k - 1 - heap.blockSize) := by
    unfold subU64
    omega
  have hdvd : 2 ^ k ∣ 2 ^ 64 - 2 ^ k :=
    Nat.dvd_sub (Nat.pow_dvd_pow 2 (by omega)) (Nat.dvd_refl _)
  rw [chunkSize, if_pos hlt]
  dsimp only
  rw [hsub]
  exact alignDown_eq hdvd (by omega) (by omega)

/-! ## The parts and the blocks -/

/-- If `addCopyJob`'s check passes, the chunk is not larger than a block and a multiple of the file's
block size, and so is the offset of every part; and every part can be given any block. -/
def CheckSuffices (cfg : Config) (job : Job) : Prop :=
  0 < chunkSize cfg.heap job.stxBlksize →
    chunkSize cfg.heap job.stxBlksize ≤ cfg.heap.blockSize ∧
    job.stxBlksize ∣ chunkSize cfg.heap job.stxBlksize ∧
    ∃ fuel parts, partLoop job.stxSize (chunkSize cfg.heap job.stxBlksize) fuel = some parts ∧
      ∀ p ∈ parts, job.stxBlksize ∣ p.1 ∧ ∀ file i, i < cfg.heap.blocks →
        CopyQueue.giveBufferFault cfg (.create file p.1 p.2 job.stxBlksize)
          (some (cfg.heap.blockAddr i)) = none

variable {cfg : Config} {job : Job}

/-- What the assertions of `giveBuffer` need of a chunk size. -/
structure Roomy (heap : Heap) (a chunk : ℕ) : Prop where
  le : chunk ≤ heap.blockSize
  dvd : a ∣ chunk
  room : ∀ i < heap.blocks, heap.blockAddr i + a ≤ 2 ^ 64 ∧
    alignUp a (heap.blockAddr i) + chunk ≤ heap.blockAddr i + heap.blockSize

theorem roomy_of_le (hdvd : heap.alignment ∣ heap.blockSize) (hle : 2 ^ k ≤ heap.alignment)
    (hpos : 0 < heap.blockSize) : Roomy heap (2 ^ k) heap.blockSize where
  le := le_refl _
  dvd := (pow_dvd_alignment hle).trans hdvd
  room i hi := by
    have haddr := heap.dvd_blockAddr (pow_dvd_alignment hle) hdvd i
    have hsmall := Nat.le_of_dvd hpos ((pow_dvd_alignment hle).trans hdvd)
    have hend := Heap.blockAddr_add_le hi
    rw [alignUp_of_dvd haddr]
    omega

theorem roomy_of_gt (hle : 2 ^ k ≤ heap.blockSize + 1)
    (hpos : 0 < alignDown (2 ^ k) (heap.blockSize + 1 - 2 ^ k)) :
    Roomy heap (2 ^ k) (alignDown (2 ^ k) (heap.blockSize + 1 - 2 ^ k)) where
  le := by
    have := alignDown_le (2 ^ k) (heap.blockSize + 1 - 2 ^ k)
    have := Nat.two_pow_pos k
    omega
  dvd := dvd_alignDown _ _
  room i hi := by
    have hdown := alignDown_le (2 ^ k) (heap.blockSize + 1 - 2 ^ k)
    have hsmall := Nat.le_of_dvd hpos (dvd_alignDown _ _)
    have hup := alignUp_lt (Nat.two_pow_pos k) (heap.blockAddr i)
    have hend := Heap.blockAddr_add_le hi
    omega

/-- A chunk size that passes the check leaves the room, unless the subtraction wraps. -/
theorem roomy_chunkSize (hdvd : heap.alignment ∣ heap.blockSize) (hbs : heap.blockSize < 2 ^ 64)
    (h : 2 ^ k ≤ heap.alignment ∨ 2 ^ k ≤ heap.blockSize + 1) (hc : 0 < chunkSize heap (2 ^ k)) :
    Roomy heap (2 ^ k) (chunkSize heap (2 ^ k)) := by
  by_cases hle : 2 ^ k ≤ heap.alignment
  · rw [chunkSize_of_le hle] at hc ⊢
    exact roomy_of_le hdvd hle hc
  · have hroom := h.resolve_left hle
    rw [chunkSize_of_gt (not_le.mp hle) hroom hbs] at hc ⊢
    exact roomy_of_gt hroom hc

/-- A part of at most such a chunk passes the assertions with every block. -/
theorem giveBufferFault_eq_none (hk : k < 64) {chunk : ℕ} (h : Roomy cfg.heap (2 ^ k) chunk)
    {offset size : ℕ} (hsize : size ≤ chunk) (file : ℕ) {i : ℕ} (hi : i < cfg.heap.blocks) :
    CopyQueue.giveBufferFault cfg (.create file offset size (2 ^ k))
      (some (cfg.heap.blockAddr i)) = none := by
  obtain ⟨hfit, hroom⟩ := h.room i hi
  have haligned : alignUp (2 ^ k) (cfg.heap.blockAddr i) % 2 ^ k = 0 :=
    Nat.mod_eq_zero_of_dvd (dvd_alignUp _ _)
  unfold CopyQueue.giveBufferFault
  by_cases hn : (CopyRunner.create file offset size (2 ^ k)).needsBuffer
  · rw [if_pos hn]
    show (if CopyRunner.alignBuffer (cfg.heap.blockAddr i) (2 ^ k) % 2 ^ k ≠ 0 then _
      else if cfg.heap.blockAddr i + cfg.heap.blockSize <
        CopyRunner.alignBuffer (cfg.heap.blockAddr i) (2 ^ k) + size then _ else _) = _
    rw [alignBuffer_eq hk hfit, if_neg (not_not.mpr haligned), if_neg (by omega)]
  · rw [if_neg hn]

theorem checkSuffices_of_roomy (hk : k < 64) (hblk : job.stxBlksize = 2 ^ k)
    (hs : job.stxSize < 2 ^ 64) (h : 0 < chunkSize cfg.heap job.stxBlksize →
      Roomy cfg.heap (2 ^ k) (chunkSize cfg.heap (2 ^ k))) : CheckSuffices cfg job := by
  intro hc
  have hroomy := h hc
  rw [hblk] at hc ⊢
  obtain ⟨parts, hloop, hparts⟩ := partLoop_partitions hs hc
  refine ⟨hroomy.le, hroomy.dvd, _, parts, hloop, fun p hp => ?_⟩
  obtain ⟨-, hsize, hdvd⟩ := hparts.cut p hp
  refine ⟨hroomy.dvd.trans hdvd, fun file i hi => ?_⟩
  exact giveBufferFault_eq_none hk hroomy (by omega) file hi

/-- `addCopyJob`'s check is enough for `giveBuffer` exactly when the file's block size is at most the
alignment of the heap, or a block has room to be aligned to it. -/
theorem check_suffices_iff (hdvd : cfg.heap.alignment ∣ cfg.heap.blockSize)
    (hbs : cfg.heap.blockSize < 2 ^ 64) (hblk : ∃ k < 32, job.stxBlksize = 2 ^ k)
    (hs : job.stxSize < 2 ^ 64) : CheckSuffices cfg job ↔
      job.stxBlksize ≤ cfg.heap.alignment ∨ job.stxBlksize ≤ cfg.heap.blockSize + 1 := by
  obtain ⟨k, hk, hblk⟩ := hblk
  constructor
  · intro h
    by_contra hnot
    rw [hblk, not_or, not_le, not_le] at hnot
    have hwrap := chunkSize_of_wrap hk hnot.1 hnot.2
    have hle : 2 ^ k ≤ 2 ^ 31 := Nat.pow_le_pow_right (by decide) (by omega)
    have hchunk := (h (by rw [hblk, hwrap]; omega)).1
    rw [hblk, hwrap] at hchunk
    omega
  · intro h
    refine checkSuffices_of_roomy (by omega) hblk hs fun hc => ?_
    rw [hblk] at h hc
    exact roomy_chunkSize hdvd hbs h hc

namespace CopyQueue

/-- A file system with blocks of four bytes, for blocks of eight. -/
theorem check_suffices_small : CheckSuffices smallConfig (smallJob 20) :=
  (check_suffices_iff (by decide) (by decide) ⟨2, by decide, rfl⟩ (by decide)).mpr
    (.inl (by decide))

/-- A file system whose blocks are larger than those of the heap: the chunk size is nearly 2⁶⁴, and the
check lets it pass. -/
theorem check_passes_wrapped : smallConfig.heap.alignment ∣ smallConfig.heap.blockSize ∧
    chunkSize smallConfig.heap 16 = 2 ^ 64 - 16 ∧
    ¬ CheckSuffices smallConfig { smallJob 20 with stxBlksize := 16 } := by
  refine ⟨by decide, by decide +kernel, fun h => ?_⟩
  exact absurd (h (by decide +kernel)).1 (by decide +kernel)

end CopyQueue

end Wcp
