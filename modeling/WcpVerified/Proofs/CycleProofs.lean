import WcpVerified.Library.Inevitable
import WcpVerified.Proofs.ChunkProofs
import Mathlib

/-!
# Proofs: where the rounds of a runner lead

The rounds of one runner, with both debug modes off, against a source of a fixed length: shorter
than the chunk wants it, exactly as long as it was, or longer.
-/

namespace Wcp

open MachineWord Alignment ByteImage Transition

/-- The kernel answers a read with everything there is, up to the count asked for, or with a count
that `short` allows; and every write it runs writes something. -/
def answers (short : ℤ → Prop) : Policy := fun e st res =>
  match e.op, e.fd with
  | .read, some ino => res = (min e.len ((st.disk ino).length - e.off) : ℕ) ∨ short res
  | .write, _ => 0 < res
  | _, _ => True

/-- Every read is answered in full. -/
def fullReads : Policy := answers fun _ => False

/-- A read is answered in full, or with at least `alignment` bytes. -/
def shortReads (alignment : ℕ) : Policy := answers fun res => (alignment : ℤ) ≤ res

theorem Sqe.mayReturn_read {e : Sqe} {ino : Ino} {st : Storage} {res : ℤ} (hop : e.op = .read)
    (hfd : e.fd = some ino) (h0 : 0 ≤ res) :
    e.mayReturn st res = true ↔
      res ≤ e.len ∧ res ≤ ((st.disk ino).length - e.off : ℕ) ∧ res < 2 ^ 31 := by
  have hneg : ¬ res < 0 := by omega
  simp [mayReturn, hop, hfd, hneg, and_assoc]

theorem Sqe.mayReturn_write {e : Sqe} {ino : Ino} {st : Storage} {res : ℤ} (hop : e.op = .write)
    (hfd : e.fd = some ino) (h0 : 0 ≤ res) :
    e.mayReturn st res = true ↔ res ≤ e.len ∧ res < 2 ^ 31 := by
  have hneg : ¬ res < 0 := by omega
  simp [mayReturn, hop, hfd, hneg]

namespace CopyRunner

variable {x : CopyRunner} {env : RunnerEnv} {short : ℤ → Prop} {st st' : Storage} {ro wo : ℕ}
  {y : CopyRunner}

/-- The runner after some rounds: only its two positions change. -/
def moved (x : CopyRunner) (ro wo : ℕ) : CopyRunner :=
  { x with readOffset := ro, writeOffset := wo }

/-- A runner that has been given its buffer and not been started. -/
structure Unstarted (x : CopyRunner) : Prop where
  jobs : x.jobsRunning = 0
  error : x.savedError = none
  read : x.readOffset = x.offset
  write : x.writeOffset = x.offset

theorem Unstarted.moved_eq (h : x.Unstarted) : x.moved x.offset x.offset = x := by
  cases x with
  | mk =>
    have hr := h.read
    have hw := h.write
    simp only at hr hw
    subst hr
    subst hw
    rfl

theorem Unstarted.idle (h : x.Unstarted) (hr : x.offset ≤ ro) (hw : wo < x.chunkEnd) :
    (x.moved ro wo).Idle := ⟨h.jobs, h.error, hw, hr⟩

/-! ## Reads and writes that the kernel can answer -/

theorem mayReturn_readReq {len : ℕ} {res : ℤ} (h0 : 0 ≤ res) :
    (x.readReq env len).mayReturn st res = true ↔
      res ≤ len ∧ res ≤ ((st.disk env.source).length - x.readOffset : ℕ) ∧ res < 2 ^ 31 :=
  Sqe.mayReturn_read rfl rfl h0

theorem mayReturn_writeReq {res : ℤ} (h0 : 0 ≤ res) :
    (x.writeReq env).mayReturn st res = true ↔
      res ≤ (x.chunkEnd - x.writeOffset : ℕ) ∧ res < 2 ^ 31 :=
  Sqe.mayReturn_write rfl rfl h0

/-- A read can be answered in full. -/
theorem ran_read_full {len : ℕ} (hlen : len < 2 ^ 31) :
    Chain.Ran (answers short) (x.readReq env len) st
      (min len ((st.disk env.source).length - x.readOffset) : ℕ) :=
  ⟨.inl rfl, (mayReturn_readReq (by omega)).mpr ⟨by omega, by omega, by omega⟩⟩

/-- A write can be answered with any positive count that was asked for. -/
theorem ran_write {k : ℕ} (hpos : 0 < k) (hle : k ≤ x.chunkEnd - x.writeOffset)
    (hlt : k < 2 ^ 31) : Chain.Ran (answers short) (x.writeReq env) st k := by
  refine ⟨?_, (mayReturn_writeReq (by omega)).mpr ⟨by omega, by omega⟩⟩
  show (0 : ℤ) < k
  omega

theorem ran_write_bounds {res : ℤ} (h : Chain.Ran (answers short) (x.writeReq env) st res) :
    0 < res ∧ res ≤ (x.chunkEnd - x.writeOffset : ℕ) := by
  have hpos : 0 < res := h.policy
  exact ⟨hpos, ((mayReturn_writeReq hpos.le).mp h.may).1⟩

@[simp] theorem effect_read_disk {len : ℕ} {res : ℤ} :
    ((x.readReq env len).effect st res).disk = st.disk := by
  simp only [Sqe.effect, readReq]
  split <;> rfl

/-! ## Where the chunk is read to -/

/-- How much a runner asks for when it has read up to a multiple of the alignment. -/
theorem Shaped.readSize (h : x.Shaped) (hro : x.offset ≤ ro) (hlt : ro < x.chunkEnd) :
    toU32 ((x.chunkEnd : ℤ) - ro) = x.chunkEnd - ro ∧
    alignReadSize x.alignment (x.chunkEnd - ro) = alignUp x.alignment (x.chunkEnd - ro) ∧
    alignUp x.alignment (x.chunkEnd - ro) < 2 ^ 31 := by
  have hsize := h.size_lt
  have hle : x.chunkEnd - ro ≤ x.size := by simp only [chunkEnd]; omega
  have hup := (alignUp_mono h.align_pos hle).trans_lt h.lt
  refine ⟨?_, alignReadSize_eq (by omega), hup⟩
  rw [toU32_of_lt (by omega) (by omega)]
  omega

theorem advanceRead_end {k : ℕ} (h : ro + k = x.chunkEnd) :
    (x.moved ro wo).advanceRead k = x.chunkEnd := by
  have hz : toU32 ((x.chunkEnd : ℤ) - (ro + k : ℕ)) = 0 := by
    rw [h, Int.sub_self]
    rfl
  exact (if_neg (not_not.mpr hz)).trans h

theorem advanceRead_short {k : ℕ} (h : toU32 ((x.chunkEnd : ℤ) - (ro + k : ℕ)) ≠ 0) :
    (x.moved ro wo).advanceRead k = alignDown x.alignment (ro + k) :=
  if_pos h

theorem toU32_sub_ne_zero {a b : ℕ} (hne : a ≠ b) (hlt : a < b + 2 ^ 32) (hgt : b < a + 2 ^ 32) :
    toU32 ((a : ℤ) - b) ≠ 0 := by
  unfold toU32
  omega

/-- The length of the read request, when the chunk is read up to a multiple of the alignment. -/
theorem Shaped.readLen (h : x.Shaped) (hlt : ro < x.chunkEnd)
    (hal : x.alignment ∣ ro) :
    alignUp x.alignment (x.chunkEnd - ro) = alignUp x.alignment x.chunkEnd - ro := by
  have := alignUp_add hal h.align_pos (x.chunkEnd - ro)
  rw [Nat.add_sub_cancel' hlt.le] at this
  omega

theorem Shaped.round_reading (h : x.Shaped) (hm : env.modes = {}) (hx : x.Unstarted)
    (hro : x.offset ≤ ro) (hlt : ro < x.chunkEnd) (hal : x.alignment ∣ ro)
    (hwo : x.offset ≤ wo) (hwlt : wo < x.chunkEnd) {policy : Policy} {len : ℕ}
    (hlen : alignUp x.alignment x.chunkEnd - ro = len) :
    Round env policy (x.moved ro wo, st) (y, st') ↔ ∃ res res' seen,
      seen.Perm [⟨env.self, .read, res⟩, ⟨env.self, .write, res'⟩] ∧
      y = handle env ((x.moved ro wo).counting 2) seen ∧
      Chain.Ran policy ((x.moved ro wo).readReq env len) st res ∧
      (res = len ∧ Chain.Ran policy ((x.moved ro wo).writeReq env)
            (((x.moved ro wo).readReq env len).effect st res) res' ∧
          st' = ((x.moved ro wo).writeReq env).effect
            (((x.moved ro wo).readReq env len).effect st res) res' ∨
        res ≠ len ∧ res' = -ECANCELED ∧
          st' = ((x.moved ro wo).readReq env len).effect st res) := by
  obtain ⟨hu32, hsize, -⟩ := h.readSize hro hlt
  have hlt32 : (x.moved ro wo).chunkEnd - (x.moved ro wo).writeOffset < 2 ^ 32 := by
    have := h.size_lt
    show x.offset + x.size - wo < 2 ^ 32
    omega
  refine CopyRunner.round_reading hm (hx.idle hro hwlt) hlt32 ?_ ?_
  · show toU32 ((x.chunkEnd : ℤ) - ro) ≠ 0
    rw [hu32]
    omega
  · show alignReadSize x.alignment (toU32 ((x.chunkEnd : ℤ) - ro)) = len
    rw [hu32, hsize, h.readLen hlt hal, hlen]

/-! ## A source that ends elsewhere than the chunk -/

section Misplaced

variable (hm : env.modes = {}) (hx : x.Unstarted) (hs : x.Shaped) (hro : x.offset ≤ ro)
  (hlt : ro < x.chunkEnd) (hal : x.alignment ∣ ro) (hwo : x.offset ≤ wo) (hwlt : wo < x.chunkEnd)
  (hn : (st.disk env.source).length < alignUp x.alignment x.chunkEnd)
  (hne : (st.disk env.source).length ≠ x.chunkEnd)
include hm hx hs hro hlt hal hwo hwlt hn hne

/-- A round against a source that ends before the rounded end of the chunk, and not at the end of
the chunk: the read is short and the write is cancelled. The runner goes back to the last multiple of
the alignment before the end of the source, or finds nothing to read. -/
theorem round_short (h : Round env fullReads (x.moved ro wo, st) (y, st')) :
    st'.disk = st.disk ∧
    ((st.disk env.source).length ≤ ro ∧ (∃ e, y.runnerResult = .error e) ∨
      ro < (st.disk env.source).length ∧
        y = x.moved (alignDown x.alignment (st.disk env.source).length) wo) := by
  obtain ⟨res, res', seen, hseen, rfl, hran, hcase⟩ :=
    (hs.round_reading hm hx hro hlt hal hwo hwlt rfl).mp h
  have hres : res = (min (alignUp x.alignment x.chunkEnd - ro)
      ((st.disk env.source).length - ro) : ℕ) := hran.policy.resolve_right id
  have hupper := le_alignUp hs.align_pos x.chunkEnd
  -- the request reaches past the end of the source
  have hshort : res ≠ (alignUp x.alignment x.chunkEnd - ro : ℕ) := by omega
  obtain ⟨-, rfl, rfl⟩ := hcase.resolve_left fun hc => hshort hc.1
  refine ⟨effect_read_disk, ?_⟩
  by_cases hle : (st.disk env.source).length ≤ ro
  · have hz : res = 0 := by omega
    subst hz
    exact .inl ⟨hle, handle_eof (x := x.moved ro wo) hm hx.jobs hx.error (.inr rfl) hseen⟩
  · refine .inr ⟨by omega, ?_⟩
    have hk : ro + res.toNat = (st.disk env.source).length := by omega
    rw [handle_both (x := x.moved ro wo) hm hx.error (by omega) (.inr rfl) hseen, advanceRead_short, hk]
    · rfl
    · rw [hk]
      have hlt' := hs.align_lt
      have hsz := hs.size_lt
      have hdist : alignUp x.alignment x.chunkEnd < x.chunkEnd + 2 ^ 31 := by
        have hup := alignUp_add hs.dvd hs.align_pos x.size
        have := hs.lt
        simp only [chunkEnd]
        omega
      refine toU32_sub_ne_zero (Ne.symm hne) ?_ (by omega)
      simp only [chunkEnd] at *
      omega

omit hne in
theorem exists_round_short : ∃ s', Round env fullReads (x.moved ro wo, st) s' := by
  have hlen : alignUp x.alignment x.chunkEnd - ro < 2 ^ 31 := by
    have := (hs.readSize hro hlt).2.2
    rwa [hs.readLen hlt hal] at this
  refine ⟨(_, _), (hs.round_reading hm hx hro hlt hal hwo hwlt rfl).mpr
    ⟨_, _, _, .refl _, rfl, ran_read_full hlen, .inr ⟨?_, rfl, rfl⟩⟩⟩
  have hupper := le_alignUp hs.align_pos x.chunkEnd
  show ((min (alignUp x.alignment x.chunkEnd - ro) ((st.disk env.source).length - ro) : ℕ) : ℤ) ≠ _
  omega

end Misplaced

/-- The runner has reported an error. -/
def Failed (s : CopyRunner × Storage) : Prop := ∃ e, s.1.runnerResult = .error e

theorem Unstarted.not_failed (hx : x.Unstarted) (hro : x.offset ≤ ro) (hwo : wo < x.chunkEnd) :
    ¬ Failed (x.moved ro wo, st) := by
  rintro ⟨e, he⟩
  rw [(hx.idle hro hwo).reschedule] at he
  cases he

/-- With nothing to read, the next round fails. -/
theorem inevitably_failed_of_eof (hm : env.modes = {}) (hx : x.Unstarted) (hs : x.Shaped)
    (hro : x.offset ≤ ro) (hlt : ro < x.chunkEnd) (hal : x.alignment ∣ ro) (hwo : x.offset ≤ wo)
    (hwlt : wo < x.chunkEnd) (hn : (st.disk env.source).length ≤ ro) :
    Inevitably (Round env fullReads) Failed (x.moved ro wo, st) := by
  have hlt' : (st.disk env.source).length < alignUp x.alignment x.chunkEnd :=
    (hn.trans_lt hlt).trans_le (le_alignUp hs.align_pos _)
  refine .later (exists_round_short hm hx hs hro hlt hal hwo hwlt hlt') fun s' hround => .now ?_
  have hcase := (round_short hm hx hs hro hlt hal hwo hwlt hlt' (by omega) hround).2
  exact (hcase.resolve_right fun hc => by omega).2

/-- A source that ends at a multiple of the alignment, inside the chunk, is found to be too short. -/
theorem inevitably_failed_of_dvd (hm : env.modes = {}) (hx : x.Unstarted) (hs : x.Shaped)
    (hro : x.offset ≤ ro) (hlt : ro < (st.disk env.source).length) (hal : x.alignment ∣ ro)
    (hwo : x.offset ≤ wo) (hwlt : wo < x.chunkEnd) (hn : (st.disk env.source).length < x.chunkEnd)
    (hdvd : x.alignment ∣ (st.disk env.source).length) :
    Inevitably (Round env fullReads) Failed (x.moved ro wo, st) := by
  have hlt' : (st.disk env.source).length < alignUp x.alignment x.chunkEnd :=
    hn.trans_le (le_alignUp hs.align_pos _)
  refine .later (exists_round_short hm hx hs hro (by omega) hal hwo hwlt hlt') fun s' hround => ?_
  obtain ⟨hdisk, hcase⟩ :=
    round_short hm hx hs hro (by omega) hal hwo hwlt hlt' (by omega) hround
  obtain ⟨-, hy⟩ := hcase.resolve_left fun hc => by omega
  rw [alignDown_of_dvd hdvd] at hy
  obtain ⟨y, st'⟩ := s'
  subst hy
  exact inevitably_failed_of_eof hm hx hs (by omega) hn hdvd hwo hwlt (by rw [hdisk])

/-- A source that ends between two multiples of the alignment, and not at the end of the chunk, keeps
the runner busy for ever. -/
theorem not_inevitably_of_stall (P : CopyRunner × Storage → Prop)
    (hP : ∀ ro st, x.offset ≤ ro → ¬ P (x.moved ro wo, st)) (hm : env.modes = {})
    (hx : x.Unstarted) (hs : x.Shaped) (hwo : x.offset ≤ wo) (hwlt : wo < x.chunkEnd)
    (hro : x.offset ≤ ro) (hlt : ro < x.chunkEnd) (hal : x.alignment ∣ ro)
    (hlt' : ro < (st.disk env.source).length)
    (hn : (st.disk env.source).length < alignUp x.alignment x.chunkEnd)
    (hne : (st.disk env.source).length ≠ x.chunkEnd)
    (hdvd : ¬ x.alignment ∣ (st.disk env.source).length) :
    ¬ Inevitably (Round env fullReads) P (x.moved ro wo, st) := by
  refine not_inevitably (fun s => ∃ ro, s.1 = x.moved ro wo ∧ s.2.disk = st.disk ∧ x.offset ≤ ro ∧
    ro < x.chunkEnd ∧ ro < (st.disk env.source).length ∧ x.alignment ∣ ro) ?_
    ⟨ro, rfl, rfl, hro, hlt, hlt', hal⟩
  rintro ⟨y, st₁⟩ ⟨ro₁, rfl, hdisk, hro₁, hlt₁, hlt₁', hal₁⟩
  have hdisk : st₁.disk = st.disk := hdisk
  refine ⟨hP ro₁ st₁ hro₁, .inr ?_⟩
  obtain ⟨⟨y', st₂⟩, hround⟩ :=
    exists_round_short hm hx hs hro₁ hlt₁ hal₁ hwo hwlt (by rw [hdisk]; exact hn)
  obtain ⟨hdisk₂, hcase⟩ := round_short hm hx hs hro₁ hlt₁ hal₁ hwo hwlt (by rw [hdisk]; exact hn)
    (by rw [hdisk]; exact hne) hround
  rw [hdisk] at hcase
  obtain ⟨-, hy⟩ := hcase.resolve_left fun hc => by omega
  refine ⟨_, hround, alignDown x.alignment (st.disk env.source).length, hy, hdisk₂.trans hdisk, ?_,
    ?_, ?_, dvd_alignDown _ _⟩
  · exact le_alignDown hs.dvd (by omega)
  · -- the end of the chunk lies in the same step of the alignment, or beyond
    have hle := alignDown_le x.alignment (st.disk env.source).length
    have hpos := hs.align_pos
    by_contra hc
    have hup := alignUp_le (dvd_alignDown x.alignment (st.disk env.source).length)
      (Nat.le_of_not_lt hc)
    omega
  · refine lt_of_le_of_ne (alignDown_le _ _) fun hc => hdvd ?_
    rw [← hc]
    exact dvd_alignDown _ _

/-! ## A source that has what the chunk wants -/

/-- The disk after the chunk was written up to `wo`. -/
def written (x : CopyRunner) (env : RunnerEnv) (disk : Ino → List UInt8) (wo : ℕ) :
    Ino → List UInt8 :=
  Function.update disk env.dest
    (pwrite (disk env.dest) x.offset (pread (disk env.source) x.offset (wo - x.offset)))

/-- The copy of a chunk, read up to `ro` and written up to `wo`. -/
structure Copying (env : RunnerEnv) (disk : Ino → List UInt8) (x : CopyRunner) (ro wo : ℕ)
    (st : Storage) : Prop where
  read_ge : x.offset ≤ ro
  write_ge : x.offset ≤ wo
  write_le : wo ≤ x.chunkEnd
  loaded : Holds st.mem x.bufferAligned (disk env.source) x.offset (ro - x.offset)
  disk_eq : st.disk = x.written env disk wo

variable {disk : Ino → List UInt8}

/-- Whatever was written, the source is as it was, even if it is the destination. -/
theorem written_source (hn : x.chunkEnd ≤ (disk env.source).length) (hwo : wo ≤ x.chunkEnd) :
    x.written env disk wo env.source = disk env.source := by
  unfold written
  by_cases h : env.source = env.dest
  · rw [h, Function.update_self, ← h, pwrite_pread_self]
    simp only [chunkEnd] at *
    omega
  · rw [Function.update_of_ne h]

theorem Copying.source (h : Copying env disk x ro wo st)
    (hn : x.chunkEnd ≤ (disk env.source).length) : st.disk env.source = disk env.source := by
  rw [h.disk_eq]
  exact written_source hn h.write_le

/-- A read that brings `k` bytes. -/
theorem Copying.afterRead (h : Copying env disk x ro wo st) (len : ℕ) {k ro' : ℕ}
    (hn : x.chunkEnd ≤ (disk env.source).length) (hk : ro + k ≤ (disk env.source).length)
    (hro' : x.offset ≤ ro') (hle : ro' ≤ ro + k) :
    Copying env disk x ro' wo (((x.moved ro wo).readReq env len).effect st k) := by
  have heff : ((x.moved ro wo).readReq env len).effect st k = { st with
      mem := store st.mem (x.bufferAligned + ro - x.offset) (pread (st.disk env.source) ro k) } := by
    have hneg : ¬ (k : ℤ) < 0 := by omega
    simp only [Sqe.effect, readReq, moved, if_neg hneg, Int.toNat_natCast]
  have hro := h.read_ge
  have hoff : x.offset + (ro - x.offset) = ro := by omega
  have hbase : x.bufferAligned + ro - x.offset = x.bufferAligned + (ro - x.offset) := by omega
  have hstore := h.loaded.store k (by omega)
  rw [hoff] at hstore
  rw [heff, h.source hn, hbase]
  exact ⟨hro', h.write_ge, h.write_le, hstore.mono (by omega), h.disk_eq⟩

/-- A write of `k` bytes that have been read. -/
theorem Copying.afterWrite (h : Copying env disk x ro wo st) {k : ℕ}
    (hn : x.chunkEnd ≤ (disk env.source).length) (hro : x.chunkEnd ≤ ro)
    (hk : wo + k ≤ x.chunkEnd) :
    Copying env disk x ro (wo + k) (((x.moved ro wo).writeReq env).effect st k) := by
  have hwo := h.write_ge
  have hoff : x.offset + (wo - x.offset) = wo := by omega
  have hbase : x.bufferAligned + wo - x.offset = x.bufferAligned + (wo - x.offset) := by omega
  have hload : load st.mem (x.bufferAligned + (wo - x.offset)) k = pread (disk env.source) wo k := by
    have := h.loaded.load_eq (k := wo - x.offset) (j := k) (by omega)
    rwa [hoff] at this
  have hneg : ¬ (k : ℤ) < 0 := by omega
  have heff : ((x.moved ro wo).writeReq env).effect st k = { st with
      disk := Function.update st.disk env.dest (pwrite (st.disk env.dest) wo
        (load st.mem (x.bufferAligned + wo - x.offset) k)) } := by
    simp only [Sqe.effect, writeReq, moved, if_neg hneg, Int.toNat_natCast]
  rw [heff, hbase, hload]
  refine ⟨h.read_ge, by omega, hk, h.loaded, ?_⟩
  -- the bytes written before, and those after them
  have hlen : (pread (disk env.source) x.offset (wo - x.offset)).length = wo - x.offset := by
    refine length_pread ?_
    omega
  have hpart : wo + k - x.offset = wo - x.offset + k := by omega
  have hjoin := pread_append (disk env.source) x.offset (wo - x.offset) k
  rw [hoff] at hjoin
  have htwice := pwrite_pwrite (disk env.dest) x.offset
    (pread (disk env.source) x.offset (wo - x.offset)) (pread (disk env.source) wo k)
  rw [hlen, hoff, hjoin] at htwice
  show Function.update st.disk env.dest _ = x.written env disk (wo + k)
  rw [h.disk_eq]
  simp only [written, Function.update_self, Function.update_idem, hpart, htwice]

/-- A round that finds the whole chunk read. -/
theorem Copying.round_done (h : Copying env disk x x.chunkEnd wo st) (hm : env.modes = {})
    (hx : x.Unstarted) (hs : x.Shaped) (hn : x.chunkEnd ≤ (disk env.source).length)
    (hwlt : wo < x.chunkEnd)
    (hround : Round env (answers short) (x.moved x.chunkEnd wo, st) (y, st')) :
    ∃ wo', y = x.moved x.chunkEnd wo' ∧ Copying env disk x x.chunkEnd wo' st' ∧ wo < wo' := by
  have hsize := hs.size_lt
  have hwo := h.write_ge
  have hlt32 : x.chunkEnd - wo < 2 ^ 32 := by
    simp only [chunkEnd]
    omega
  obtain ⟨res, hran, rfl, rfl⟩ :=
    (round_writing hm (hx.idle (by simp [chunkEnd]) hwlt) hlt32 rfl).mp hround
  obtain ⟨hpos, hle⟩ := ran_write_bounds hran
  obtain ⟨k, rfl⟩ := Int.eq_ofNat_of_zero_le hpos.le
  have hle : (k : ℤ) ≤ (x.chunkEnd - wo : ℕ) := hle
  refine ⟨wo + k, handle_write (x := x.moved x.chunkEnd wo) hm hx.error hpos.le, ?_, by omega⟩
  exact h.afterWrite hn le_rfl (by omega)

/-- What a read of a source that has what the chunk wants brings: the rest of the chunk, or at least
one step of the alignment. -/
theorem Shaped.read_progress (hs : x.Shaped) {n len : ℕ} {res : ℤ}
    (hshort : ∀ r, short r → (x.alignment : ℤ) ≤ r) (hn : x.chunkEnd ≤ n)
    (hend : x.alignment ∣ x.chunkEnd ∨ n = x.chunkEnd) (hlt : ro < x.chunkEnd)
    (hlen : alignUp x.alignment x.chunkEnd - ro = len)
    (hres : res = (min len (n - ro) : ℕ) ∨ short res) (hle : res ≤ len)
    (hle' : res ≤ (n - ro : ℕ)) :
    ∃ k : ℕ, res = k ∧ 0 < k ∧ ro + k ≤ x.chunkEnd ∧ (ro + k = x.chunkEnd ∨ x.alignment ≤ k) := by
  have hup := le_alignUp hs.align_pos x.chunkEnd
  have hpos := hs.align_pos
  have hmin : min len (n - ro) = x.chunkEnd - ro := by
    rcases hend with hdvd | hnE
    · rw [alignUp_of_dvd hdvd] at hlen
      omega
    · omega
  have h0 : 0 ≤ res := by
    rcases hres with hres | hres
    · omega
    · have := hshort res hres
      omega
  obtain ⟨k, rfl⟩ := Int.eq_ofNat_of_zero_le h0
  refine ⟨k, rfl, ?_, by omega, ?_⟩
  · rcases hres with hres | hres
    · omega
    · have := hshort k hres
      omega
  · rcases hres with hres | hres
    · left
      omega
    · right
      have := hshort k hres
      omega

/-- A round that reads. -/
theorem Copying.round_reading (h : Copying env disk x ro wo st) (hm : env.modes = {})
    (hx : x.Unstarted) (hs : x.Shaped) (hshort : ∀ r, short r → (x.alignment : ℤ) ≤ r)
    (hn : x.chunkEnd ≤ (disk env.source).length)
    (hend : x.alignment ∣ x.chunkEnd ∨ (disk env.source).length = x.chunkEnd)
    (hlt : ro < x.chunkEnd) (hal : x.alignment ∣ ro) (hwlt : wo < x.chunkEnd)
    (hround : Round env (answers short) (x.moved ro wo, st) (y, st')) :
    ∃ ro' wo', y = x.moved ro' wo' ∧ Copying env disk x ro' wo' st' ∧ ro < ro' ∧
      ro' ≤ x.chunkEnd ∧ (x.alignment ∣ ro' ∨ ro' = x.chunkEnd) ∧ wo ≤ wo' := by
  obtain ⟨res, res', seen, hseen, rfl, hran, hcase⟩ :=
    (hs.round_reading hm hx h.read_ge hlt hal h.write_ge hwlt rfl).mp hround
  have hsrc := h.source hn
  have hpol : res = (min (alignUp x.alignment x.chunkEnd - ro)
      ((st.disk env.source).length - ro) : ℕ) ∨ short res := hran.policy
  have hres0 : 0 ≤ res := by
    rcases hpol with hres | hres
    · omega
    · have := hshort res hres
      omega
  obtain ⟨hle, hle', -⟩ := (mayReturn_readReq hres0).mp hran.may
  have hle' : res ≤ ((st.disk env.source).length - ro : ℕ) := hle'
  rw [hsrc] at hpol hle'
  obtain ⟨k, rfl, hkpos, hkend, hk⟩ :=
    hs.read_progress hshort hn hend hlt rfl hpol hle hle'
  -- where the runner goes on reading
  obtain ⟨ro', hadv, hro', hro'le, hro'end, hro'al⟩ : ∃ ro',
      (x.moved ro wo).advanceRead k = ro' ∧ ro < ro' ∧ ro' ≤ ro + k ∧
      (ro + k = x.chunkEnd → ro' = x.chunkEnd) ∧ (x.alignment ∣ ro' ∨ ro' = x.chunkEnd) := by
    by_cases hkE : ro + k = x.chunkEnd
    · exact ⟨_, advanceRead_end hkE, by omega, by omega, fun _ => rfl, .inr rfl⟩
    · have hsize := hs.size_lt
      have hge := h.read_ge
      have hu32 : toU32 ((x.chunkEnd : ℤ) - (ro + k : ℕ)) ≠ 0 := by
        refine toU32_sub_ne_zero (Ne.symm hkE) ?_ (by omega)
        simp only [chunkEnd] at *
        omega
      refine ⟨_, advanceRead_short hu32, ?_, alignDown_le _ _, fun hc => absurd hc hkE,
        .inl (dvd_alignDown _ _)⟩
      have hstep := le_alignDown (Nat.dvd_add hal (Nat.dvd_refl x.alignment))
        (Nat.add_le_add_left (hk.resolve_left hkE) ro)
      have := hs.align_pos
      omega
  have hread := h.afterRead (alignUp x.alignment x.chunkEnd - ro) hn (by omega)
    (h.read_ge.trans hro'.le) hro'le
  rcases hcase with ⟨hfull, hranw, rfl⟩ | ⟨-, rfl, rfl⟩
  · obtain ⟨hpos', hlew⟩ := ran_write_bounds hranw
    obtain ⟨k', rfl⟩ := Int.eq_ofNat_of_zero_le hpos'.le
    have hlew : (k' : ℤ) ≤ (x.chunkEnd - wo : ℕ) := hlew
    -- a read that was answered in full has brought the whole chunk
    have hup := le_alignUp hs.align_pos x.chunkEnd
    have hro'E := hro'end (by omega)
    refine ⟨ro', wo + k', ?_, hread.afterWrite hn hro'E.ge (by omega), hro', hro'E.le, hro'al,
      by omega⟩
    rw [handle_both (x := x.moved ro wo) hm hx.error (by omega) (.inl hpos'.le) hseen]
    simp only [Int.toNat_natCast, hadv]
    rfl
  · refine ⟨ro', wo, ?_, hread, hro', by omega, hro'al, le_rfl⟩
    rw [handle_both (x := x.moved ro wo) hm hx.error (by omega) (.inr rfl) hseen]
    simp only [Int.toNat_natCast, hadv]
    rfl

/-- The kernel can always answer. -/
theorem Copying.exists_round (h : Copying env disk x ro wo st) (hm : env.modes = {})
    (hx : x.Unstarted) (hs : x.Shaped) (hro : ro ≤ x.chunkEnd)
    (hal : x.alignment ∣ ro ∨ ro = x.chunkEnd) (hwlt : wo < x.chunkEnd) :
    ∃ s', Round env (answers short) (x.moved ro wo, st) s' := by
  have hsize := hs.size_lt
  have hwo := h.write_ge
  have hone : ∀ st, Chain.Ran (answers short) ((x.moved ro wo).writeReq env) st (1 : ℕ) := by
    intro st
    refine ran_write Nat.one_pos ?_ (by omega)
    show 1 ≤ x.chunkEnd - wo
    omega
  by_cases hE : ro = x.chunkEnd
  · subst hE
    have hlt32 : x.chunkEnd - wo < 2 ^ 32 := by
      simp only [chunkEnd]
      omega
    exact ⟨(_, _), (round_writing hm (hx.idle h.read_ge hwlt) hlt32 rfl).mpr
      ⟨_, hone st, rfl, rfl⟩⟩
  · have hlt : ro < x.chunkEnd := lt_of_le_of_ne hro hE
    have hal := hal.resolve_right hE
    have hlen : alignUp x.alignment x.chunkEnd - ro < 2 ^ 31 := by
      have := (hs.readSize h.read_ge hlt).2.2
      rwa [hs.readLen hlt hal] at this
    by_cases hfull : ((min (alignUp x.alignment x.chunkEnd - ro)
        ((st.disk env.source).length - ro) : ℕ) : ℤ) = (alignUp x.alignment x.chunkEnd - ro : ℕ)
    · exact ⟨(_, _), (hs.round_reading hm hx h.read_ge hlt hal h.write_ge hwlt rfl).mpr
        ⟨_, _, _, .refl _, rfl, ran_read_full hlen, .inl ⟨hfull, hone _, rfl⟩⟩⟩
    · exact ⟨(_, _), (hs.round_reading hm hx h.read_ge hlt hal h.write_ge hwlt rfl).mpr
        ⟨_, _, _, .refl _, rfl, ran_read_full hlen, .inr ⟨hfull, rfl, rfl⟩⟩⟩

theorem Unstarted.finished (hx : x.Unstarted) : (x.moved ro x.chunkEnd).runnerResult = .finished := by
  have hj : (x.moved ro x.chunkEnd).jobsRunning = 0 := hx.jobs
  have he : (x.moved ro x.chunkEnd).savedError = none := hx.error
  have hw : (x.moved ro x.chunkEnd).writeOffset = (x.moved ro x.chunkEnd).chunkEnd := rfl
  simp [runnerResult, hj, he, hw]

/-- The runner has finished, and the disk is as it was but for the chunk in the destination. -/
def Copied (x : CopyRunner) (env : RunnerEnv) (disk : Ino → List UInt8)
    (s : CopyRunner × Storage) : Prop :=
  s.1.runnerResult = .finished ∧ s.2.disk = x.written env disk x.chunkEnd

theorem Copying.copied (h : Copying env disk x ro x.chunkEnd st) (hx : x.Unstarted) :
    Copied x env disk (x.moved ro x.chunkEnd, st) := ⟨hx.finished, h.disk_eq⟩

theorem copying_start : Copying env st.disk x x.offset x.offset st where
  read_ge := le_rfl
  write_ge := le_rfl
  write_le := Nat.le_add_right _ _
  loaded i hi := by omega
  disk_eq := by
    rw [written, Nat.sub_self]
    exact (Function.update_eq_self _ _).symm

/-- The states of the copy of a chunk. -/
def InCopy (x : CopyRunner) (env : RunnerEnv) (disk : Ino → List UInt8)
    (s : CopyRunner × Storage) : Prop :=
  ∃ ro wo, s.1 = x.moved ro wo ∧ Copying env disk x ro wo s.2 ∧ ro ≤ x.chunkEnd ∧
    (x.alignment ∣ ro ∨ ro = x.chunkEnd)

/-- What is left to read and to write. -/
def toDo (x : CopyRunner) : ℕ := (x.chunkEnd - x.readOffset) + (x.chunkEnd - x.writeOffset)

theorem toDo_moved (x : CopyRunner) (ro wo : ℕ) :
    (x.moved ro wo).toDo = (x.chunkEnd - ro) + (x.chunkEnd - wo) := rfl

theorem inCopy_start (hx : x.Unstarted) (hs : x.Shaped) : InCopy x env st.disk (x, st) :=
  ⟨x.offset, x.offset, hx.moved_eq.symm, copying_start, Nat.le_add_right _ _, .inl hs.dvd⟩

/-- Each round reads further or writes further. -/
theorem InCopy.round {s s' : CopyRunner × Storage} (h : InCopy x env disk s)
    (hm : env.modes = {}) (hx : x.Unstarted) (hs : x.Shaped)
    (hshort : ∀ r, short r → (x.alignment : ℤ) ≤ r) (hn : x.chunkEnd ≤ (disk env.source).length)
    (hend : x.alignment ∣ x.chunkEnd ∨ (disk env.source).length = x.chunkEnd)
    (hround : Round env (answers short) s s') :
    InCopy x env disk s' ∧ s'.1.toDo < s.1.toDo := by
  obtain ⟨y, st₁⟩ := s
  obtain ⟨y', st₂⟩ := s'
  obtain ⟨ro, wo, rfl, hcopy, hro, hal⟩ := h
  have hwlt : wo < x.chunkEnd := by
    refine lt_of_le_of_ne hcopy.write_le ?_
    rintro rfl
    cases hround with
    | mk hres => rw [hx.finished] at hres; cases hres
  by_cases hE : ro = x.chunkEnd
  · subst hE
    obtain ⟨wo', rfl, hcopy', hlt⟩ := hcopy.round_done hm hx hs hn hwlt hround
    refine ⟨⟨_, wo', rfl, hcopy', le_rfl, .inr rfl⟩, ?_⟩
    simp only [toDo_moved]
    omega
  · obtain ⟨ro', wo', rfl, hcopy', hlt, hle, hal', hle'⟩ := hcopy.round_reading hm hx hs hshort hn
      hend (lt_of_le_of_ne hro hE) (hal.resolve_right hE) hwlt hround
    refine ⟨⟨ro', wo', rfl, hcopy', hle, hal'⟩, ?_⟩
    simp only [toDo_moved]
    omega

/-- A source that reaches to the end of the chunk, and ends there if that is no multiple of the
alignment, is copied. -/
theorem inevitably_copied (hm : env.modes = {}) (hx : x.Unstarted) (hs : x.Shaped)
    (hshort : ∀ r, short r → (x.alignment : ℤ) ≤ r)
    (hn : x.chunkEnd ≤ (st.disk env.source).length)
    (hend : x.alignment ∣ x.chunkEnd ∨ (st.disk env.source).length = x.chunkEnd) :
    Inevitably (Round env (answers short)) (Copied x env st.disk) (x, st) := by
  refine Inevitably.of_measure (InCopy x env st.disk) (fun s => s.1.toDo) ?_ (inCopy_start hx hs)
  rintro ⟨y, st₁⟩ hin
  obtain ⟨ro, wo, rfl, hcopy, hro, hal⟩ := hin
  by_cases hwE : wo = x.chunkEnd
  · subst hwE
    exact .inl (hcopy.copied hx)
  · have hwlt : wo < x.chunkEnd := lt_of_le_of_ne hcopy.write_le hwE
    refine .inr ⟨hcopy.exists_round hm hx hs hro hal hwlt, fun s' hround => ?_⟩
    exact InCopy.round ⟨ro, wo, rfl, hcopy, hro, hal⟩ hm hx hs hshort hn hend hround

/-! ## A source that has grown past the rounded end of the chunk -/

theorem Shaped.offset_lt (hs : x.Shaped) : x.offset < x.chunkEnd := by
  have := hs.pos
  simp only [chunkEnd]
  omega

theorem Shaped.end_lt (hs : x.Shaped) :
    alignUp x.alignment x.chunkEnd < x.offset + 2 ^ 31 ∧ x.alignment < 2 ^ 31 := by
  have hup := alignUp_add hs.dvd hs.align_pos x.size
  have hlt := hs.lt
  exact ⟨by simp only [chunkEnd]; omega, hs.align_lt⟩

section Over

variable (hm : env.modes = {}) (hx : x.Unstarted) (hs : x.Shaped)
  (hdvd : ¬ x.alignment ∣ x.chunkEnd)
include hm hx hs hdvd

/-- Where the runner is when it has read up to the rounded end of the chunk. -/
theorem handle_over {k : ℕ} (hk : 0 < k) {seen : List Cqe}
    (hseen : seen.Perm [⟨env.self, .read, (alignUp x.alignment x.chunkEnd - x.offset : ℕ)⟩,
      ⟨env.self, .write, k⟩]) :
    handle env ((x.moved x.offset x.offset).counting 2) seen =
      x.moved (alignUp x.alignment x.chunkEnd) (x.offset + k) := by
  have hup := lt_alignUp hs.align_pos hdvd
  have hend := hs.end_lt.1
  have hle : x.offset ≤ x.chunkEnd := Nat.le_add_right _ _
  have hto : x.offset + (alignUp x.alignment x.chunkEnd - x.offset) =
      alignUp x.alignment x.chunkEnd := by omega
  have hu32 : toU32 ((x.chunkEnd : ℤ) -
      (x.offset + (alignUp x.alignment x.chunkEnd - x.offset) : ℕ)) ≠ 0 := by
    rw [hto]
    exact toU32_sub_ne_zero hup.ne (by omega) (by omega)
  rw [handle_both (x := x.moved x.offset x.offset) hm hx.error (by omega) (.inl (by omega)) hseen,
    Int.toNat_natCast, advanceRead_short hu32, hto, alignDown_of_dvd (dvd_alignUp _ _)]
  rfl

/-- The first round reads more than the chunk wants, and the write runs. -/
theorem round_over (hn : alignUp x.alignment x.chunkEnd ≤ (st.disk env.source).length)
    (hround : Round env fullReads (x.moved x.offset x.offset, st) (y, st')) :
    ∃ k, 0 < k ∧ x.offset + k ≤ x.chunkEnd ∧
      y = x.moved (alignUp x.alignment x.chunkEnd) (x.offset + k) ∧
      Copying env st.disk x (alignUp x.alignment x.chunkEnd) (x.offset + k) st' := by
  have hlt := hs.offset_lt
  have hup := lt_alignUp hs.align_pos hdvd
  obtain ⟨res, res', seen, hseen, rfl, hran, hcase⟩ :=
    (hs.round_reading hm hx le_rfl hlt hs.dvd le_rfl hlt rfl).mp hround
  have hres : res = (min (alignUp x.alignment x.chunkEnd - x.offset)
      ((st.disk env.source).length - x.offset) : ℕ) := hran.policy.resolve_right id
  have hfull : res = (alignUp x.alignment x.chunkEnd - x.offset : ℕ) := by omega
  obtain ⟨-, hranw, rfl⟩ := hcase.resolve_right fun hc => hc.1 hfull
  subst hfull
  obtain ⟨hpos', hlew⟩ := ran_write_bounds hranw
  obtain ⟨k, rfl⟩ := Int.eq_ofNat_of_zero_le hpos'.le
  have hlew : (k : ℤ) ≤ (x.chunkEnd - x.offset : ℕ) := hlew
  have hstart : Copying env st.disk x x.offset x.offset st := copying_start
  have hread : Copying env st.disk x (alignUp x.alignment x.chunkEnd) x.offset
      (((x.moved x.offset x.offset).readReq env _).effect st
        (alignUp x.alignment x.chunkEnd - x.offset : ℕ)) :=
    hstart.afterRead (alignUp x.alignment x.chunkEnd - x.offset) (by omega) (by omega) (by omega)
      (by omega)
  exact ⟨k, by omega, by omega, handle_over hm hx hs hdvd (by omega) hseen,
    hread.afterWrite (by omega) hup.le (by omega)⟩

/-- The write may write as much or as little of the chunk as the kernel likes. -/
theorem exists_round_over (hn : alignUp x.alignment x.chunkEnd ≤ (st.disk env.source).length)
    {k : ℕ} (hk : 0 < k) (hle : x.offset + k ≤ x.chunkEnd) :
    ∃ st', Round env fullReads (x.moved x.offset x.offset, st)
      (x.moved (alignUp x.alignment x.chunkEnd) (x.offset + k), st') := by
  have hlt := hs.offset_lt
  have hsize := hs.size_lt
  have hend := hs.end_lt.1
  have hup := lt_alignUp hs.align_pos hdvd
  have hlen : alignUp x.alignment x.chunkEnd - x.offset < 2 ^ 31 := by omega
  have hwrite : ∀ st, Chain.Ran fullReads ((x.moved x.offset x.offset).writeReq env) st k := by
    intro st
    refine ran_write hk ?_ ?_
    · show k ≤ x.chunkEnd - x.offset
      omega
    · simp only [chunkEnd] at hle
      omega
  have hfull : min (alignUp x.alignment x.chunkEnd - x.offset)
      ((st.disk env.source).length - x.offset) = alignUp x.alignment x.chunkEnd - x.offset := by
    omega
  have hread : Chain.Ran fullReads ((x.moved x.offset x.offset).readReq env _) st
      (min _ ((st.disk env.source).length - x.offset) : ℕ) := ran_read_full hlen
  rw [hfull] at hread
  exact ⟨_, (hs.round_reading hm hx le_rfl hlt hs.dvd le_rfl hlt rfl).mpr
    ⟨_, _, _, .refl _, (handle_over hm hx hs hdvd hk (.refl _)).symm, hread,
      .inl ⟨rfl, hwrite _, rfl⟩⟩⟩

/-- The round after it asks for nothing, and takes the answer for the end of the file. -/
theorem round_past (hwo : x.offset ≤ wo) (hwlt : wo < x.chunkEnd)
    (hround : Round env fullReads (x.moved (alignUp x.alignment x.chunkEnd) wo, st) (y, st')) :
    ∃ e, y.runnerResult = .error e := by
  have hup := lt_alignUp hs.align_pos hdvd
  have hdist := alignUp_lt hs.align_pos x.chunkEnd
  have halt := hs.align_lt
  have hsize := hs.size_lt
  have hle : x.offset ≤ x.chunkEnd := Nat.le_add_right _ _
  -- the difference is negative, and wraps
  have hu32 : toU32 ((x.chunkEnd : ℤ) - (alignUp x.alignment x.chunkEnd : ℕ)) =
      2 ^ 32 - (alignUp x.alignment x.chunkEnd - x.chunkEnd) := by
    unfold toU32
    omega
  have hdvd32 : x.alignment ∣ 2 ^ 32 := by
    obtain ⟨k, hk⟩ := hs.pow
    rw [hk] at halt ⊢
    exact Nat.pow_dvd_pow 2 ((Nat.pow_lt_pow_iff_right (by omega)).mp halt).le.step
  have hlt32 : x.chunkEnd - wo < 2 ^ 32 := by
    simp only [chunkEnd] at *
    omega
  have hidle : (x.moved (alignUp x.alignment x.chunkEnd) wo).Idle := hx.idle (by omega) hwlt
  have hne : toU32 (((x.moved (alignUp x.alignment x.chunkEnd) wo).chunkEnd : ℤ) -
      (x.moved (alignUp x.alignment x.chunkEnd) wo).readOffset) ≠ 0 := by
    show toU32 ((x.chunkEnd : ℤ) - (alignUp x.alignment x.chunkEnd : ℕ)) ≠ 0
    rw [hu32]
    omega
  have hzero : alignReadSize x.alignment
      (toU32 ((x.chunkEnd : ℤ) - (alignUp x.alignment x.chunkEnd : ℕ))) = 0 := by
    rw [hu32]
    exact alignReadSize_wrap hdvd32 (by omega) (by omega)
  obtain ⟨res, res', seen, hseen, rfl, hran, hcase⟩ :=
    (CopyRunner.round_reading hm hidle hlt32 hne hzero).mp hround
  have hres : res = (min 0 ((st.disk env.source).length - alignUp x.alignment x.chunkEnd) : ℕ) :=
    hran.policy.resolve_right id
  have hres0 : res = 0 := by omega
  subst hres0
  obtain ⟨-, hranw, -⟩ := hcase.resolve_right fun hc => hc.1 rfl
  exact handle_eof (x := x.moved _ wo) hm hx.jobs hx.error
    (.inl (ran_write_bounds hranw).1.le) hseen

/-- If the chunk has more than one byte, a short write makes the runner fail. -/
theorem not_inevitably_of_over
    (hn : alignUp x.alignment x.chunkEnd ≤ (st.disk env.source).length) (hsize : 1 < x.size) :
    ¬ Inevitably (Round env fullReads) (Copied x env st.disk) (x, st) := by
  have hlt : x.offset + 1 < x.chunkEnd := by
    simp only [chunkEnd]
    omega
  have hup := lt_alignUp hs.align_pos hdvd
  have hnotFinished : ∀ ro wo st₁, x.offset ≤ ro → wo < x.chunkEnd →
      ¬ Copied x env st.disk (x.moved ro wo, st₁) := by
    intro ro wo st₁ hro hwo hc
    have := hc.1
    rw [(hx.idle hro hwo).reschedule] at this
    cases this
  refine not_inevitably (fun s => s = (x, st) ∨ Failed s ∨ ∃ wo st₁, x.offset ≤ wo ∧
    wo < x.chunkEnd ∧ s = (x.moved (alignUp x.alignment x.chunkEnd) wo, st₁)) ?_ (.inl rfl)
  rintro s (rfl | ⟨e, he⟩ | ⟨wo, st₁, hwo, hwlt, rfl⟩)
  · -- the write is answered with one byte
    obtain ⟨st', hround⟩ := exists_round_over hm hx hs hdvd hn Nat.one_pos hlt.le
    have hstart := hnotFinished x.offset x.offset st le_rfl (by omega)
    rw [hx.moved_eq] at hround hstart
    exact ⟨hstart, .inr ⟨_, hround, .inr (.inr ⟨_, _, by omega, hlt, rfl⟩)⟩⟩
  · refine ⟨fun hc => ?_, .inl fun s' hround => ?_⟩
    · rw [hc.1] at he
      cases he
    · cases hround with
      | mk hx' => rw [hx'] at he; cases he
  · refine ⟨hnotFinished _ _ _ (by omega) hwlt, ?_⟩
    by_cases hex : ∃ s', Round env fullReads (x.moved (alignUp x.alignment x.chunkEnd) wo, st₁) s'
    · obtain ⟨⟨y, st₂⟩, hround⟩ := hex
      exact .inr ⟨_, hround, .inr (.inl (round_past hm hx hs hdvd hwo hwlt hround))⟩
    · exact .inl fun s' hround => hex ⟨s', hround⟩

/-- A single byte is written by the first round. -/
theorem inevitably_copied_of_over
    (hn : alignUp x.alignment x.chunkEnd ≤ (st.disk env.source).length) (hsize : x.size = 1) :
    Inevitably (Round env fullReads) (Copied x env st.disk) (x, st) := by
  have hend : x.chunkEnd = x.offset + 1 := by rw [chunkEnd, hsize]
  rw [← hx.moved_eq]
  obtain ⟨st', hround⟩ := exists_round_over hm hx hs hdvd hn Nat.one_pos hend.ge
  refine .later ⟨_, hround⟩ ?_
  rintro ⟨y, st'⟩ hround
  obtain ⟨k, hk, hle, rfl, hcopy⟩ := round_over hm hx hs hdvd hn hround
  have hlast : x.offset + k = x.chunkEnd := by omega
  rw [hlast] at hcopy ⊢
  rw [hx.moved_eq]
  exact .now (hcopy.copied hx)

end Over

end CopyRunner

namespace CopyQueue

open CopyRunner

variable {cfg : Config} {job : Job} {p : Part} {env : RunnerEnv} {st : Storage}

theorem runner_unstarted (p : Part) (file buffer : ℕ) : (p.runner file buffer).Unstarted :=
  ⟨rfl, rfl, rfl, rfl⟩

/-- The rounds of a chunk whose source has become shorter end with an error if and only if the source
ends before the chunk, or at a multiple of the alignment. -/
theorem shrunken_detected_iff (hacc : Accepted cfg.heap job) (hp : IsPart cfg job p)
    (hm : env.modes = {}) (file buffer : ℕ)
    (hn : (st.disk env.source).length < p.offset + p.size) :
    Inevitably (Round env fullReads) Failed (p.runner file buffer, st) ↔
      (st.disk env.source).length ≤ p.offset ∨ p.alignment ∣ (st.disk env.source).length := by
  have hne : job.stxSize ≠ 0 := by
    intro hz
    rw [hp.of_empty hz] at hn
    exact Nat.not_lt_zero _ hn
  have hx := runner_unstarted p file buffer
  have hs := hp.shaped hacc hne file buffer
  have hend : (p.runner file buffer).chunkEnd = p.offset + p.size := rfl
  have hpos := hs.pos
  have hlt : (p.runner file buffer).offset < (p.runner file buffer).chunkEnd := by
    show p.offset < p.offset + p.size
    have := hp.size_pos hne
    omega
  rw [← hx.moved_eq]
  constructor
  · intro hinev
    by_contra hc
    push Not at hc
    refine not_inevitably_of_stall Failed (fun ro st hro => hx.not_failed hro hlt) hm hx hs le_rfl
      hlt le_rfl hlt hs.dvd hc.1 ?_ (by rw [hend]; omega) hc.2 hinev
    exact hn.trans_le (le_alignUp hs.align_pos _)
  · rintro (hle | hdvd)
    · exact inevitably_failed_of_eof hm hx hs le_rfl hlt hs.dvd le_rfl hlt hle
    · by_cases hle : (st.disk env.source).length ≤ p.offset
      · exact inevitably_failed_of_eof hm hx hs le_rfl hlt hs.dvd le_rfl hlt hle
      · exact inevitably_failed_of_dvd hm hx hs le_rfl (Nat.lt_of_not_le hle) hs.dvd le_rfl hlt hn
          hdvd

/-- The rounds of a chunk whose source still has all of it finish with exactly the chunk written, for
every kernel that answers reads in full, if and only if the chunk ends at a multiple of the
alignment, or the source ends where the chunk does, or the chunk is a single byte and the source
reaches to the next multiple of the alignment. -/
theorem grown_copied_iff (hacc : Accepted cfg.heap job) (hp : IsPart cfg job p)
    (hne : job.stxSize ≠ 0) (hm : env.modes = {}) (file buffer : ℕ)
    (hn : p.offset + p.size ≤ (st.disk env.source).length) :
    Inevitably (Round env fullReads) (Copied (p.runner file buffer) env st.disk)
        (p.runner file buffer, st) ↔
      p.alignment ∣ p.offset + p.size ∨ (st.disk env.source).length = p.offset + p.size ∨
        p.size = 1 ∧ alignUp p.alignment (p.offset + p.size) ≤ (st.disk env.source).length := by
  have hx := runner_unstarted p file buffer
  have hs := hp.shaped hacc hne file buffer
  have hlt := hs.offset_lt
  have hpos := hp.size_pos hne
  by_cases hdvd : p.alignment ∣ p.offset + p.size
  · exact iff_of_true (inevitably_copied hm hx hs (fun _ hc => hc.elim) hn (.inl hdvd)) (.inl hdvd)
  by_cases hlen : (st.disk env.source).length = p.offset + p.size
  · exact iff_of_true (inevitably_copied hm hx hs (fun _ hc => hc.elim) hn (.inr hlen))
      (.inr (.inl hlen))
  by_cases hup : alignUp p.alignment (p.offset + p.size) ≤ (st.disk env.source).length
  · by_cases hone : p.size = 1
    · exact iff_of_true (inevitably_copied_of_over hm hx hs hdvd hup hone)
        (.inr (.inr ⟨hone, hup⟩))
    · have hmore : 1 < p.size := by omega
      refine iff_of_false (not_inevitably_of_over hm hx hs hdvd hup hmore) ?_
      rintro (hc | hc | hc)
      · exact hdvd hc
      · exact hlen hc
      · exact hone hc.1
  · refine iff_of_false ?_ ?_
    · rw [← hx.moved_eq]
      refine not_inevitably_of_stall _ (fun ro st hro hc => ?_) hm hx hs le_rfl hlt le_rfl hlt hs.dvd
        (hlt.trans_le hn) (Nat.lt_of_not_le hup) hlen ?_
      · have hres := hc.1
        rw [(hx.idle hro hlt).reschedule] at hres
        cases hres
      · -- there is no multiple between the end of the chunk and the next one
        intro hc
        exact hup (alignUp_le hc hn)
    · rintro (hc | hc | hc)
      · exact hdvd hc
      · exact hlen hc
      · exact hup hc.2

/-- The rounds of a chunk of a source that has not changed finish, whatever transfers are short, if a
read brings at least `alignment` bytes or everything, and a write at least one byte; what is left to
read and to write becomes less in every round. -/
theorem stable_copy_finishes (hacc : Accepted cfg.heap job) (hp : IsPart cfg job p)
    (hne : job.stxSize ≠ 0) (hm : env.modes = {}) (file buffer : ℕ)
    (hn : (st.disk env.source).length = job.stxSize) :
    Inevitably (Round env (shortReads p.alignment)) (fun s => s.1.runnerResult = .finished)
      (p.runner file buffer, st) ∧
    ∀ s s', Relation.ReflTransGen (Round env (shortReads p.alignment)) (p.runner file buffer, st) s →
      Round env (shortReads p.alignment) s s' → s'.1.toDo < s.1.toDo := by
  have hx := runner_unstarted p file buffer
  have hs := hp.shaped hacc hne file buffer
  have hle : (p.runner file buffer).chunkEnd ≤ (st.disk env.source).length := by
    rw [hn]
    exact hp.end_le
  have hend : p.alignment ∣ p.offset + p.size ∨ (st.disk env.source).length = p.offset + p.size := by
    rw [hn]
    exact (hp.end_dvd hacc hne).imp_right Eq.symm
  refine ⟨(inevitably_copied hm hx hs (fun _ hr => hr) hle hend).mono fun _ hc => hc.1,
    fun s s' hreach hround => ?_⟩
  have hin : InCopy (p.runner file buffer) env st.disk s := by
    clear hround
    induction hreach with
    | refl => exact inCopy_start hx hs
    | tail _ hstep ih => exact (ih.round hm hx hs (fun _ hr => hr) hle hend hstep).1
  exact (hin.round hm hx hs (fun _ hr => hr) hle hend hround).2

/-! ## Instances -/

/-- A runner that copies file 1 to file 2. -/
def smallEnv : RunnerEnv := { source := 1, dest := 2 }

theorem smallJob_part {size : ℕ} (h0 : 0 < size) (h : size ≤ 8) :
    IsPart smallConfig (smallJob size) ⟨0, size, 4⟩ where
  eq := by
    have hchunk : chunkSize smallConfig.heap (smallJob size).stxBlksize = 8 := rfl
    have hsize : (smallJob size).stxSize = size := rfl
    rw [partAt, hchunk, hsize, if_neg h0.ne', Nat.sub_zero, Nat.min_eq_right h]
    rfl
  lt _ := ⟨h0, (by decide : 0 < 8)⟩
  dvd := dvd_zero _

theorem length_smallStorage (size : ℕ) :
    ((smallStorage size).disk smallEnv.source).length = size := by
  simp [smallStorage, smallEnv]

theorem shrunken_detected_aligned :
    ((smallStorage 4).disk smallEnv.source).length < 0 + 8 ∧
    Inevitably (Round smallEnv fullReads) Failed
      ((⟨0, 8, 4⟩ : Part).runner 0 64, smallStorage 4) := by
  have hlen := length_smallStorage 4
  refine ⟨by rw [hlen]; decide, ?_⟩
  exact (shrunken_detected_iff (smallJob_accepted 8) (smallJob_part (by decide) (by decide)) rfl 0 64
    (by rw [hlen]; decide)).mpr (.inr (by rw [hlen]))

/-- The source has become shorter by two bytes: every round reads the same bytes again. -/
theorem shrunken_undetected :
    Accepted smallHeap (smallJob 8) ∧ IsPart smallConfig (smallJob 8) ⟨0, 8, 4⟩ ∧
    ((smallStorage 6).disk smallEnv.source).length = 6 ∧
    ¬ Inevitably (Round smallEnv fullReads) Failed
      ((⟨0, 8, 4⟩ : Part).runner 0 64, smallStorage 6) := by
  have hacc := smallJob_accepted 8
  have hpart : IsPart smallConfig (smallJob 8) ⟨0, 8, 4⟩ := smallJob_part (by decide) (by decide)
  have hlen := length_smallStorage 6
  have hx := runner_unstarted ⟨0, 8, 4⟩ 0 64
  have hs := hpart.shaped hacc (by decide) 0 64
  refine ⟨hacc, hpart, hlen, ?_⟩
  rw [← hx.moved_eq]
  exact not_inevitably_of_stall _ (fun ro st hro => hx.not_failed hro (by decide)) rfl hx hs le_rfl
    (by decide) le_rfl (by decide) hs.dvd (by rw [hlen]; decide) (by rw [hlen]; decide)
    (by rw [hlen]; decide) (by rw [hlen]; decide)

theorem grown_copied_aligned :
    0 + 8 ≤ ((smallStorage 9).disk smallEnv.source).length ∧
    Inevitably (Round smallEnv fullReads)
      (Copied ((⟨0, 8, 4⟩ : Part).runner 0 64) smallEnv (smallStorage 9).disk)
      ((⟨0, 8, 4⟩ : Part).runner 0 64, smallStorage 9) := by
  have hlen := length_smallStorage 9
  refine ⟨by rw [hlen]; decide, ?_⟩
  exact (grown_copied_iff (smallJob_accepted 8) (smallJob_part (by decide) (by decide)) (by decide)
    rfl 0 64 (by rw [hlen]; decide)).mpr (.inl (by decide))

/-- A file of six bytes has grown by one: every round reads the same bytes again. -/
theorem grown_not_copied :
    Accepted smallHeap (smallJob 6) ∧ IsPart smallConfig (smallJob 6) ⟨0, 6, 4⟩ ∧
    ((smallStorage 7).disk smallEnv.source).length = 7 ∧
    ¬ Inevitably (Round smallEnv fullReads)
      (Copied ((⟨0, 6, 4⟩ : Part).runner 0 64) smallEnv (smallStorage 7).disk)
      ((⟨0, 6, 4⟩ : Part).runner 0 64, smallStorage 7) := by
  have hacc := smallJob_accepted 6
  have hpart : IsPart smallConfig (smallJob 6) ⟨0, 6, 4⟩ := smallJob_part (by decide) (by decide)
  have hlen := length_smallStorage 7
  have hx := runner_unstarted ⟨0, 6, 4⟩ 0 64
  have hs := hpart.shaped hacc (by decide) 0 64
  refine ⟨hacc, hpart, hlen, ?_⟩
  rw [← hx.moved_eq]
  refine not_inevitably_of_stall _ (fun ro st hro hc => ?_) rfl hx hs le_rfl
    (by decide) le_rfl (by decide) hs.dvd (by rw [hlen]; decide) (by rw [hlen]; decide)
    (by rw [hlen]; decide) (by rw [hlen]; decide)
  have hres := hc.1
  rw [(hx.idle hro (by decide)).reschedule] at hres
  cases hres

theorem stable_copy_finishes_unaligned :
    Inevitably (Round smallEnv (shortReads 4)) (fun s => s.1.runnerResult = .finished)
      ((⟨0, 6, 4⟩ : Part).runner 0 64, smallStorage 6) :=
  (stable_copy_finishes (smallJob_accepted 6) (smallJob_part (by decide) (by decide)) (by decide)
    rfl 0 64 (length_smallStorage 6)).1

end CopyQueue

end Wcp
