import WcpVerified.Proofs.BufferProofs
import WcpVerified.Proofs.CycleProofs

/-!
# Proofs: every request of a runner is in bounds

Whatever the requests of a runner are answered, how ever its source grows or shrinks meanwhile. The
runner has read up to a multiple of its alignment or exactly to the end of its chunk (`Positioned`),
and it has written only if it had read the whole chunk. When a source that has grown made it read past
the end, the length of the next read wraps and is rounded up to 0.
-/

namespace Wcp

open MachineWord Alignment

namespace CopyRunner

variable {x x₀ y : CopyRunner} {env : RunnerEnv} {chain : Chain}

/-- How far a runner can have come. -/
structure Positioned (x : CopyRunner) : Prop where
  read_ge : x.offset ≤ x.readOffset
  read_le : x.readOffset ≤ alignUp x.alignment x.chunkEnd
  read_dvd : x.alignment ∣ x.readOffset ∨ x.readOffset = x.chunkEnd
  write_ge : x.offset ≤ x.writeOffset
  write_le : x.writeOffset ≤ x.chunkEnd
  order : x.offset < x.writeOffset → x.chunkEnd ≤ x.readOffset

/-- The requests of a runner that are in flight, in the order of their chain. -/
inductive InFlight (env : RunnerEnv) (x : CopyRunner) : Chain → Prop where
  | none {broken : Bool} : InFlight env x ⟨[], broken⟩
  /-- Up to the end of the chunk, rounded up, or nothing if that has been passed. -/
  | both {len : ℕ} (he : x.savedError = none) (hne : x.readOffset ≠ x.chunkEnd)
      (hlen : x.readOffset < x.chunkEnd ∧ x.readOffset + len = alignUp x.alignment x.chunkEnd ∨
        x.chunkEnd < x.readOffset ∧ len = 0) :
      InFlight env x { reqs := [x.readReq env len, x.writeReq env] }
  /-- The read is done, or was not needed; the write runs only if everything has been read. -/
  | write {broken : Bool} (h : broken = true ∨ x.chunkEnd ≤ x.readOffset) :
      InFlight env x ⟨[x.writeReq env], broken⟩

theorem SameChunk.trans {z : CopyRunner} (h : SameChunk x y) (h' : SameChunk y z) :
    SameChunk x z where
  file := h'.file.trans h.file
  offset := h'.offset.trans h.offset
  size := h'.size.trans h.size
  alignment := h'.alignment.trans h.alignment
  buffer := h'.buffer.trans h.buffer
  bufferAligned := h'.bufferAligned.trans h.bufferAligned

/-! ## A round begins -/

theorem alignUp_chunkEnd (h : x.Shaped) :
    alignUp x.alignment x.chunkEnd = x.offset + alignUp x.alignment x.size :=
  alignUp_add h.dvd h.align_pos x.size

/-- The length of the read a runner asks for. -/
theorem readLen_cases (h : x.Shaped) (hp : x.Positioned) (hne : x.readOffset ≠ x.chunkEnd) :
    toU32 ((x.chunkEnd : ℤ) - x.readOffset) ≠ 0 ∧
    ∃ len, alignReadSize x.alignment (toU32 ((x.chunkEnd : ℤ) - x.readOffset)) = len ∧
      (x.readOffset < x.chunkEnd ∧ x.readOffset + len = alignUp x.alignment x.chunkEnd ∨
        x.chunkEnd < x.readOffset ∧ len = 0) := by
  have hdvd := hp.read_dvd.resolve_right hne
  have hup := alignUp_lt h.align_pos x.chunkEnd
  have halign := h.align_lt
  have hread := hp.read_le
  rcases Nat.lt_or_gt_of_ne hne with hlt | hgt
  · obtain ⟨htoU32, hround, -⟩ := h.readSize hp.read_ge hlt
    rw [htoU32]
    refine ⟨by omega, _, hround, .inl ⟨hlt, ?_⟩⟩
    rw [h.readLen hlt hdvd]
    omega
  · -- past the end: the difference is negative
    have hwrap : toU32 ((x.chunkEnd : ℤ) - x.readOffset) = 2 ^ 32 - (x.readOffset - x.chunkEnd) := by
      unfold toU32
      omega
    obtain ⟨k, hk⟩ := h.pow
    have hpow : x.alignment ∣ 2 ^ 32 := by
      rw [hk] at halign ⊢
      have hlt31 : k < 31 := (Nat.pow_lt_pow_iff_right (by decide)).mp halign
      exact Nat.pow_dvd_pow 2 (by omega)
    rw [hwrap]
    exact ⟨by omega, 0, alignReadSize_wrap hpow (by omega) (by omega), .inr ⟨hgt, rfl⟩⟩

theorem runnerResult_reschedule (h : x.runnerResult = .reschedule) :
    x.savedError = none ∧ x.writeOffset ≠ x.chunkEnd := by
  unfold runnerResult at h
  split at h
  · cases he : x.savedError with
    | some e => rw [he] at h; cases h
    | none =>
      rw [he] at h
      refine ⟨rfl, fun hw => ?_⟩
      rw [if_pos hw] at h
      cases h
  · cases h

theorem positioned_submit (h : x.Shaped) (hp : x.Positioned) (hx : x.runnerResult = .reschedule)
    (a b : ℕ) : InFlight env (x.counting (x.requests {} a b (some env.source) (some env.dest)
      env.self).length) { reqs := x.requests {} a b (some env.source) (some env.dest) env.self } := by
  obtain ⟨he, hw⟩ := runnerResult_reschedule hx
  have hwlt : x.writeOffset < x.chunkEnd := lt_of_le_of_ne hp.write_le hw
  have hsize := h.size_lt
  have hrest : x.chunkEnd - x.writeOffset < 2 ^ 32 := by
    have := hp.write_ge
    simp only [chunkEnd]
    omega
  by_cases hr : x.readOffset = x.chunkEnd
  · rw [requests_done a b hr hwlt hrest]
    exact .write (.inr hr.ge)
  · obtain ⟨hne, len, hlen, hcases⟩ := readLen_cases h hp hr
    rw [requests_reading a b hne hlen hwlt hrest]
    exact .both he hr hcases

/-! ## A request completes -/

section Events

variable {strerror : Errno → List Char} {src dst : Path} {res : ℤ}

theorem onRead_readOffset (he : x.savedError = none) :
    (x.onCompletionEvent strerror {} src dst .read res).readOffset =
      if res < 0 then x.readOffset else x.advanceRead res.toNat := by
  simp only [onCompletionEvent, he, Option.isSome_none, Bool.false_eq_true, if_false, onRead,
    spoof_off]
  rfl

/-- A write moves on by its result, and not at all once an error has been saved. -/
theorem onWrite_writeOffset (x : CopyRunner) (strerror : Errno → List Char) (src dst : Path)
    (res : ℤ) :
    (x.onCompletionEvent strerror {} src dst .write res).writeOffset = x.writeOffset ∨
      0 ≤ res ∧ (x.onCompletionEvent strerror {} src dst .write res).writeOffset =
        x.writeOffset + res.toNat := by
  cases he : x.savedError with
  | some e =>
    left
    simp [onCompletionEvent, he]
  | none =>
    by_cases hneg : res < 0
    · left
      simp [onCompletionEvent, he, onWrite, spoof_off, hneg]
    · right
      refine ⟨by omega, ?_⟩
      simp [onCompletionEvent, he, onWrite, spoof_off, hneg]

/-- Where a read of at most `len` bytes leaves the runner. -/
theorem advanceRead_cases (h : x.Shaped) (hp : x.Positioned) (hne : x.readOffset ≠ x.chunkEnd)
    {len n : ℕ} (hn : n ≤ len)
    (hlen : x.readOffset < x.chunkEnd ∧ x.readOffset + len = alignUp x.alignment x.chunkEnd ∨
      x.chunkEnd < x.readOffset ∧ len = 0) :
    x.offset ≤ x.advanceRead n ∧ x.advanceRead n ≤ alignUp x.alignment x.chunkEnd ∧
      (x.alignment ∣ x.advanceRead n ∨ x.advanceRead n = x.chunkEnd) ∧
      (x.chunkEnd < x.readOffset ∨ n = len → x.chunkEnd ≤ x.advanceRead n) := by
  have hdvd := hp.read_dvd.resolve_right hne
  have hle := le_alignUp h.align_pos x.chunkEnd
  have hup := alignUp_lt h.align_pos x.chunkEnd
  have halign := h.align_lt
  have hge := hp.read_ge
  have hsize := h.size_lt
  have hto : x.readOffset + n ≤ alignUp x.alignment x.chunkEnd := by
    have := hp.read_le
    omega
  have hend : x.chunkEnd = x.offset + x.size := rfl
  by_cases hreach : x.readOffset + n = x.chunkEnd
  · have hz : toU32 ((x.chunkEnd : ℤ) - (x.readOffset + n : ℕ)) = 0 := by
      rw [hreach, Int.sub_self]
      rfl
    have hadv : x.advanceRead n = x.chunkEnd := (if_neg (not_not.mpr hz)).trans hreach
    rw [hadv]
    exact ⟨by omega, hle, .inr rfl, fun _ => le_refl _⟩
  · have hnz : toU32 ((x.chunkEnd : ℤ) - (x.readOffset + n : ℕ)) ≠ 0 :=
      toU32_sub_ne_zero (Ne.symm hreach) (by omega) (by omega)
    have hadv : x.advanceRead n = alignDown x.alignment (x.readOffset + n) := if_pos hnz
    have hdown := alignDown_le x.alignment (x.readOffset + n)
    rw [hadv]
    refine ⟨le_alignDown h.dvd (by omega), by omega, .inl (dvd_alignDown _ _), fun hfull => ?_⟩
    -- past the end before, or now: in both cases at a multiple of the alignment
    rcases hlen with ⟨hlt, hsum⟩ | ⟨hgt, hzero⟩
    · have hsum' : x.readOffset + n = alignUp x.alignment x.chunkEnd := by omega
      rw [hsum', alignDown_of_dvd (dvd_alignUp _ _)]
      exact hle
    · have hn0 : n = 0 := by omega
      rw [hn0, Nat.add_zero, alignDown_of_dvd hdvd]
      exact hgt.le

end Events

/-! ## Runs -/

/-- What holds of a runner and its requests in flight. -/
structure Running (env : RunnerEnv) (x₀ : CopyRunner) (st : CopyRunner × Chain) : Prop where
  same : SameChunk x₀ st.1
  positioned : st.1.Positioned
  flight : InFlight env st.1 st.2

theorem Shaped.of_same (h : x.Shaped) (hs : SameChunk x y) : y.Shaped where
  pow := hs.alignment ▸ h.pow
  dvd := hs.alignment ▸ hs.offset ▸ h.dvd
  pos := hs.size ▸ h.pos
  lt := by rw [hs.alignment, hs.size]; exact h.lt

theorem writeReq_of_same (hs : SameChunk x y) (hw : y.writeOffset = x.writeOffset) :
    y.writeReq env = x.writeReq env := by
  simp only [writeReq, hs.bufferAligned, hs.offset, hs.toSamePart.chunkEnd, hw]

/-- A runner that has only read on. -/
theorem Positioned.read_to (hp : x.Positioned) (hs : SameChunk x y)
    (hw : y.writeOffset = x.writeOffset) (hge : x.offset ≤ y.readOffset)
    (hle : y.readOffset ≤ alignUp x.alignment x.chunkEnd)
    (hdvd : x.alignment ∣ y.readOffset ∨ y.readOffset = x.chunkEnd)
    (horder : x.offset < x.writeOffset → x.chunkEnd ≤ y.readOffset) : y.Positioned := by
  have hend := hs.toSamePart.chunkEnd
  refine ⟨?_, ?_, ?_, ?_, ?_, ?_⟩
  · rw [hs.offset]; exact hge
  · rw [hs.alignment, hend]; exact hle
  · rw [hs.alignment, hend]; exact hdvd
  · rw [hs.offset, hw]; exact hp.write_ge
  · rw [hend, hw]; exact hp.write_le
  · rw [hs.offset, hend, hw]; exact horder

/-- A runner that has only written on, with everything read. -/
theorem Positioned.write_to (hp : x.Positioned) (hs : SameChunk x y)
    (hr : y.readOffset = x.readOffset) (hge : x.writeOffset ≤ y.writeOffset)
    (hle : y.writeOffset ≤ x.chunkEnd)
    (horder : x.writeOffset < y.writeOffset → x.chunkEnd ≤ x.readOffset) : y.Positioned := by
  have hend := hs.toSamePart.chunkEnd
  refine ⟨?_, ?_, ?_, ?_, ?_, ?_⟩
  · rw [hs.offset, hr]; exact hp.read_ge
  · rw [hs.alignment, hend, hr]; exact hp.read_le
  · rw [hs.alignment, hend, hr]; exact hp.read_dvd
  · rw [hs.offset]; exact hp.write_ge.trans hge
  · rw [hend]; exact hle
  · rw [hs.offset, hend, hr]
    intro hlt
    by_cases hmoved : x.writeOffset < y.writeOffset
    · exact horder hmoved
    · exact hp.order (by omega)

/-- The read of a round completes. -/
theorem running_read (env : RunnerEnv) {len : ℕ} {res : ℤ} (h : x.Shaped) (hp : x.Positioned)
    (hs : SameChunk x y) (hw : y.writeOffset = x.writeOffset)
    (hr : y.readOffset = if res < 0 then x.readOffset else x.advanceRead res.toNat)
    (hne : x.readOffset ≠ x.chunkEnd)
    (hlen : x.readOffset < x.chunkEnd ∧ x.readOffset + len = alignUp x.alignment x.chunkEnd ∨
      x.chunkEnd < x.readOffset ∧ len = 0) (hle : res ≤ len) :
    y.Positioned ∧ InFlight env y ⟨[y.writeReq env], !(x.readReq env len).succeeded res⟩ := by
  have hsucc : (x.readReq env len).succeeded res = decide (res = len) := rfl
  rw [hsucc]
  by_cases hneg : res < 0
  · rw [if_pos hneg] at hr
    refine ⟨hp.read_to hs hw (hr ▸ hp.read_ge) (hr ▸ hp.read_le) (hr ▸ hp.read_dvd)
      (hr ▸ hp.order), .write (.inl ?_)⟩
    rw [decide_eq_false (by omega)]
    rfl
  · rw [if_neg hneg] at hr
    obtain ⟨h1, h2, h3, h4⟩ := advanceRead_cases h hp hne (by omega : res.toNat ≤ len) hlen
    rw [← hr] at h1 h2 h3 h4
    constructor
    · refine hp.read_to hs hw h1 h2 h3 fun hlt => h4 (.inl ?_)
      have := hp.order hlt
      omega
    · by_cases hfull : res = len
      · apply InFlight.write
        right
        rw [hs.toSamePart.chunkEnd]
        exact h4 (.inr (by omega))
      · apply InFlight.write
        left
        rw [decide_eq_false hfull]
        rfl

/-- The write of a round completes. -/
theorem running_write (env : RunnerEnv) {res : ℤ} {broken : Bool} (hp : x.Positioned) (hs : SameChunk x y)
    (hr : y.readOffset = x.readOffset)
    (hw : y.writeOffset = x.writeOffset ∨ 0 ≤ res ∧ y.writeOffset = x.writeOffset + res.toNat)
    (hflight : broken = true ∨ x.chunkEnd ≤ x.readOffset) (hle : res ≤ (x.writeReq env).len)
    (hcancel : broken = true → res = -ECANCELED) : y.Positioned := by
  have hlen : (x.writeReq env).len = x.chunkEnd - x.writeOffset := rfl
  rw [hlen] at hle
  have hend := hp.write_le
  rcases hw with hw | ⟨h0, hw⟩
  · exact hp.write_to hs hr hw.ge (hw ▸ hend) (fun hlt => absurd hlt (by omega))
  · refine hp.write_to hs hr (by omega) (by omega) fun _ => hflight.resolve_left fun hb => ?_
    rw [hcancel hb] at h0
    exact absurd h0 (by decide)

theorem running_step {st st' : CopyRunner × Chain} (h : x₀.Shaped) (hm : env.modes = {})
    (hI : Running env x₀ st) (hstep : RunnerStep env st st') : Running env x₀ st' := by
  obtain ⟨hsame, hp, hflight⟩ := hI
  have hshaped := h.of_same hsame
  cases hstep with
  | @submit x a b broken sqes hx hsqes =>
    rw [hm] at hsqes ⊢
    rw [submitted_off]
    have hcount : SameChunk x (x.counting sqes.length) := ⟨⟨rfl, rfl, rfl, rfl⟩, rfl, rfl⟩
    refine ⟨hsame.trans hcount, ⟨hp.1, hp.2, hp.3, hp.4, hp.5, hp.6⟩, ?_⟩
    rw [hsqes]
    exact positioned_submit hshaped hp hx a b
  | @complete x e rest broken res hle hcancel =>
    rw [hm]
    have hsame' : SameChunk x
        (x.onCompletionEvent env.strerror {} env.sourcePath env.destPath e.event res) :=
      onCompletionEvent_same
    have hflight : InFlight env x ⟨e :: rest, broken⟩ := hflight
    cases hflight with
    | both he hne hlen =>
      have hw : (x.onCompletionEvent env.strerror {} env.sourcePath env.destPath .read
          res).writeOffset = x.writeOffset := onCompletionEvent_read_writeOffset
      obtain ⟨hpos, hfl⟩ := running_read env hshaped hp hsame' hw (onRead_readOffset he) hne hlen hle
      refine ⟨hsame.trans hsame', hpos, ?_⟩
      rw [writeReq_of_same hsame' hw] at hfl
      exact hfl
    | write hcase =>
      have hr : (x.onCompletionEvent env.strerror {} env.sourcePath env.destPath .write
          res).readOffset = x.readOffset := onCompletionEvent_write_readOffset
      have hw := x.onWrite_writeOffset env.strerror env.sourcePath env.destPath res
      exact ⟨hsame.trans hsame', running_write env hp hsame' hr hw hcase hle hcancel, .none⟩

theorem running_runs {st : CopyRunner × Chain} (h : x₀.Shaped) (hm : env.modes = {})
    (hx : x₀.Unstarted) (hrun : Relation.ReflTransGen (RunnerStep env) (x₀, ⟨[], false⟩) st) :
    Running env x₀ st := by
  induction hrun with
  | refl =>
    have hend := le_alignUp h.align_pos x₀.chunkEnd
    have hchunk : x₀.chunkEnd = x₀.offset + x₀.size := rfl
    refine ⟨⟨.refl x₀, rfl, rfl⟩, ⟨hx.read.ge, ?_, .inl (hx.read ▸ h.dvd), hx.write.ge, ?_, ?_⟩, .none⟩
    · show x₀.readOffset ≤ alignUp x₀.alignment x₀.chunkEnd
      rw [hx.read]
      omega
    · show x₀.writeOffset ≤ x₀.chunkEnd
      rw [hx.write]
      omega
    · show x₀.offset < x₀.writeOffset → _
      intro hlt
      exact absurd hx.write hlt.ne'
  | tail _ hstep ih => exact running_step h hm ih hstep

/-! ## The requests -/

/-- A read meets the rules of `O_DIRECT` and stays in the heap block of its runner. -/
structure ReadInBounds (heap : Heap) (block : ℕ) (x : CopyRunner) (e : Sqe) : Prop where
  addr : x.alignment ∣ e.addr
  off : x.alignment ∣ e.off
  len : x.alignment ∣ e.len
  ge : block ≤ e.addr
  le : e.addr + e.len ≤ block + heap.blockSize

/-- A write stays in the runner's data, in memory and in the file. -/
structure WriteInBounds (x : CopyRunner) (e : Sqe) : Prop where
  ge : x.bufferAligned ≤ e.addr
  le : e.addr + e.len ≤ x.bufferAligned + x.size
  off_ge : x.offset ≤ e.off
  off_le : e.off + e.len ≤ x.offset + x.size

/-- The buffer of a runner is a part of its block that has room for its rounded chunk. -/
structure Placed (heap : Heap) (block : ℕ) (x : CopyRunner) : Prop where
  dvd : x.alignment ∣ x.bufferAligned
  ge : block ≤ x.bufferAligned
  le : x.bufferAligned + alignUp x.alignment x.size ≤ block + heap.blockSize

variable {heap : Heap} {block : ℕ}

theorem Placed.of_same (h : Placed heap block x) (hs : SameChunk x y) : Placed heap block y where
  dvd := by rw [hs.alignment, hs.bufferAligned]; exact h.dvd
  ge := by rw [hs.bufferAligned]; exact h.ge
  le := by rw [hs.alignment, hs.bufferAligned, hs.size]; exact h.le

theorem readInBounds {len : ℕ} (h : x.Shaped) (hp : x.Positioned) (hb : Placed heap block x)
    (hne : x.readOffset ≠ x.chunkEnd)
    (hlen : x.readOffset < x.chunkEnd ∧ x.readOffset + len = alignUp x.alignment x.chunkEnd ∨
      x.chunkEnd < x.readOffset ∧ len = 0) : ReadInBounds heap block x (x.readReq env len) := by
  have hdvd := hp.read_dvd.resolve_right hne
  have hge := hp.read_ge
  have hle := hp.read_le
  have hend := alignUp_chunkEnd h
  have haddr : (x.readReq env len).addr = x.bufferAligned + (x.readOffset - x.offset) := by
    show x.bufferAligned + x.readOffset - x.offset = _
    omega
  have hsum : x.readOffset + len ≤ alignUp x.alignment x.chunkEnd := by omega
  have hlenreq : (x.readReq env len).len = len := rfl
  have hplaced := hb.le
  have hblock := hb.ge
  refine ⟨?_, hdvd, ?_, ?_, ?_⟩
  · rw [haddr]
    exact Nat.dvd_add hb.dvd (Nat.dvd_sub hdvd h.dvd)
  · rw [hlenreq]
    rcases hlen with ⟨-, hlen⟩ | ⟨-, hlen⟩
    · have hsub : len = alignUp x.alignment x.chunkEnd - x.readOffset := by omega
      rw [hsub]
      exact Nat.dvd_sub (dvd_alignUp _ _) hdvd
    · rw [hlen]
      exact dvd_zero _
  · rw [haddr]
    omega
  · rw [haddr, hlenreq]
    omega

theorem writeInBounds (hp : x.Positioned) : WriteInBounds x (x.writeReq env) := by
  have hge := hp.write_ge
  have hle := hp.write_le
  have hend : x.chunkEnd = x.offset + x.size := rfl
  refine ⟨?_, ?_, hge, ?_⟩
  · show x.bufferAligned ≤ x.bufferAligned + x.writeOffset - x.offset
    omega
  · show x.bufferAligned + x.writeOffset - x.offset + (x.chunkEnd - x.writeOffset) ≤ _
    omega
  · show x.writeOffset + (x.chunkEnd - x.writeOffset) ≤ _
    omega

theorem InFlight.inBounds (hf : InFlight env x chain) (h : x.Shaped) (hp : x.Positioned)
    (hb : Placed heap block x) {e : Sqe} (he : e ∈ chain.reqs) :
    (e.op = .read → ReadInBounds heap block x e) ∧ (e.op = .write → WriteInBounds x e) := by
  have hread : ∀ len, (x.readReq env len).op ≠ .write := fun len hop => by cases hop
  have hwrite : (x.writeReq env).op ≠ .read := fun hop => by cases hop
  cases hf with
  | none => cases he
  | both _ hne hlen =>
    rcases List.mem_pair.mp he with rfl | rfl
    · exact ⟨fun _ => readInBounds h hp hb hne hlen, fun hop => absurd hop (hread _)⟩
    · exact ⟨fun hop => absurd hop hwrite, fun _ => writeInBounds hp⟩
  | write =>
    rw [List.mem_singleton.mp he]
    exact ⟨fun hop => absurd hop hwrite, fun _ => writeInBounds hp⟩

/-- The bounds are those of the runner as it was created. -/
theorem Running.inBounds {st : CopyRunner × Chain} (hI : Running env x₀ st) (h : x₀.Shaped)
    (hb : Placed heap block x₀) {e : Sqe} (he : e ∈ st.2.reqs) :
    (e.op = .read → ReadInBounds heap block x₀ e) ∧ (e.op = .write → WriteInBounds x₀ e) := by
  have hs := hI.same
  obtain ⟨hread, hwrite⟩ := hI.flight.inBounds (h.of_same hs) hI.positioned (hb.of_same hs) he
  constructor
  · intro hop
    obtain ⟨haddr, hoff, hlen, hge, hle⟩ := hread hop
    rw [hs.alignment] at haddr hoff hlen
    exact ⟨haddr, hoff, hlen, hge, hle⟩
  · intro hop
    obtain ⟨hge, hle, hoff, hend⟩ := hwrite hop
    rw [hs.bufferAligned] at hge
    rw [hs.bufferAligned, hs.size] at hle
    rw [hs.offset] at hoff
    rw [hs.offset, hs.size] at hend
    exact ⟨hge, hle, hoff, hend⟩

end CopyRunner

namespace CopyQueue

open CopyRunner

variable {cfg : Config} {job : Job} {p : Part}

/-- The runner of a part that has been given a block. -/
theorem placed_of_part (hacc : Accepted cfg.heap job) (hs : job.stxSize ≠ 0)
    (hp : IsPart cfg job p) (file : ℕ) {i : ℕ} (hi : i < cfg.heap.blocks) :
    Placed cfg.heap (cfg.heap.blockAddr i) (p.runner file (cfg.heap.blockAddr i)) := by
  obtain ⟨k, hk⟩ := hacc.blksize_pow
  have hchunk := (hp.lt hs).2
  have halign : p.alignment = 2 ^ k := (hp.alignment_eq hs).trans hk
  have hlt : 2 ^ k < 2 ^ 31 := hk ▸ hacc.blksize_le.trans_lt hacc.blockSize_lt
  have hk31 : k < 31 := (Nat.pow_lt_pow_iff_right (by decide)).mp hlt
  have hroomy : Roomy cfg.heap (2 ^ k) (chunkSize cfg.heap (2 ^ k)) :=
    roomy_chunkSize hacc.blockSize_dvd (hacc.blockSize_lt.trans (by decide))
      (.inr (hk ▸ hacc.blksize_le.trans (Nat.le_succ _))) (hk ▸ hchunk)
  obtain ⟨hfit, hroom⟩ := hroomy.room i hi
  have haligned : (p.runner file (cfg.heap.blockAddr i)).bufferAligned =
      alignUp (2 ^ k) (cfg.heap.blockAddr i) := by
    show alignBuffer (cfg.heap.blockAddr i) p.alignment = _
    rw [halign, alignBuffer_eq (by omega) hfit]
  have hsize : alignUp (2 ^ k) p.size ≤ chunkSize cfg.heap (2 ^ k) := by
    refine alignUp_le hroomy.dvd ?_
    rw [hp.size_eq hs, hk]
    exact Nat.min_le_left _ _
  refine ⟨?_, ?_, ?_⟩
  · show p.alignment ∣ _
    rw [haligned, halign]
    exact dvd_alignUp _ _
  · rw [haligned]
    exact le_alignUp (Nat.two_pow_pos k) _
  · show _ + alignUp p.alignment p.size ≤ _
    rw [haligned, halign]
    omega

/-- For every part of a file and every block, with both debug modes off: whatever its requests are
answered, every read of the runner meets the rules of `O_DIRECT` and stays in the block, every write
stays in the data of the part and in its range of the file, and the runner has read no further than
the rounded end of its chunk, and written only if it had read all of it. -/
theorem requests_in_bounds (hacc : Accepted cfg.heap job) (hs : job.stxSize ≠ 0)
    (hp : IsPart cfg job p) {i : ℕ} (hi : i < cfg.heap.blocks) {env : RunnerEnv}
    (hm : env.modes = {}) (file : ℕ) {x : CopyRunner} {chain : Chain}
    (hrun : Relation.ReflTransGen (RunnerStep env)
      (p.runner file (cfg.heap.blockAddr i), ⟨[], false⟩) (x, chain)) :
    (∀ e ∈ chain.reqs,
      (e.op = .read → ReadInBounds cfg.heap (cfg.heap.blockAddr i)
        (p.runner file (cfg.heap.blockAddr i)) e) ∧
      (e.op = .write → WriteInBounds (p.runner file (cfg.heap.blockAddr i)) e)) ∧
    p.offset ≤ x.readOffset ∧ x.readOffset ≤ alignUp p.alignment (p.offset + p.size) ∧
    (p.offset < x.writeOffset → p.offset + p.size ≤ x.readOffset) := by
  have hshaped := hp.shaped hacc hs file (cfg.heap.blockAddr i)
  have hI := running_runs hshaped hm ⟨rfl, rfl, rfl, rfl⟩ hrun
  have hpos := hI.positioned
  have hsame := hI.same
  refine ⟨fun e he => hI.inBounds hshaped (placed_of_part hacc hs hp file hi) he, ?_, ?_, ?_⟩
  · have hge := hpos.read_ge
    rwa [hsame.offset] at hge
  · have hle := hpos.read_le
    rwa [hsame.alignment, hsame.toSamePart.chunkEnd] at hle
  · have horder := hpos.order
    rwa [hsame.offset, hsame.toSamePart.chunkEnd] at horder

/-- The second part of a file of twelve bytes has queued the requests of its first round. -/
theorem requests_in_bounds_small :
    ∃ x chain, Relation.ReflTransGen (RunnerStep { source := 1, dest := 2 })
        ((⟨8, 4, 4⟩ : Part).runner 0 64, ⟨[], false⟩) (x, chain) ∧ chain.reqs.length = 2 ∧
      ∀ e ∈ chain.reqs, e.op = .read → 4 ∣ e.addr ∧ 64 ≤ e.addr ∧ e.addr + e.len ≤ 72 := by
  have hpart : IsPart smallConfig (smallJob 12) ⟨8, 4, 4⟩ := ⟨rfl, fun _ => by decide, by decide⟩
  have hrun : Relation.ReflTransGen (RunnerStep { source := 1, dest := 2 })
      ((⟨8, 4, 4⟩ : Part).runner 0 64, ⟨[], false⟩) _ :=
    .single (.submit (a := 0) (b := 0) (by decide) rfl)
  refine ⟨_, _, hrun, by decide, fun e he hop => ?_⟩
  have hbounds := (requests_in_bounds (smallJob_accepted 12) (by decide) hpart
    (by decide : 0 < smallConfig.heap.blocks) rfl 0 hrun).1 e he
  exact ⟨(hbounds.1 hop).addr, (hbounds.1 hop).ge, (hbounds.1 hop).le⟩

end CopyQueue

end Wcp
