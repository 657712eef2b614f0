import WcpVerified.CopyRunner

/-!
# Proofs: one round of a runner

What `submitReadWriteCommands` asks for, and what `onCompletionEvent` changes.
-/

namespace Wcp

open MachineWord List

/-- What a request is known by when it completes. -/
def Sqe.tag (e : Sqe) : ℕ × EventType := (e.runner, e.event)

/-! ## The requests of one round -/

namespace CopyRunner

variable {modes : DebugModes} {a b self : ℕ} {src dst : Option Ino} {r : CopyRunner}

theorem plannedWrite_le (h : r.writeOffset ≤ r.chunkEnd) :
    r.writeOffset + r.plannedWrite modes b ≤ r.chunkEnd := by
  have hle : toU32 ((r.chunkEnd : ℤ) - r.writeOffset) ≤ r.chunkEnd - r.writeOffset :=
    toU32_le (by omega) (by omega)
  unfold plannedWrite
  dsimp only
  split
  · have := Nat.mod_lt b (Nat.add_one_pos (toU32 ((r.chunkEnd : ℤ) - r.writeOffset)))
    omega
  · omega

theorem readSqe_cases (modes : DebugModes) (a : ℕ) (src : Option Ino) (self : ℕ)
    (r : CopyRunner) :
    readSqe modes a src self r = [] ∨
    ∃ e, readSqe modes a src self r = [e] ∧ e.tag = (self, .read) ∧ e.op = .read ∧ e.link = true ∧
      e.fd = src ∧ e.off = r.readOffset ∧ e.addr = r.bufferAligned + r.readOffset - r.offset ∧
      e.len = alignReadSize r.alignment (plannedRead modes a r).1 ∧
      (plannedRead modes a r).1 ≠ 0 := by
  unfold readSqe
  dsimp only
  split
  · rename_i h
    exact .inr ⟨_, rfl, rfl, rfl, rfl, rfl, rfl, rfl, rfl, h⟩
  · exact .inl rfl

theorem writeSqe_cases (modes : DebugModes) (a b : ℕ) (dst : Option Ino) (self : ℕ)
    (r : CopyRunner) :
    (writeSqe modes a b dst self r = [] ∧ r.chunkEnd ≤ r.writeOffset) ∨
    (r.writeOffset < r.chunkEnd ∧ ∃ e, writeSqe modes a b dst self r = [e] ∧
      e.tag = (self, .write) ∧ e.link = false ∧
      ((e.op = .nop ∧ e.len = 0 ∧ modes.forcePartialReads = true ∧
          (plannedRead modes a r).2 = true) ∨
        (e.op = .write ∧ e.fd = dst ∧ e.off = r.writeOffset ∧
          e.addr = r.bufferAligned + r.writeOffset - r.offset ∧
          e.len = plannedWrite modes b r ∧
          ¬ (modes.forcePartialReads = true ∧ (plannedRead modes a r).2 = true)))) := by
  unfold writeSqe
  split
  · rename_i hlt
    refine .inr ⟨hlt, ?_⟩
    split
    · rename_i hf
      rw [Bool.and_eq_true] at hf
      exact ⟨_, rfl, rfl, rfl, .inl ⟨rfl, rfl, hf.1, hf.2⟩⟩
    · rename_i hf
      rw [Bool.and_eq_true] at hf
      exact ⟨_, rfl, rfl, rfl, .inr ⟨rfl, rfl, rfl, rfl, rfl, hf⟩⟩
  · rename_i hlt
    exact .inl ⟨rfl, by omega⟩

/-- A round queues at most one read and one write, for the runner itself. -/
theorem requests_tags :
    (r.requests modes a b src dst self).map Sqe.tag <+ [(self, .read), (self, .write)] := by
  unfold requests
  rcases readSqe_cases modes a src self r with h | ⟨e, h, ht, -⟩ <;>
  rcases writeSqe_cases modes a b dst self r with ⟨h', -⟩ | ⟨-, e', h', ht', -⟩ <;>
  simp [*]

theorem requests_length_le : (r.requests modes a b src dst self).length ≤ MAX_JOBS_PER_RUNNER := by
  have hle : ((r.requests modes a b src dst self).map Sqe.tag).length ≤ _ :=
    requests_tags.length_le
  simpa [MAX_JOBS_PER_RUNNER] using hle

/-- While a chunk is not fully written, a round queues a write (or the nop in its place). -/
theorem requests_ne_nil (h : r.writeOffset < r.chunkEnd) :
    0 < (r.requests modes a b src dst self).length := by
  unfold requests
  rcases writeSqe_cases modes a b dst self r with ⟨-, hle⟩ | ⟨-, e', h', -⟩
  · omega
  · simp [h']

theorem requests_write_le {e : Sqe} (he : e ∈ r.requests modes a b src dst self)
    (hw : e.event = .write) : r.writeOffset + e.len ≤ r.chunkEnd := by
  unfold requests at he
  rcases mem_append.mp he with he | he
  · rcases readSqe_cases modes a src self r with h | ⟨e', h, ht, -⟩
    · simp [h] at he
    · rw [h, mem_singleton] at he
      subst he
      have := congrArg Prod.snd ht
      rw [Sqe.tag] at this
      simp [hw] at this
  · rcases writeSqe_cases modes a b dst self r with ⟨h, -⟩ | ⟨hlt, e', h, -, -, hop⟩
    · simp [h] at he
    · rw [h, mem_singleton] at he
      subst he
      rcases hop with ⟨-, hlen, -⟩ | ⟨-, -, -, -, hlen, -⟩
      · omega
      · rw [hlen]; exact plannedWrite_le hlt.le

theorem requests_write_op {e : Sqe} (he : e ∈ r.requests modes a b src dst self)
    (hw : e.event = .write) : e.op ≠ .read := by
  unfold requests at he
  rcases mem_append.mp he with he | he
  · rcases readSqe_cases modes a src self r with h | ⟨e', h, ht, -⟩
    · simp [h] at he
    · rw [h, mem_singleton] at he
      subst he
      have := congrArg Prod.snd ht
      rw [Sqe.tag] at this
      simp [hw] at this
  · rcases writeSqe_cases modes a b dst self r with ⟨h, -⟩ | ⟨hlt, e', h, -, -, hop⟩
    · simp [h] at he
    · rw [h, mem_singleton] at he
      subst he
      rcases hop with ⟨hop, -⟩ | ⟨hop, -⟩ <;> simp [hop]

end CopyRunner

/-! ## Completions -/

namespace CopyRunner

variable {strerror : Errno → List Char} {modes : DebugModes} {src dst : Path} {ev : EventType}
  {res : ℤ} {r : CopyRunner}

/-- A spoofed result is never better than the real one. -/
theorem spoof_le (modes : DebugModes) (override result : ℤ) (h : 0 ≤ result) :
    spoof modes override result ≤ result := by
  unfold spoof
  split
  · rename_i hc
    simp only [Bool.and_eq_true, Bool.or_eq_true, decide_eq_true_eq] at hc
    omega
  · exact le_rfl

/-- An error is never spoofed away. -/
theorem spoof_neg (modes : DebugModes) (override result : ℤ) (h : result < 0) :
    spoof modes override result = result := by
  unfold spoof
  rw [if_neg]
  simp only [Bool.and_eq_true, decide_eq_true_eq]
  omega

/-- The two runners copy the same part of the same file. -/
structure SamePart (r r' : CopyRunner) : Prop where
  file : r'.file = r.file
  offset : r'.offset = r.offset
  size : r'.size = r.size
  alignment : r'.alignment = r.alignment

theorem SamePart.refl (r : CopyRunner) : SamePart r r := ⟨rfl, rfl, rfl, rfl⟩

/-- A completion does not touch what identifies the chunk and its buffer. -/
structure SameChunk (r r' : CopyRunner) : Prop extends SamePart r r' where
  buffer : r'.buffer = r.buffer
  bufferAligned : r'.bufferAligned = r.bufferAligned

theorem SamePart.chunkEnd {r r' : CopyRunner} (h : SamePart r r') :
    r'.chunkEnd = r.chunkEnd := by
  simp [CopyRunner.chunkEnd, h.offset, h.size]

theorem onCompletionEvent_same :
    SameChunk r (r.onCompletionEvent strerror modes src dst ev res) := by
  unfold onCompletionEvent
  dsimp only
  split
  · exact ⟨⟨rfl, rfl, rfl, rfl⟩, rfl, rfl⟩
  · cases ev <;> exact ⟨⟨rfl, rfl, rfl, rfl⟩, rfl, rfl⟩

theorem onCompletionEvent_jobs :
    (r.onCompletionEvent strerror modes src dst ev res).jobsRunning = r.jobsRunning - 1 := by
  unfold onCompletionEvent
  dsimp only
  split
  · rfl
  · cases ev <;> rfl

theorem onCompletionEvent_read_writeOffset :
    (r.onCompletionEvent strerror modes src dst .read res).writeOffset = r.writeOffset := by
  unfold onCompletionEvent
  dsimp only
  split <;> rfl

theorem onCompletionEvent_write_readOffset :
    (r.onCompletionEvent strerror modes src dst .write res).readOffset = r.readOffset := by
  unfold onCompletionEvent
  dsimp only
  split <;> rfl

/-- A completion advances `writeOffset` at most by its result. -/
theorem onCompletionEvent_write (strerror : Errno → List Char) (modes : DebugModes)
    (src dst : Path) (r : CopyRunner) (res : ℤ) :
    (r.onCompletionEvent strerror modes src dst .write res).writeOffset = r.writeOffset ∨
    ∃ w : ℕ, (r.onCompletionEvent strerror modes src dst .write res).writeOffset =
      r.writeOffset + w ∧ (w : ℤ) ≤ res := by
  unfold onCompletionEvent
  dsimp only
  split
  · exact .inl rfl
  · unfold onWrite
    dsimp only
    split
    · exact .inl rfl
    · rename_i hneg
      refine .inr ⟨_, rfl, ?_⟩
      by_cases hres : res < 0
      · rw [spoof_neg _ _ _ hres] at hneg; omega
      · have := spoof_le modes r.writeOverride res (by omega)
        omega

/-- A saved error stays. -/
theorem onCompletionEvent_savedError (h : r.savedError.isSome) :
    (r.onCompletionEvent strerror modes src dst ev res).savedError = r.savedError := by
  unfold onCompletionEvent
  dsimp only
  rw [if_pos h]

end CopyRunner

end Wcp
