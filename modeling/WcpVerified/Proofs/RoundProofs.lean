import Mathlib
import WcpVerified.Round
import WcpVerified.Library.Alignment
import WcpVerified.Proofs.RunnerProofs

/-!
# Proofs: one round of a runner

With both debug modes off, a round is a read of what is missing, rounded up, linked to a write of
what is not written; once the whole chunk has been read it is the write alone. What the two results
make of the runner does not depend on the order in which they are seen.
-/

namespace Wcp

open MachineWord Alignment ByteImage

namespace CopyRunner

/-- The chunk of a runner is one that the code can handle: it starts at a multiple of the alignment,
and rounded up it is still a 31-bit number of bytes. -/
structure Shaped (x : CopyRunner) : Prop where
  pow : ∃ k, x.alignment = 2 ^ k
  dvd : x.alignment ∣ x.offset
  pos : 0 < x.size
  lt : alignUp x.alignment x.size < 2 ^ 31

/-- A runner between two rounds. -/
structure Idle (x : CopyRunner) : Prop where
  jobs : x.jobsRunning = 0
  error : x.savedError = none
  write : x.writeOffset < x.chunkEnd
  read : x.offset ≤ x.readOffset

variable {x : CopyRunner}

theorem Shaped.align_pos (h : x.Shaped) : 0 < x.alignment := by
  obtain ⟨k, hk⟩ := h.pow
  rw [hk]
  exact Nat.two_pow_pos k

theorem Shaped.size_lt (h : x.Shaped) : x.size < 2 ^ 31 :=
  (le_alignUp h.align_pos x.size).trans_lt h.lt

theorem Shaped.align_lt (h : x.Shaped) : x.alignment < 2 ^ 31 :=
  (Nat.le_of_dvd (h.pos.trans_le (le_alignUp h.align_pos x.size)) (dvd_alignUp _ _)).trans_lt h.lt

theorem Idle.reschedule (h : x.Idle) : x.runnerResult = .reschedule := by
  simp [runnerResult, h.jobs, h.error, h.write.ne]

/-- A rounded read length that fits in 32 bits. -/
theorem alignReadSize_eq {a b : ℕ} (h : alignUp a b < 2 ^ 32) : alignReadSize a b = alignUp a b := by
  unfold alignReadSize alignUp at *
  split
  · rename_i hb
    rw [if_pos hb] at h
    exact Nat.mod_eq_of_lt h
  · rfl

/-- A length just below `2 ^ 32` is rounded up to zero. -/
theorem alignReadSize_wrap {a d : ℕ} (ha : a ∣ 2 ^ 32) (hd : 0 < d) (hlt : d < a) :
    alignReadSize a (2 ^ 32 - d) = 0 := by
  have hle : a ≤ 2 ^ 32 := Nat.le_of_dvd (by omega) ha
  have hndvd : ¬ a ∣ 2 ^ 32 - d := by
    intro hc
    have := Nat.dvd_sub ha hc
    rw [Nat.sub_sub_self (by omega)] at this
    exact absurd (Nat.le_of_dvd hd this) (by omega)
  have hdown : alignDown a (2 ^ 32 - d) = 2 ^ 32 - a :=
    alignDown_eq (Nat.dvd_sub ha (Nat.dvd_refl _)) (by omega) (by omega)
  have hmod : (2 ^ 32 - d) % a ≠ 0 := fun hc => hndvd (Nat.dvd_of_mod_eq_zero hc)
  have hup : ((2 ^ 32 - d) / a + 1) * a = 2 ^ 32 := by
    rw [Nat.add_mul, Nat.one_mul]
    show alignDown a (2 ^ 32 - d) + a = 2 ^ 32
    rw [hdown, Nat.sub_add_cancel hle]
  rw [alignReadSize, if_pos hmod, hup, Nat.mod_self]

/-! ## The requests of a round -/

/-- A read request of `len` bytes. -/
def readReq (env : RunnerEnv) (len : ℕ) (x : CopyRunner) : Sqe where
  op := .read
  fd := some env.source
  addr := x.bufferAligned + x.readOffset - x.offset
  len := len
  off := x.readOffset
  link := true
  runner := env.self
  event := .read

/-- The write request for the rest of the chunk. -/
def writeReq (env : RunnerEnv) (x : CopyRunner) : Sqe where
  op := .write
  fd := some env.dest
  addr := x.bufferAligned + x.writeOffset - x.offset
  len := x.chunkEnd - x.writeOffset
  off := x.writeOffset
  runner := env.self
  event := .write

variable {env : RunnerEnv}

theorem writeSqe_off (a b : ℕ) (hw : x.writeOffset < x.chunkEnd)
    (hlt : x.chunkEnd - x.writeOffset < 2 ^ 32) :
    writeSqe {} a b (some env.dest) env.self x = [x.writeReq env] := by
  have hlen : plannedWrite {} b x = x.chunkEnd - x.writeOffset := by
    simp only [plannedWrite, Bool.false_eq_true, if_false]
    rw [toU32_of_lt (by omega) (by omega)]
    omega
  simp [writeSqe, hw, hlen, writeReq]

theorem plannedRead_off (a : ℕ) :
    (plannedRead {} a x).1 = toU32 ((x.chunkEnd : ℤ) - x.readOffset) := by
  simp [plannedRead]

theorem requests_done (a b : ℕ) (hr : x.readOffset = x.chunkEnd) (hw : x.writeOffset < x.chunkEnd)
    (hlt : x.chunkEnd - x.writeOffset < 2 ^ 32) :
    x.requests {} a b (some env.source) (some env.dest) env.self = [x.writeReq env] := by
  have hplan : (plannedRead {} a x).1 = 0 := by
    rw [plannedRead_off, hr, Int.sub_self]
    rfl
  rw [requests, writeSqe_off a b hw hlt]
  simp [readSqe, hplan]

/-- While the chunk is not exactly read, a round reads and writes. -/
theorem requests_reading {len : ℕ} (a b : ℕ)
    (hne : toU32 ((x.chunkEnd : ℤ) - x.readOffset) ≠ 0)
    (hlen : alignReadSize x.alignment (toU32 ((x.chunkEnd : ℤ) - x.readOffset)) = len)
    (hw : x.writeOffset < x.chunkEnd) (hlt : x.chunkEnd - x.writeOffset < 2 ^ 32) :
    x.requests {} a b (some env.source) (some env.dest) env.self =
      [x.readReq env len, x.writeReq env] := by
  rw [requests, writeSqe_off a b hw hlt]
  simp [readSqe, plannedRead_off, hne, hlen, readReq]

/-- The runner with `count` more requests outstanding. -/
def counting (x : CopyRunner) (count : ℕ) : CopyRunner :=
  { x with jobsRunning := x.jobsRunning + count }

theorem submitted_off (a count : ℕ) : x.submitted {} a count = x.counting count := by
  simp [submitted, counting]

end CopyRunner

/-! ## The kernel's answers -/

namespace Chain

variable {policy : Policy} {c : Chain} {e e₁ e₂ : Sqe} {st st' : Storage} {cqes : List Cqe}

/-- A request that the kernel runs, and its completion. -/
structure Ran (policy : Policy) (e : Sqe) (st : Storage) (res : ℤ) : Prop where
  policy : policy e st res
  may : e.mayReturn st res = true

theorem complete_run {rest : List Sqe} {res : ℤ} (h : e.mayReturn st res = true) :
    complete { reqs := e :: rest } st res =
      some (⟨rest, !e.succeeded res⟩, e.effect st res, ⟨e.runner, e.event, res⟩) := by
  simp only [complete, Bool.false_eq_true, if_false, h, if_true]

theorem complete_cancel {rest : List Sqe} :
    complete ⟨e :: rest, true⟩ st (-ECANCELED) =
      some (⟨rest, true⟩, st, ⟨e.runner, e.event, -ECANCELED⟩) := by
  simp only [complete, if_true]

theorem Completes.cons_inv {rest : List Sqe}
    (h : Completes policy { reqs := e :: rest } st cqes st') :
    ∃ res cqes', cqes = ⟨e.runner, e.event, res⟩ :: cqes' ∧ Ran policy e st res ∧
      Completes policy ⟨rest, !e.succeeded res⟩ (e.effect st res) cqes' st' := by
  cases h with
  | @cons _ c' _ st₁ _ res e' rest' cqe cqes' hreqs hres hc h =>
    simp only [List.cons.injEq] at hreqs
    obtain ⟨rfl, rfl⟩ := hreqs
    simp only [complete, Bool.false_eq_true, if_false] at hc
    split at hc
    · rename_i hmay
      cases hc
      exact ⟨res, cqes', rfl, ⟨hres rfl, hmay⟩, h⟩
    · cases hc

theorem Completes.nil_inv {broken : Bool} (h : Completes policy ⟨[], broken⟩ st cqes st') :
    cqes = [] ∧ st' = st := by
  cases h with
  | nil => exact ⟨rfl, rfl⟩
  | cons hreqs => cases hreqs

/-- A request that is alone in its chain. -/
theorem completes_one : Completes policy { reqs := [e] } st cqes st' ↔
    ∃ res, Ran policy e st res ∧ cqes = [⟨e.runner, e.event, res⟩] ∧ st' = e.effect st res := by
  constructor
  · intro h
    obtain ⟨res, cqes', rfl, hran, h⟩ := h.cons_inv
    obtain ⟨rfl, rfl⟩ := h.nil_inv
    exact ⟨res, hran, rfl, rfl⟩
  · rintro ⟨res, hran, rfl, rfl⟩
    exact .cons rfl (fun _ => hran.policy) (complete_run hran.may) .nil

/-- The second of two linked requests runs if the first one succeeded, and is cancelled otherwise. -/
theorem completes_two : Completes policy { reqs := [e₁, e₂] } st cqes st' ↔
    ∃ res₁ res₂, Ran policy e₁ st res₁ ∧
      cqes = [⟨e₁.runner, e₁.event, res₁⟩, ⟨e₂.runner, e₂.event, res₂⟩] ∧
      (e₁.succeeded res₁ = true ∧ Ran policy e₂ (e₁.effect st res₁) res₂ ∧
          st' = e₂.effect (e₁.effect st res₁) res₂ ∨
        e₁.succeeded res₁ = false ∧ res₂ = -ECANCELED ∧ st' = e₁.effect st res₁) := by
  constructor
  · intro h
    obtain ⟨res₁, cqes', rfl, hran, h⟩ := h.cons_inv
    cases hs : e₁.succeeded res₁ with
    | true =>
      rw [hs] at h
      obtain ⟨res₂, hran₂, rfl, rfl⟩ := completes_one.mp h
      exact ⟨res₁, res₂, hran, rfl, .inl ⟨hs, hran₂, rfl⟩⟩
    | false =>
      rw [hs] at h
      cases h with
      | @cons _ c' _ st₁ _ res e' rest' cqe cqes' hreqs hres hc hrest =>
        simp only [List.cons.injEq] at hreqs
        obtain ⟨rfl, rfl⟩ := hreqs
        simp only [complete, Bool.not_false, if_true] at hc
        split at hc
        · rename_i hcancel
          cases hc
          obtain ⟨rfl, rfl⟩ := hrest.nil_inv
          exact ⟨res₁, res, hran, rfl, .inr ⟨hs, hcancel, rfl⟩⟩
        · cases hc
  · rintro ⟨res₁, res₂, hran, rfl, ⟨hs, hran₂, rfl⟩ | ⟨hs, rfl, rfl⟩⟩
    · refine .cons rfl (fun _ => hran.policy) (complete_run hran.may) ?_
      rw [hs]
      exact completes_one.mpr ⟨res₂, hran₂, rfl, rfl⟩
    · refine .cons rfl (fun _ => hran.policy) (complete_run hran.may) ?_
      rw [hs]
      exact .cons rfl nofun complete_cancel .nil

end Chain

/-! ## What the results make of the runner -/

namespace CopyRunner

variable {x : CopyRunner} {env : RunnerEnv} {policy : Policy} {st st' : Storage}

theorem spoof_off (override result : ℤ) : spoof {} override result = result := by
  simp [spoof]

section Events

variable {strerror : Errno → List Char} {src dst : Path} {res : ℤ}

theorem onCompletionEvent_read_ok (he : x.savedError = none) (hres : 0 < res) :
    x.onCompletionEvent strerror {} src dst .read res =
      { x with jobsRunning := x.jobsRunning - 1, readOffset := x.advanceRead res.toNat } := by
  have hne : res ≠ 0 := by omega
  have hnot : ¬ res < 0 := by omega
  simp only [onCompletionEvent, he, Option.isSome_none, Bool.false_eq_true, if_false, onRead,
    spoof_off, readError, if_neg hne, if_neg hnot]
  rfl

theorem onCompletionEvent_write_ok (he : x.savedError = none) (hres : 0 ≤ res ∨ res = -ECANCELED) :
    x.onCompletionEvent strerror {} src dst .write res =
      { x with jobsRunning := x.jobsRunning - 1, writeOffset := x.writeOffset + res.toNat } := by
  have hok : ¬ (res < 0 ∧ res ≠ -ECANCELED) := by
    rintro ⟨hneg, hne⟩
    exact hres.elim (fun h => by omega) hne
  have hwrite : (if res < 0 then x.writeOffset else x.writeOffset + res.toNat) =
      x.writeOffset + res.toNat := by
    split
    · rw [Int.toNat_of_nonpos (by omega), Nat.add_zero]
    · rfl
  simp only [onCompletionEvent, he, Option.isSome_none, Bool.false_eq_true, if_false, onWrite,
    spoof_off, writeError, if_neg hok]
  rw [hwrite]

theorem onCompletionEvent_eof (he : x.savedError = none) :
    (x.onCompletionEvent strerror {} src dst .read 0).savedError.isSome = true := by
  simp [onCompletionEvent, he, onRead, spoof_off, readError]

end Events

theorem handle_write (hm : env.modes = {}) (he : x.savedError = none) {res : ℤ} (hres : 0 ≤ res) :
    handle env (x.counting 1) [⟨env.self, .write, res⟩] =
      { x with writeOffset := x.writeOffset + res.toNat } := by
  rw [handle, List.foldl_cons, List.foldl_nil, hm]
  exact onCompletionEvent_write_ok he (.inl hres)

/-- Two completions, seen one after the other. -/
theorem handle_pair (hm : env.modes = {}) (y : CopyRunner) (c c' : Cqe) :
    handle env y [c, c'] =
      (y.onCompletionEvent env.strerror {} env.sourcePath env.destPath c.event c.res).onCompletionEvent
        env.strerror {} env.sourcePath env.destPath c'.event c'.res := by
  rw [handle, List.foldl_cons, List.foldl_cons, List.foldl_nil, hm]

/-- A read that brought something and a write that was run or cancelled, in either order. -/
theorem handle_both (hm : env.modes = {}) (he : x.savedError = none)
    {res res' : ℤ} (hres : 0 < res) (hres' : 0 ≤ res' ∨ res' = -ECANCELED) {seen : List Cqe}
    (hseen : seen.Perm [⟨env.self, .read, res⟩, ⟨env.self, .write, res'⟩]) :
    handle env (x.counting 2) seen =
      { x with readOffset := x.advanceRead res.toNat,
               writeOffset := x.writeOffset + res'.toNat } := by
  have hy : (x.counting 2).savedError = none := he
  rcases List.perm_pair.mp hseen with rfl | rfl
  · rw [handle_pair hm]
    dsimp only
    rw [onCompletionEvent_read_ok hy hres]
    exact onCompletionEvent_write_ok he hres'
  · rw [handle_pair hm]
    dsimp only
    rw [onCompletionEvent_write_ok hy hres']
    exact onCompletionEvent_read_ok he hres

/-- A read that found the end of the file, in either order with the write. -/
theorem handle_eof (hm : env.modes = {}) (hj : x.jobsRunning = 0) (he : x.savedError = none)
    {res' : ℤ} (hres' : 0 ≤ res' ∨ res' = -ECANCELED) {seen : List Cqe}
    (hseen : seen.Perm [⟨env.self, .read, 0⟩, ⟨env.self, .write, res'⟩]) :
    ∃ e, (handle env (x.counting 2) seen).runnerResult = .error e := by
  have hy : (x.counting 2).savedError = none := he
  have hjobs : (x.counting 2).jobsRunning = 2 := by
    show x.jobsRunning + 2 = 2
    rw [hj]
  have herror : ∀ y : CopyRunner, y.jobsRunning = 0 → y.savedError.isSome = true →
      ∃ e, y.runnerResult = .error e := by
    intro y hjobs hsaved
    obtain ⟨e, hsome⟩ := Option.isSome_iff_exists.mp hsaved
    exact ⟨e, by simp [runnerResult, hjobs, hsome]⟩
  rcases List.perm_pair.mp hseen with rfl | rfl
  · rw [handle_pair hm]
    refine herror _ ?_ ?_
    · rw [onCompletionEvent_jobs, onCompletionEvent_jobs, hjobs]
    · rw [onCompletionEvent_savedError] <;> exact onCompletionEvent_eof hy
  · rw [handle_pair hm]
    dsimp only
    rw [onCompletionEvent_write_ok hy hres']
    refine herror _ ?_ (onCompletionEvent_eof he)
    rw [onCompletionEvent_jobs]
    show (x.counting 2).jobsRunning - 1 - 1 = 0
    rw [hjobs]

/-- A round of a runner whose chunk is not exactly read. -/
theorem round_reading (hm : env.modes = {}) (hx : x.Idle)
    (hlt : x.chunkEnd - x.writeOffset < 2 ^ 32) {len : ℕ}
    (hne : toU32 ((x.chunkEnd : ℤ) - x.readOffset) ≠ 0)
    (hlen : alignReadSize x.alignment (toU32 ((x.chunkEnd : ℤ) - x.readOffset)) = len)
    {y : CopyRunner} :
    Round env policy (x, st) (y, st') ↔ ∃ res res' seen,
      seen.Perm [⟨env.self, .read, res⟩, ⟨env.self, .write, res'⟩] ∧
      y = handle env (x.counting 2) seen ∧
      Chain.Ran policy (x.readReq env len) st res ∧
      (res = len ∧ Chain.Ran policy (x.writeReq env) ((x.readReq env len).effect st res) res' ∧
          st' = (x.writeReq env).effect ((x.readReq env len).effect st res) res' ∨
        res ≠ len ∧ res' = -ECANCELED ∧ st' = (x.readReq env len).effect st res) := by
  have hreqs : ∀ a b, x.requests {} a b (some env.source) (some env.dest) env.self =
      [x.readReq env len, x.writeReq env] :=
    fun a b => requests_reading a b hne hlen hx.write hlt
  have hsucc : ∀ res, (x.readReq env len).succeeded res = decide (res = len) := fun res => rfl
  constructor
  · rintro ⟨-, rfl, hchain, hrun, hseen⟩
    rw [hm] at hchain
    rw [hm, hreqs, submitted_off]
    rw [hreqs] at hchain
    cases hchain
    obtain ⟨res, res', hran, rfl, hcase⟩ := Chain.completes_two.mp hrun
    refine ⟨res, res', _, hseen, rfl, hran, ?_⟩
    simpa [hsucc] using hcase
  · rintro ⟨res, res', seen, hseen, rfl, hran, hcase⟩
    have hchain : splitChains (x.requests env.modes 0 0 (some env.source) (some env.dest) env.self)
        = [[x.readReq env len, x.writeReq env]] := by
      rw [hm, hreqs]
      rfl
    have hround := Round.mk hx.reschedule rfl hchain
      (Chain.completes_two.mpr ⟨res, res', hran, rfl, by simpa [hsucc] using hcase⟩) hseen
    rwa [hm, hreqs, submitted_off] at hround

/-- A round of a runner whose chunk has been read. -/
theorem round_writing (hm : env.modes = {}) (hx : x.Idle)
    (hlt : x.chunkEnd - x.writeOffset < 2 ^ 32) (hr : x.readOffset = x.chunkEnd) {y : CopyRunner} :
    Round env policy (x, st) (y, st') ↔ ∃ res, Chain.Ran policy (x.writeReq env) st res ∧
      y = handle env (x.counting 1) [⟨env.self, .write, res⟩] ∧
      st' = (x.writeReq env).effect st res := by
  have hreqs : ∀ a b, x.requests {} a b (some env.source) (some env.dest) env.self =
      [x.writeReq env] := fun a b => requests_done a b hr hx.write hlt
  constructor
  · rintro ⟨-, rfl, hchain, hrun, hseen⟩
    rw [hm] at hchain
    rw [hm, hreqs, submitted_off]
    rw [hreqs] at hchain
    cases hchain
    obtain ⟨res, hran, rfl, rfl⟩ := Chain.completes_one.mp hrun
    exact ⟨res, hran, by rw [List.perm_singleton.mp hseen]; rfl, rfl⟩
  · rintro ⟨res, hran, rfl, rfl⟩
    have hchain : splitChains (x.requests env.modes 0 0 (some env.source) (some env.dest) env.self)
        = [[x.writeReq env]] := by
      rw [hm, hreqs]
      rfl
    have hround := Round.mk hx.reschedule rfl hchain
      (Chain.completes_one.mpr ⟨res, hran, rfl, rfl⟩) (List.Perm.refl _)
    rwa [hm, hreqs, submitted_off] at hround

end CopyRunner

end Wcp
