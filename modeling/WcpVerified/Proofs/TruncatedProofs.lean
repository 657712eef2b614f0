import WcpVerified.Proofs.CoverProofs
import WcpVerified.Proofs.ProgressProofs

/-!
# Proofs: the copy of a truncated file

A file has been truncated to `n` bytes after its size was taken. A chunk that ends beyond `n` is
never read to its end, so none of its writes is executed and it never finishes. The last chunk of
the file is such a chunk: an error is recorded for it, and `join` returns false.
-/

namespace Wcp

open List

theorem CopyRunner.Aloft.not_readAll {modes : DebugModes} {N r : ℕ} {sq : List Sqe}
    {chains : List Chain} {cq : List Cqe} {x : CopyRunner} (h : x.Aloft modes N sq chains cq r)
    (hpos : 0 < x.size) (hN : N < x.chunkEnd) : ¬ x.ReadAll cq r := by
  have hE : x.chunkEnd = x.offset + x.size := rfl
  have hlt : x.readOffset < x.chunkEnd := by
    rcases h.source with hs | hs <;> omega
  rintro (hr | ⟨-, -, c, hc, ht, hres⟩)
  · omega
  · have := (h.readRes c hc ht (by omega)).1
    omega

namespace CopyQueue

variable {cfg : Config} {s s' : State} {l : Label} {i n r : ℕ} {job : Job} {x : CopyRunner}

/-- A chunk beyond the end of the source has not been written to. -/
theorem unwritten (hsh : State.SharedFiles cfg s) (hch : Chunked cfg s) (hf : IsFile i job s)
    (hring : State.Ring s) (hfl : Flight cfg i n s) (hn : n < job.stxSize)
    (hx : s.runners.get? r = some x) (hi : x.file = i) (hlt : n < x.chunkEnd) :
    0 < x.size ∧ x.writeOffset = x.offset := by
  have hpart := isPart_of_file hsh hch hf hx hi
  have hpos : 0 < x.size := hpart.size_pos (by omega)
  refine ⟨hpos, ?_⟩
  by_contra hne
  have hlow := (hring.written r x hx).1
  exact (hfl r x hx hi).not_readAll hpos hlt ((hfl r x hx hi).written (by omega))

/-- The runners destroyed had not finished such a chunk. -/
def Abandoned (i n : ℕ) (s : State) : Prop :=
  ∀ x ∈ s.destroyed, x.file = i → n < x.chunkEnd → x.writeOffset ≠ x.chunkEnd

theorem abandoned_move (hm : Move cfg s l s')
    (hlive : ∀ r x, s.runners.get? r = some x → x.file = i → n < x.chunkEnd →
      0 < x.size ∧ x.writeOffset = x.offset) (h : Abandoned i n s) : Abandoned i n s' := by
  have hdelete : ∀ {r x}, s.runners.get? r = some x → ∀ y ∈ s.destroyed ++ [x], y.file = i →
      n < y.chunkEnd → y.writeOffset ≠ y.chunkEnd := by
    intro r x hx y hy hi hlt
    rcases mem_append.mp hy with hy | hy
    · exact h y hy hi hlt
    · rw [mem_singleton] at hy
      subst hy
      obtain ⟨hpos, hw⟩ := hlive r y hx hi hlt
      rw [hw, CopyRunner.chunkEnd]
      omega
  cases hm with
  | joinFinish => exact fun x hx => absurd hx not_mem_nil
  | deleteShared hp hr | deleteLast hp hr => exact hdelete hr
  | _ => exact h

theorem reachIn_unwritten (hacc : Accepted cfg.heap job) (hn : n < job.stxSize)
    (h : (system cfg).ReachIn (Copies i job n) s) :
    (∀ r x, s.runners.get? r = some x → x.file = i → n < x.chunkEnd →
      0 < x.size ∧ x.writeOffset = x.offset) :=
  fun _ _ => unwritten (reachable_sharedFiles h) (reachable_chunked h)
    (reachIn_isFile (fun _ _ hc => hc.job) h) (reachable_ring h) (reachIn_flight hacc hn.le h) hn

theorem reachIn_abandoned (hacc : Accepted cfg.heap job) (hn : n < job.stxSize)
    (h : (system cfg).ReachIn (Copies i job n) s) : Abandoned i n s := by
  refine h.invariant ?_ fun s l s' hr hs _ hstep =>
    abandoned_move (step_move hstep).2 (reachIn_unwritten hacc hn hr) hs
  rintro s ⟨storage, rfl⟩
  exact fun x hx => absurd hx not_mem_nil

/-- Once its last chunk has been destroyed, the failure of the file is known. -/
theorem errored_of_destroyed (hab : Abandoned i n s) (hcomplete : Complete s)
    (hx : x ∈ s.destroyed) (hi : x.file = i) (hlt : n < x.chunkEnd) :
    s.errored = true ∨ ∃ e k, s.submit = .recording e (.addFailed k) := by
  rcases hcomplete.gone x hx with hw | herr | ⟨-, e, k, hp⟩
  · exact absurd hw (hab x hx hi hlt)
  · exact .inl herr
  · exact .inr ⟨e, k, hp⟩

/-- What a kernel step does when it completes the write of a runner of the file. -/
theorem truncated_write (hfl : Flight cfg i n s) (hring : State.Ring s) (hsub : Submitted s)
    (hpart : ∀ r x, s.runners.get? r = some x → x.file = i → n < x.chunkEnd → 0 < x.size) {c : ℕ}
    {res : ℤ} {chain : Chain} {e : Sqe} {rest : List Sqe}
    (hm : Move cfg s (.kernel c res) s') (hi : s.chains[c]? = some chain)
    (hreqs : chain.reqs = e :: rest) (hev : e.event = .write)
    (hx : s.runners.get? e.runner = some x) (hxi : x.file = i) :
    s'.storage = s.storage ∨ x.chunkEnd ≤ n ∧ e.off + e.len ≤ n := by
  cases hm with
  | abort => exact .inl rfl
  | kernel hi' hc =>
    rw [hi] at hi'
    cases hi'
    obtain ⟨e', rest', hreqs', -, -, hhow⟩ := Chain.complete_spec hc
    rw [hreqs] at hreqs'
    cases hreqs'
    rcases hhow with ⟨-, -, hst, -⟩ | ⟨hb, -, hst, -⟩
    · exact .inl hst
    · have hmem : e ∈ pendingReqs s.sq s.chains :=
        mem_append_right _ (mem_flatMap.mpr ⟨chain, mem_of_getElem? hi, by simp [hreqs]⟩)
      have ht : e.tag = (e.runner, .write) := by rw [Sqe.tag, hev]
      have hal := hfl _ x hx hxi
      rcases hal.writeReq e hmem ht with ⟨hop, -⟩ | ⟨hop, hoff, -⟩
      · left
        rw [hst, Sqe.effect, hop]
      · right
        have hall := readAll_of_head hal hring hsub (mem_of_getElem? hi) hb hreqs ht hop
        have hend : x.chunkEnd ≤ n := by
          by_contra hlt
          exact hal.not_readAll (hpart _ x hx hxi (by omega)) (by omega) hall
        have := hring.writeReq e hmem hev x hx
        omega

/-- A file of `job.stxSize` bytes is file number `i` of the queue and its source has only `n` bytes
left. In every run, with any of the debug modes: a runner whose chunk ends beyond `n` has written
nothing and does not return `FinishedTag`; a write request of a runner of the file that is completed
is either not executed, or belongs to a chunk that ends within the first `n` bytes and stays there;
when all runners of the file have been destroyed an error is recorded, or is going to be by the next
step of the submit thread; and `join` returns false. -/
theorem truncated_not_copied (hacc : Accepted cfg.heap job) (hn : n < job.stxSize)
    (h : (system cfg).ReachIn (Copies i job n) s) :
    (∀ r x, s.runners.get? r = some x → x.file = i → n < x.chunkEnd →
      x.writeOffset = x.offset ∧ x.runnerResult ≠ .finished) ∧
    (∀ c res s' chain e rest x, step cfg s (.kernel c res) = some s' → s.chains[c]? = some chain →
      chain.reqs = e :: rest → e.event = .write → s.runners.get? e.runner = some x → x.file = i →
      s'.storage = s.storage ∨ x.chunkEnd ≤ n ∧ e.off + e.len ≤ n) ∧
    ((∃ x ∈ s.destroyed, x.file = i) → (∀ r x, s.runners.get? r = some x → x.file ≠ i) →
      (∀ b, building s.main = some b → b.1 ≠ i) →
      s.errored = true ∨ ∃ e k, s.submit = .recording e (.addFailed k)) ∧
    ∀ l s', step cfg s l = some s' → (∃ x ∈ s.destroyed, x.file = i) → s'.joined ≠ s.joined →
      s'.joined = s.joined ++ [false] := by
  have hlive := reachIn_unwritten hacc hn h
  have hab := reachIn_abandoned hacc hn h
  have hcov := reachIn_covered (fun _ _ hc => hc.job) h
  have hlast : (∃ x ∈ s.destroyed, x.file = i) → (∀ r x, s.runners.get? r = some x → x.file ≠ i) →
      (∀ b, building s.main = some b → b.1 ≠ i) →
      s.errored = true ∨ ∃ e k, s.submit = .recording e (.addFailed k) := by
    rintro ⟨y, hy, hyi⟩ hnone hadded
    obtain ⟨x, hx, hi, -, hlt⟩ := hcov.destroyed hadded hnone hy hyi hn
    exact errored_of_destroyed hab (reachable_complete h) hx hi hlt
  refine ⟨fun r x hx hi hlt => ?_, ?_, hlast, ?_⟩
  · obtain ⟨hpos, hw⟩ := hlive r x hx hi hlt
    refine ⟨hw, fun hfin => ?_⟩
    have := runnerResult_written hfin
    rw [hw, CopyRunner.chunkEnd] at this
    omega
  · intro c res s' chain e rest x hstep hi hreqs hev hx hxi
    exact truncated_write (reachIn_flight hacc hn.le h) (reachable_ring h)
      (reachIn_submitted (h.mono fun _ _ hc => hc.accepts))
      (fun r x hx hi hlt => (hlive r x hx hi hlt).1) (step_move hstep).2 hi hreqs hev hx hxi
  · intro l s' hstep hdes hjoined
    cases (step_move hstep).2 with
    | joinFinish hm hp =>
      have hd := isDone_of_joinFinish (reachable_threads h) hm hp
      have hnone := (reachable_owned h).2.none_of_isDone hd
      have herr : s.errored = true := by
        refine (hlast hdes (fun r x hx => ?_) fun b hb => ?_).resolve_right ?_
        · rw [hnone r] at hx
          cases hx
        · rcases hm with hm | ⟨hm, -⟩ <;> rw [hm] at hb <;> cases hb
        · rintro ⟨e, k, hpc⟩
          rw [returned_of_joinFinish (reachable_threads h) hm hp] at hpc
          cases hpc
      show s.joined ++ [!s.errored] = s.joined ++ [false]
      rw [herr]
      rfl
    | _ => exact absurd rfl hjoined

/-- A check that implies `Copies`. -/
def copiesCheck (i : ℕ) (job : Job) (N : ℕ) (s : State) : Label → Bool
  | .submit (.submitted ret) => acceptsAllCheck s (.submit (.submitted ret))
  | .addCopyJob job' => decide (s.files.next = i → job' = job)
  | .kernel c res => match s.chains[c]? with
    | some { reqs := e :: _, broken := false } =>
      decide (e.op = .read → res ≤ (N - e.off : ℕ))
    | _ => true
  | _ => true

theorem copies_of_check (i : ℕ) (job : Job) (n : ℕ) (s : State) (l : Label)
    (h : copiesCheck i job n s l = true) : Copies i job n s l := by
  refine ⟨acceptsAll_of_check s l ?_, ?_, ?_⟩
  · unfold copiesCheck at h
    unfold acceptsAllCheck
    split
    · exact h
    · rfl
  · rintro job' rfl hnext
    exact of_decide_eq_true h hnext
  · rintro c res ⟨reqs, broken⟩ e rest x rfl hc rfl rfl hop - -
    simp only [copiesCheck, hc] at h
    exact of_decide_eq_true h hop

/-- The source of a file of eight bytes has only four left: the first round reads four, the second
one none. -/
def truncatedSteps : List Label := List.flatten [oneChunkSteps, [.submit (.rand 0 0)], ticks 1,
  [.submit (.submitted 2), .kernel 0 4, .kernel 0 (-125), .submit (.peeked (some 0))], ticks 2,
  [.submit (.peeked (some 0))], ticks 13, [.submit (.rand 0 0)], ticks 1,
  [.submit (.submitted 2), .kernel 1 0, .kernel 1 (-125), .submit (.peeked (some 0))], ticks 1,
  [.submit (.closed (.ok ()))], ticks 2, [.submit (.closed (.ok ()))], ticks 4,
  [.submit (.peeked (some 0))], ticks 3]

theorem truncated_not_copied_oneChunk : ∃ s,
    (system smallConfig).ReachIn (Copies 0 (smallJob 8) 4) s ∧ s.submit = .seen ∧
      (∃ x ∈ s.destroyed, x.file = 0) ∧ s.errored = true := by
  obtain ⟨s, hs, hp⟩ := Transition.System.ReachIn.exists_of_runIn (copies_of_check 0 (smallJob 8) 4)
    (initial_init smallConfig (smallStorage 4)) truncatedSteps
    (fun s => decide (s.submit = .seen) && s.destroyed.any (fun x => x.file == 0) &&
      (building s.main).isNone && decide (s.runners.next = 1) && (s.runners.get? 0).isNone)
    (by decide +kernel)
  simp only [Bool.and_eq_true, decide_eq_true_eq, List.any_eq_true, beq_iff_eq,
    Option.isNone_iff_eq_none] at hp
  obtain ⟨⟨⟨⟨hpc, hdes⟩, hmain⟩, hnext⟩, hnone⟩ := hp
  have hrunners : ∀ r x, s.runners.get? r = some x → x.file ≠ 0 := by
    intro r x hx
    have hlt := Store.lt_next hx
    obtain rfl : r = 0 := by omega
    rw [hnone] at hx
    cases hx
  refine ⟨s, hs, hpc, hdes, ?_⟩
  have herr := (truncated_not_copied (smallJob_accepted 8) (by decide) hs).2.2.1 hdes hrunners
    (by rw [hmain]; nofun)
  refine herr.resolve_right ?_
  rintro ⟨e, k, he⟩
  rw [hpc] at he
  cases he

end CopyQueue

end Wcp
