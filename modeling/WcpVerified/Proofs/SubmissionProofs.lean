import WcpVerified.Proofs.FileProofs

/-!
# Proofs: what one call of `io_uring_submit` takes

`submitLoop` treats any positive result of `io_uring_submit` as full acceptance. When the kernel
takes only some of the queued entries, the rest stays in the queue past the SUBMIT phase, and a read
may be cut off from its linked write. In the runs in which each accepted call takes everything that is
queued, the SUBMIT phase leaves nothing behind and each read goes to the kernel with its write.
-/

namespace Wcp

open List

/-! ## Reads with their writes -/

/-- A list of requests in which every read is linked to the write of the same runner, which follows
it. -/
inductive Paired : List Sqe → Prop where
  | nil : Paired []
  | single {w : Sqe} {l : List Sqe} (hw : w.event = .write) (hn : w.link = false) (h : Paired l) :
      Paired (w :: l)
  | pair {r w : Sqe} {l : List Sqe} (hr : r.event = .read) (hl : r.link = true)
      (hw : w.event = .write) (hn : w.link = false) (hs : w.runner = r.runner) (h : Paired l) :
      Paired (r :: w :: l)

namespace Paired

variable {l l' : List Sqe}

theorem append (h : Paired l) (h' : Paired l') : Paired (l ++ l') := by
  induction h with
  | nil => exact h'
  | single hw hn _ ih => exact .single hw hn ih
  | pair hr hl hw hn hs _ ih => exact .pair hr hl hw hn hs ih

/-- Where a read stands in the list. -/
theorem exists_write (h : Paired l) {r : Sqe} (hr : r ∈ l) (hev : r.event = .read) :
    ∃ l₁ w l₂, l = l₁ ++ r :: w :: l₂ ∧ w.event = .write ∧ w.runner = r.runner := by
  induction h with
  | nil => exact absurd hr not_mem_nil
  | @single w l hw hn _ ih =>
    rcases mem_cons.mp hr with rfl | hr
    · rw [hw] at hev; cases hev
    · obtain ⟨l₁, v, l₂, rfl, hv⟩ := ih hr
      exact ⟨w :: l₁, v, l₂, rfl, hv⟩
  | @pair r' w l _ _ hw _ hs _ ih =>
    rcases mem_cons.mp hr with rfl | hr
    · exact ⟨[], w, l, rfl, hw, hs⟩
    · rcases mem_cons.mp hr with rfl | hr
      · rw [hw] at hev; cases hev
      · obtain ⟨l₁, v, l₂, rfl, hv⟩ := ih hr
        exact ⟨r' :: w :: l₁, v, l₂, rfl, hv⟩

/-- A linked request is a read, and the write of its runner follows it. -/
theorem next_of_link (h : Paired l) {i : ℕ} {e : Sqe} (hi : l[i]? = some e) (he : e.link = true) :
    e.event = .read ∧ ∃ w, l[i + 1]? = some w ∧ w.event = .write ∧ w.runner = e.runner := by
  induction h generalizing i with
  | nil => simp at hi
  | single hw hn _ ih =>
    cases i with
    | zero => simp only [getElem?_cons_zero, Option.some.injEq] at hi; rw [← hi, hn] at he; cases he
    | succ i => exact ih hi
  | @pair r w l hr _ hw hn hs _ ih =>
    match i with
    | 0 =>
      simp only [getElem?_cons_zero, Option.some.injEq] at hi
      subst hi
      exact ⟨hr, w, rfl, hw, hs⟩
    | 1 =>
      simp only [getElem?_cons_succ, getElem?_cons_zero, Option.some.injEq] at hi
      rw [← hi, hn] at he
      cases he
    | i + 2 => exact ih hi

/-- The chains made of paired requests are paired. -/
theorem of_splitChains (h : Paired l) : ∀ c ∈ splitChains l, Paired c := by
  induction h with
  | nil => exact fun c hc => absurd hc not_mem_nil
  | @single w l hw hn _ ih =>
    intro c hc
    have hsplit : splitChains (w :: l) = [w] :: splitChains l := by
      rw [splitChains, hn]
      rfl
    rw [hsplit] at hc
    rcases mem_cons.mp hc with rfl | hc
    · exact .single hw hn .nil
    · exact ih c hc
  | @pair r w l hr hl hw hn hs _ ih =>
    intro c hc
    have hsplit : splitChains (r :: w :: l) = [r, w] :: splitChains l := by
      rw [splitChains, hl, splitChains, hn]
      rfl
    rw [hsplit] at hc
    rcases mem_cons.mp hc with rfl | hc
    · exact .pair hr hl hw hn hs .nil
    · exact ih c hc

theorem tail {e : Sqe} (h : Paired (e :: l)) : Paired l := by
  cases h with
  | single _ _ h => exact h
  | pair _ _ hw hn _ h => exact .single hw hn h

end Paired

/-- The requests of a round of a runner that has something to write. -/
theorem CopyRunner.requests_paired {modes : DebugModes} {a b self : ℕ} {src dst : Option Ino}
    {x : CopyRunner} (h : x.writeOffset < x.chunkEnd) :
    Paired (x.requests modes a b src dst self) := by
  unfold requests
  rcases writeSqe_cases modes a b dst self x with ⟨-, hle⟩ | ⟨-, w, hw, htag, hn, -⟩
  · omega
  · have hwev : w.event = .write := congrArg Prod.snd htag
    have hwr : w.runner = self := congrArg Prod.fst htag
    rw [hw]
    rcases readSqe_cases modes a src self x with hr | ⟨r, hr, htag', -, hl, -⟩
    · rw [hr]
      exact .single hwev hn .nil
    · have hrev : r.event = .read := congrArg Prod.snd htag'
      have hrr : r.runner = self := congrArg Prod.fst htag'
      rw [hr]
      exact .pair hrev hl hwev hn (hwr.trans hrr.symm) .nil

/-- `runnersAdded`; 0 outside the SUBMIT phase. -/
def SubmitPc.runnersAdded : SubmitPc → ℕ
  | .adding n | .fetching n | .picking n | .taking n | .starting n _ | .ensure n _ _ _ | .batch n _
  | .closing (.addFailed n _) _ _ _ | .closing (.emptyFile n) _ _ _
  | .recording _ (.addFailed n) | .recording _ (.emptyFile n _)
  | .deleting _ (.addFailed n _) | .deleting _ (.emptyFile n) | .submitting n => n
  | _ => 0

namespace CopyQueue

variable {cfg : Config} {s s' : State} {l : Label}

/-- A call of `io_uring_submit` that is accepted takes everything that is queued. -/
def AcceptsAll (s : State) (l : Label) : Prop :=
  ∀ ret : ℤ, l = .submit (.submitted ret) → 0 < ret → ret = s.sq.length

/-- The requests of a queue are paired wherever they are before their completion, and nothing is
queued unless a runner was added. -/
structure Submitted (s : State) : Prop where
  queued : s.submit.runnersAdded = 0 → s.sq = []
  paired : Paired s.sq
  chains : ∀ c ∈ s.chains, Paired c.reqs
  calls : ∀ call ∈ s.submitCalls, Paired call

theorem Submitted.of_eq (h : Submitted s) (hq : s'.sq = s.sq) (hc : s'.chains = s.chains)
    (hs : s'.submitCalls = s.submitCalls)
    (hp : s'.submit.runnersAdded = 0 → s.submit.runnersAdded = 0) : Submitted s' where
  queued hz := hq.trans (h.queued (hp hz))
  paired := hq ▸ h.paired
  chains := hc ▸ h.chains
  calls := hs ▸ h.calls

theorem runnersAdded_of_not_alive {pc : SubmitPc} (h : pc.alive = false) : pc.runnersAdded = 0 := by
  cases pc <;> first | rfl | cases h

theorem runnersAdded_afterClose (caller : CloseCaller) (r : ℕ) (stage : CloseStage)
    (result result' : Option Error) : (afterClose caller r result').runnersAdded =
      (SubmitPc.closing caller r stage result).runnersAdded := by
  cases caller <;> cases result' <;> rfl

theorem submitted_move (hm : Move cfg s l s') (hok : AcceptsAll s l) (hns : s'.submit ≠ .spinning)
    (ht : Threads cfg s) (ho : State.Owned s) (h : Submitted s) : Submitted s' := by
  cases hm with
  | spin => exact absurd rfl hns
  | start hm hs =>
    exact h.of_eq rfl rfl rfl fun _ => runnersAdded_of_not_alive (ht.idle hs)
  | @ensured n r side x f hp =>
    refine h.of_eq rfl rfl rfl fun hz => ?_
    rw [hp]
    simp only [afterEnsure] at hz
    split at hz
    · exact hz
    · split at hz <;> exact hz
  | ensureFailed hp =>
    refine h.of_eq rfl rfl rfl fun hz => ?_
    rw [hp]
    simp only [afterEnsureFailed] at hz
    split at hz <;> exact hz
  | batch hp hr hf hj he =>
    have hx := ho.hand _ (by rw [hp]; rfl) _ hr
    rw [hp] at hx
    refine ⟨fun hz => absurd hz (Nat.succ_ne_zero _), ?_, h.chains, h.calls⟩
    exact h.paired.append (he ▸ CopyRunner.requests_paired hx.write)
  | submitSkip hp =>
    exact h.of_eq rfl rfl rfl fun _ => by rw [hp]; rfl
  | @submit n k hp hn hk hle =>
    have hall : k = s.sq.length := by exact_mod_cast hok k rfl (by exact_mod_cast hk)
    have htake : s.sq.take k = s.sq := take_of_length_le hall.ge
    refine ⟨fun _ => ?_, ?_, fun c hc => ?_, fun call hcall => ?_⟩
    · exact drop_of_length_le hall.ge
    · change Paired (s.sq.drop k)
      rw [drop_of_length_le hall.ge]
      exact .nil
    · rcases mem_append.mp hc with hc | hc
      · exact h.chains c hc
      · obtain ⟨reqs, hreqs, rfl⟩ := mem_map.mp hc
        rw [htake] at hreqs
        exact h.paired.of_splitChains reqs hreqs
    · rcases mem_append.mp hcall with hcall | hcall
      · exact h.calls call hcall
      · rw [mem_singleton.mp hcall, htake]
        exact h.paired
  | @closeEnter caller r result x f hp | @closeNotOpen caller r side result x f answer hp
  | @close caller r side result x f answer hp | @notify caller r side result x f hp =>
    refine h.of_eq rfl rfl rfl fun hz => ?_
    rw [hp]
    cases caller <;> exact hz
  | closeNone hp =>
    refine h.of_eq rfl rfl rfl fun hz => ?_
    rw [hp, ← runnersAdded_afterClose]
    exact hz
  | @closeNext caller r side result hp =>
    refine h.of_eq rfl rfl rfl fun hz => ?_
    rw [hp]
    cases side with
    | source => cases caller <;> exact hz
    | dest => rw [← runnersAdded_afterClose]; exact hz
  | @record e caller hp =>
    refine h.of_eq rfl rfl rfl fun hz => ?_
    rw [hp]
    cases caller <;> exact hz
  | @deleteShared r caller x f hp | @deleteLast r caller x f hp =>
    refine h.of_eq rfl rfl rfl fun hz => ?_
    rw [hp]
    cases caller <;> exact hz
  | kernel hi hc =>
    obtain ⟨e, rest, hreqs, hreqs', -, -⟩ := Chain.complete_spec hc
    refine ⟨h.queued, h.paired, fun c hmem => ?_, h.calls⟩
    rcases mem_or_eq_of_mem_set hmem with hmem | rfl
    · exact h.chains c hmem
    · have := h.chains _ (mem_of_getElem? hi)
      rw [hreqs] at this
      exact hreqs' ▸ this.tail
  | _ =>
    first
    | exact ⟨h.queued, h.paired, h.chains, h.calls⟩
    | (have hp := ‹s.submit = _›
       exact h.of_eq rfl rfl rfl fun hz => by rw [hp]; first | exact hz | rfl)

theorem reachIn_submitted (h : (system cfg).ReachIn AcceptsAll s) : Submitted s := by
  refine h.invariant ?_ fun s l s' hr hs hc hstep => submitted_move (step_move hstep).2 hc
    (reachable_room (hr.step hc hstep)).notSpinning (reachable_threads hr) (reachable_owned hr).1 hs
  rintro s ⟨storage, rfl⟩
  exact ⟨fun _ => rfl, .nil, fun c hc => absurd hc not_mem_nil, fun c hc => absurd hc not_mem_nil⟩

/-- A request occurs once: at the head of a chain, it is neither queued nor anywhere else in a
chain. -/
theorem not_mem_of_head (h : State.Ring s) {c : Chain} (hc : c ∈ s.chains) {e : Sqe} {rest : List Sqe}
    (hreqs : c.reqs = e :: rest) {w : Sqe} (htag : w.tag = e.tag) :
    w ∉ s.sq ∧ w ∉ rest ∧ ∀ c' ∈ s.chains, c' ≠ c → w ∉ c'.reqs := by
  have hnd := h.nodup
  simp only [tags, pendingReqs, map_append, append_assoc] at hnd
  obtain ⟨-, hnd, hdis⟩ := nodup_append.mp hnd
  obtain ⟨hnd, -, -⟩ := nodup_append.mp hnd
  have hmem : e ∈ s.chains.flatMap Chain.reqs := mem_flatMap.mpr ⟨c, hc, by simp [hreqs]⟩
  rw [map_flatMap, nodup_flatMap] at hnd
  refine ⟨fun hw => ?_, fun hw => ?_, fun c' hc' hne hw => ?_⟩
  · exact hdis _ (mem_map_of_mem hw) _ (mem_append_left _ (mem_map_of_mem hmem)) htag
  · have hown := hnd.1 c hc
    rw [hreqs, map_cons, nodup_cons] at hown
    exact hown.1 (htag ▸ mem_map_of_mem hw)
  · have : Std.Symm (Function.onFun Disjoint fun a : Chain => map Sqe.tag a.reqs) :=
      ⟨fun _ _ hd => disjoint_comm.mp hd⟩
    have hdisjoint := hnd.2.forall hc' hc hne
    refine hdisjoint (mem_map_of_mem hw) ?_
    change w.tag ∈ c.reqs.map Sqe.tag
    rw [htag, hreqs]
    exact mem_map_of_mem mem_cons_self

/-- No write is at the head of its chain while the read of the same runner is pending. -/
theorem read_before_write (hring : State.Ring s) (h : Submitted s) {c : Chain} (hc : c ∈ s.chains)
    {e : Sqe} {rest : List Sqe} (hreqs : c.reqs = e :: rest) (he : e.event = .write) :
    ∀ r ∈ pendingReqs s.sq s.chains, r.event = .read → r.runner ≠ e.runner := by
  intro r hr hev hsame
  have htag : ∀ w : Sqe, w.event = .write → w.runner = r.runner → w.tag = e.tag := by
    intro w hw hwr
    rw [Sqe.tag, Sqe.tag, hw, he, hwr, hsame]
  rcases mem_append.mp hr with hr | hr
  · -- the write of a queued read is queued too
    obtain ⟨l₁, w, l₂, hl, hw, hwr⟩ := h.paired.exists_write hr hev
    exact (not_mem_of_head hring hc hreqs (htag w hw hwr)).1 (by rw [hl]; simp)
  · obtain ⟨c', hc', hr⟩ := mem_flatMap.mp hr
    obtain ⟨l₁, w, l₂, hl, hw, hwr⟩ := (h.chains c' hc').exists_write hr hev
    obtain ⟨-, hrest, hother⟩ := not_mem_of_head hring hc hreqs (htag w hw hwr)
    by_cases hcc : c' = c
    · subst hcc
      rw [hreqs] at hl
      cases l₁ with
      | nil =>
        have hre : e = r := (cons.inj hl).1
        rw [hre, hev] at he
        cases he
      | cons d l₁ =>
        have : rest = l₁ ++ r :: w :: l₂ := (cons.inj hl).2
        exact hrest (by rw [this]; simp)
    · exact hother c' hc' hcc (by rw [hl]; simp)

/-- In the runs in which each accepted `io_uring_submit` takes everything that is queued: outside the
SUBMIT phase, and in it until a runner has been added, every request counted in `submissionsRunning`
has been consumed by the kernel or completed; each linked read was consumed by the same call as the
write of its runner, which follows it; and no write can be executed before its read. -/
theorem requests_not_separated (h : (system cfg).ReachIn AcceptsAll s) :
    (s.submit.runnersAdded = 0 → s.sq = [] ∧ s.submissionsRunning =
      (s.chains.flatMap Chain.reqs).length + s.cq.length + s.submit.inEvent.toNat) ∧
    (∀ call ∈ s.submitCalls, ∀ i e, call[i]? = some e → e.link = true → e.event = .read ∧
      ∃ w, call[i + 1]? = some w ∧ w.event = .write ∧ w.runner = e.runner) ∧
    ∀ c ∈ s.chains, ∀ e rest, c.reqs = e :: rest → e.event = .write →
      ∀ r ∈ pendingReqs s.sq s.chains, r.event = .read → r.runner ≠ e.runner := by
  have hsub := reachIn_submitted h
  have hring := reachable_ring h
  refine ⟨fun hz => ?_, fun call hcall i e hi he => ?_, fun c hc e rest hreqs he => ?_⟩
  · have hq := hsub.queued hz
    have hcount := hring.submissions
    rw [hq] at hcount
    simp only [tags, pendingReqs, nil_append, length_append, length_map] at hcount
    exact ⟨hq, hcount⟩
  · exact (hsub.calls call hcall).next_of_link hi he
  · exact read_before_write hring hsub hc hreqs he

/-- A check that implies `AcceptsAll`. -/
def acceptsAllCheck (s : State) : Label → Bool
  | .submit (.submitted ret) => decide (0 < ret → ret = s.sq.length)
  | _ => true

theorem acceptsAll_of_check (s : State) (l : Label) (h : acceptsAllCheck s l = true) :
    AcceptsAll s l := by
  rintro ret rfl hpos
  exact of_decide_eq_true h hpos

theorem requests_not_separated_inFlight :
    ∃ s, (system smallConfig).ReachIn AcceptsAll s ∧ s.submit = .top ∧ s.submissionsRunning = 2 ∧
      s.sq = [] ∧ ∃ call e w, s.submitCalls = [call] ∧ call[0]? = some e ∧ e.link = true ∧
        call[1]? = some w ∧ w.runner = e.runner := by
  obtain ⟨s, hs, hp⟩ := Transition.System.ReachIn.exists_of_runIn acceptsAll_of_check
    (initial_init smallConfig (smallStorage 8)) inFlightSteps
    (fun s => decide (s.submit = .top ∧ s.submissionsRunning = 2) && match s.submitCalls with
      | [call] => call[0]?.any fun e => e.link
      | _ => false) (by decide +kernel)
  obtain ⟨hpc, hcalls⟩ := Bool.and_eq_true_iff.mp hp
  obtain ⟨htop, hrunning⟩ := of_decide_eq_true hpc
  obtain ⟨hqueue, hcall, -⟩ := requests_not_separated hs
  split at hcalls
  · rename_i call heq
    rw [Option.any_eq_true] at hcalls
    obtain ⟨e, he, hlink⟩ := hcalls
    obtain ⟨-, w, hw, -, hwr⟩ := hcall call (by rw [heq]; exact mem_cons_self) 0 e he hlink
    exact ⟨s, hs, htop, hrunning, (hqueue (by rw [htop]; rfl)).1, call, e, w, heq, he, hlink, hw, hwr⟩
  · cases hcalls

/-- The kernel takes the read of a chunk and not its write. -/
def partialSubmitSteps : List Label :=
  oneChunkSteps ++ [.submit (.rand 0 0), .submit .tick, .submit (.submitted 1)]

theorem write_left_behind : ∃ s, (system smallConfig).Reachable s ∧ s.submit = .completing ∧
    s.submissionsRunning = 2 ∧ s.sq.map Sqe.tag = [(0, .write)] ∧
    s.submitCalls.map (map Sqe.tag) = [[(0, .read)]] := by
  obtain ⟨s, hs, hp⟩ := exists_of_run smallConfig (smallStorage 8) partialSubmitSteps
    (fun s => decide (s.submit = .completing ∧ s.submissionsRunning = 2 ∧
      s.sq.map Sqe.tag = [(0, .write)] ∧ s.submitCalls.map (map Sqe.tag) = [[(0, .read)]]))
    (by decide +kernel)
  exact ⟨s, hs, of_decide_eq_true hp⟩

end CopyQueue

end Wcp
