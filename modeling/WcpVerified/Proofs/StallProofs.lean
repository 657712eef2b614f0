import WcpVerified.Library.Inevitable
import WcpVerified.Proofs.BufferProofs
import WcpVerified.Proofs.HeapProofs
import WcpVerified.Proofs.OrderProofs
import WcpVerified.Proofs.PlacementProofs

/-!
# Proofs: the submit loop does not stall

When nothing runs, every runner waits in one of the two lists. A rescheduled runner has its buffer and
its files, so the SUBMIT phase goes on with it. If there is none, no block is held but `nextBuffer`,
and the descriptors that are open are eager ones, unless the file at the front has its own: so the
front runner is taken, and its way to its requests, or through the branch for empty files, is open.
-/

namespace Wcp

namespace CopyQueue

open List

variable {cfg : Config} {s s' : State} {l : Label}

/-- The assertions of `giveBuffer` hold for every part of a job and every block of the heap. -/
def BuffersFit (cfg : Config) (job : Job) : Prop :=
  ∀ p, IsPart cfg job p → ∀ file i, i < cfg.heap.blocks →
    giveBufferFault cfg (.create file p.offset p.size p.alignment)
      (some (cfg.heap.blockAddr i)) = none

/-- The steps of a run without failures in which each accepted `io_uring_submit` takes everything that
is queued, and buffers fit every job. -/
structure Steady (cfg : Config) (s : State) (l : Label) : Prop extends Unfailing cfg s l where
  accepts : AcceptsAll s l
  fits : ∀ job, l = .addCopyJob job → BuffersFit cfg job

theorem unfailing_of_steady (s : State) (l : Label) (h : Steady cfg s l) : Unfailing cfg s l :=
  h.toUnfailing

theorem hand_of_dying {pc : SubmitPc} {r : ℕ} (h : dying pc = some r) : pc.hand = some r := by
  cases pc <;> first | exact h | cases h

theorem tags_nil_of_idle (h : State.Ring s) (he : s.submit.inEvent = false)
    (hidle : s.submissionsRunning = 0) : tags s.sq s.chains s.cq = [] := by
  have hcount := h.submissions
  rw [hidle, he] at hcount
  exact length_eq_zero_iff.mp (by simpa using hcount.symm)

/-! ## When nothing runs -/

/-- The submit thread looks for a runner, and nothing runs. -/
structure Still (cfg : Config) (s : State) : Prop where
  reach : (system cfg).ReachIn (Steady cfg) s
  hand : s.submit.hand = none
  event : s.submit.inEvent = false
  idle : s.submissionsRunning = 0
  state : s.state = .additionComplete

namespace Still

variable (h : Still cfg s)
include h

theorem jobs {r : ℕ} {x : CopyRunner} (hx : s.runners.get? r = some x) : x.jobsRunning = 0 := by
  have hring := reachable_ring h.reach
  rw [hring.jobs r x hx, tags_nil_of_idle hring h.event h.idle]
  rfl

theorem waiting {r : ℕ} {x : CopyRunner} (hx : s.runners.get? r = some x) :
    r ∈ s.copiesPendingStart ++ s.copiesPendingContinue := by
  have hmem := (reachable_owned h.reach).1.waits r x hx (h.jobs hx)
  rwa [h.hand, Option.toList_none, append_nil] at hmem

theorem mustWait_eq (hring : MAX_JOBS_PER_RUNNER ≤ cfg.ringSize) (hkeep : 0 < s.keepAliveCount) :
    mustWait cfg s = false := by
  obtain ⟨ho, hc⟩ := reachable_owned h.reach
  rw [hc.keepAlive] at hkeep
  obtain ⟨r, x, hx, -⟩ := Store.exists_of_sum_pos hkeep
  have hpos := length_pos_of_mem (h.waiting hx)
  have hsub := (reachable_room h.reach).sub_eq
  rw [h.idle, Nat.sub_zero] at hsub
  rw [length_append, ← hc.startCount] at hpos
  simp only [mustWait, h.idle, hsub, h.state]
  simp only [Bool.or_eq_false_iff, decide_eq_false_iff_not, beq_eq_false_iff_ne]
  exact ⟨⟨by omega, by omega⟩, by simp⟩

theorem main : s.main.joining = true := by
  rw [(reachable_threads h.reach).joining, h.state]
  rfl

theorem building_eq : building s.main = none := by
  have hm := h.main
  cases hmain : s.main with
  | ctor => rw [hmain] at hm; cases hm
  | part => rw [hmain] at hm; cases hm
  | _ => rfl

/-- Without rescheduled runners, every runner waits to be started. -/
theorem waiting_start (hcont : s.copiesPendingContinue = []) {r : ℕ} {x : CopyRunner}
    (hx : s.runners.get? r = some x) : r ∈ s.copiesPendingStart := by
  have hmem := h.waiting hx
  rwa [hcont, append_nil] at hmem

theorem heldBy_runner (hcont : s.copiesPendingContinue = []) (r : ℕ) : heldBy s (some r) = none := by
  simp only [heldBy]
  cases hx : s.runners.get? r with
  | none => rfl
  | some x =>
    exact ((reachable_owned h.reach).1.fresh r (h.waiting_start hcont hx) x hx).buffer

/-- A block is left when none is at hand. -/
theorem getBlock_isSome (hb : 0 < cfg.heap.blockSize) (hblocks : 0 < cfg.heap.blocks)
    (hcont : s.copiesPendingContinue = []) (hnext : s.nextBuffer = none) :
    ((cfg.heap.getBlock s.usedList).1).isSome = true := by
  have hblk := reachable_blocks hb h.reach
  rcases cfg.heap.getBlock_cases s.usedList with ⟨i, -, he⟩ | ⟨-, hall⟩
  · rw [he]
    rfl
  · have hlt : 0 < s.usedList.length := by rw [hblk.length]; exact hblocks
    have hused : s.usedList[0]? = some true := by
      rw [getElem?_eq_getElem hlt, hall _ (getElem_mem hlt)]
    obtain ⟨o, ho⟩ := hblk.conserved.owned 0 hused
    cases o with
    | none => simp [blockOf, heldBy, hnext] at ho
    | some r => simp [blockOf, h.heldBy_runner hcont r] at ho

/-- A file that is at work has runners. -/
theorem exists_runner {i : ℕ} {f : JobFiles} (hf : s.files.get? i = some f) :
    ∃ r x, s.runners.get? r = some x ∧ x.file = i := by
  have hsh := reachable_sharedFiles h.reach
  have hpos : 0 < f.chunksRemaining := by
    rcases hsh.pos i f hf with hpos | ⟨job, hb⟩
    · exact hpos
    · rw [h.building_eq] at hb
      cases hb
  rw [hsh.chunks i f hf, h.building_eq, pendingParts_none, Nat.add_zero] at hpos
  obtain ⟨r, x, hx, hone⟩ := Store.exists_of_sum_pos hpos
  by_cases hfile : x.file = i
  · exact ⟨r, x, hx, hfile⟩
  · rw [if_neg hfile] at hone
    exact absurd hone (lt_irrefl 0)

theorem entry_none : s.submit.entry = none := by
  cases he : s.submit.entry with
  | none => rfl
  | some r =>
    have hh := SubmitPc.hand_of_entry he
    rw [h.hand] at hh
    cases hh

/-- A file that needs descriptors has one that was never opened: none has been closed. -/
theorem never_of_needs {i : ℕ} {f : JobFiles} (hf : s.files.get? i = some f)
    (hneeds : f.needsFileDescriptors = true) : f.Never := by
  have hnot : ∀ side, (f.fd side).isOpen = false → (f.fd side).fd = .neverOpened := by
    intro side hside
    cases hfd : (f.fd side).fd with
    | neverOpened => rfl
    | opened ino =>
      simp [QueueFileDescriptor.isOpen, hfd] at hside
    | closed =>
      obtain ⟨-, r, x, hx, -, he | hd⟩ := (reachable_closing h.reach).closed i f side hf hfd
      · rw [(reachIn_smooth unfailing_of_steady h.reach).errors r x hx] at he
        cases he
      · have hh := hand_of_dying hd
        rw [h.hand] at hh
        cases hh
  simp only [JobFiles.needsFileDescriptors, Bool.or_eq_true, Bool.not_eq_true'] at hneeds
  exact hneeds.imp (hnot .source) (hnot .dest)

/-- If the file at the front has a descriptor that was never opened, the submit thread has opened
none: a file for which it has is not behind the front, and its runners have been started. -/
theorem not_high {r : ℕ} {rest : List ℕ} {x : CopyRunner} {f : JobFiles}
    (hcont : s.copiesPendingContinue = []) (hs : s.copiesPendingStart = r :: rest)
    (hx : s.runners.get? r = some x) (hf : s.files.get? x.file = some f) (hnever : f.Never) :
    ∀ i g side, s.files.get? i = some g → (g.fd side).high = false := by
  intro i g side hg
  by_contra hhigh
  rw [Bool.not_eq_false] at hhigh
  have hord := reachIn_inOrder unfailing_of_steady h.reach
  have hle : i ≤ x.file := hord.high i g side hg hhigh r (by rw [hs]; exact mem_cons_self) x hx
  have hge : x.file ≤ i := by
    obtain ⟨r', x', hx', rfl⟩ := h.exists_runner hg
    have hmem := h.waiting_start hcont hx'
    have hsorted := hord.sorted
    rw [hs] at hmem hsorted
    rcases mem_cons.mp hmem with rfl | hmem
    · rw [hx] at hx'
      cases hx'
      exact le_rfl
    · exact (pairwise_cons.mp hsorted).1 r' hmem x x' hx hx'
  obtain rfl : i = x.file := le_antisymm hle hge
  rw [hf] at hg
  cases hg
  obtain ⟨r', x', hent, -⟩ := hord.half x.file f side hf hhigh hnever
  rw [h.entry_none] at hent
  cases hent

theorem reserving_eq : s.main.reserving = 0 ∧ s.submit.reserving = 0 := by
  have hm := h.main
  have hh := h.hand
  refine ⟨?_, ?_⟩
  · cases hmain : s.main with
    | ctor => rw [hmain] at hm; cases hm
    | _ => rfl
  · cases hp : s.submit with
    | ensure => rw [hp] at hh; cases hh
    | _ => rfl

/-- The front runner is not refused for lack of descriptors. -/
theorem admits {r : ℕ} {rest : List ℕ} {x : CopyRunner} {f : JobFiles}
    (hcont : s.copiesPendingContinue = []) (hs : s.copiesPendingStart = r :: rest)
    (hx : s.runners.get? r = some x) (hf : s.files.get? x.file = some f) :
    (outOfFds cfg s && f.needsFileDescriptors) = false := by
  cases hneeds : f.needsFileDescriptors with
  | false => exact Bool.and_false _
  | true =>
    have hnot := h.not_high hcont hs hx hf (h.never_of_needs hf hneeds)
    -- so the descriptors that are open are the eager ones
    have hopen : openFds s.files = countFds (·.eager) s.files := by
      refine Store.sum_congr fun i g hg => ?_
      have hone : ∀ side, (g.fd side).isOpen = (g.fd side).eager := by
        intro side
        have := hnot i g side hg
        unfold QueueFileDescriptor.high at this
        unfold QueueFileDescriptor.eager
        cases hi : (g.fd side).isOpen with
        | false => rfl
        | true => simpa [hi] using this
      rw [JobFiles.openCount]
      exact congrArg₂ (fun a b : Bool => a.toNat + b.toNat) (hone .source) (hone .dest)
    have hacc := reachIn_accounted unfailing_of_steady h.reach
    have hspare : Spare cfg s := reachable_spare h.reach
    have hsub := (reachable_fds h.reach).sub_eq
    obtain ⟨hm, hp⟩ := h.reserving_eq
    unfold accounted at hacc
    unfold Spare at hspare
    rw [hm] at hacc hspare
    rw [hp, hopen] at hacc
    simp only [outOfFds, hsub, Bool.and_true, decide_eq_false_iff_not]
    simp only [RESERVED_HIGH_PRIORITY_FD_COUNT] at *
    omega

/-- The front runner can be given the buffer at hand. -/
theorem gives (hb : 0 < cfg.heap.blockSize) {r b : ℕ} {x : CopyRunner} {f : JobFiles}
    (hmem : r ∈ s.copiesPendingStart) (hx : s.runners.get? r = some x)
    (hf : s.files.get? x.file = some f) (hnext : s.nextBuffer = some b) :
    giveBufferFault cfg x s.nextBuffer = none := by
  have hfit : BuffersFit cfg f.job := reachIn_jobs (fun s l job hl => hl.fits job) h.reach _ f hf
  have hblk := reachable_blocks hb h.reach
  have hfresh := (reachable_owned h.reach).1.fresh r hmem x hx
  have haddr := hblk.addr none b hnext
  have hlt : cfg.heap.blockIndex b < cfg.heap.blocks := by
    have hheld := hblk.conserved.held none (cfg.heap.blockIndex b) (by simp [blockOf, heldBy, hnext])
    rw [← hblk.length]
    exact (List.getElem?_eq_some_iff.mp hheld).1
  have hnone := hfit _ (reachable_chunked h.reach r x f hx hf) x.file _ hlt
  rw [← haddr] at hnone
  rw [hnext, ← hnone]
  simp only [giveBufferFault, CopyRunner.needsBuffer, hfresh.buffer, CopyRunner.giveBuffer,
    CopyRunner.create]
  rfl

end Still

/-! ## The SUBMIT phase -/

/-- How far the SUBMIT phase is from a runner that has been started or completed. -/
def toGo : SubmitPc → ℕ
  | .top => 40
  | .adding _ => 39
  | .fetching _ => 38
  | .picking _ => 37
  | .taking _ => 36
  | .starting _ _ => 35
  | .ensure _ _ side stage =>
    (match side with | .source => 29 | .dest => 24) + match stage with
      | .check => 5
      | .reserve .load => 4
      | .reserve (.cas _) => 3
      | .reserve .opening => 2
      | .reserve .done => 1
      | .failed _ => 0
  | .batch _ _ => 24
  | .closing _ _ stage _ => match stage with
    | .enter => 23
    | .close .source => 22
    | .notify .source => 21
    | .next .source => 20
    | .close .dest => 19
    | .notify .dest => 18
    | .next .dest => 17
  | .recording _ _ => 16
  | .deleting _ _ => 15
  | _ => 0

/-- The submit thread has not chosen a runner yet. -/
structure Seeks (s t : State) : Prop where
  start : t.copiesPendingStart = s.copiesPendingStart
  cont : t.copiesPendingContinue = s.copiesPendingContinue
  pc : t.submit = .top ∨ t.submit = .adding 0 ∨ t.submit = .fetching 0 ∨
    t.submit = .picking 0 ∧ (t.copiesPendingContinue = [] → t.nextBuffer.isSome = true) ∨
    t.submit = .taking 0 ∧ t.copiesPendingContinue = []

/-- The way of runner `r` from the choice to its requests, or through the branch for empty files. -/
inductive Begins (used r : ℕ) : SubmitPc → Prop where
  | starting : Begins used r (.starting 0 r)
  | check (side : Side) : Begins used r (.ensure 0 r side .check)
  | load (side : Side) : Begins used r (.ensure 0 r side (.reserve .load))
  | cas (side : Side) : Begins used r (.ensure 0 r side (.reserve (.cas used)))
  | opening (side : Side) : Begins used r (.ensure 0 r side (.reserve .opening))
  | done (side : Side) : Begins used r (.ensure 0 r side (.reserve .done))
  | batch : Begins used r (.batch 0 r)
  | closing (stage : CloseStage) (result : Option Error) :
      Begins used r (.closing (.emptyFile 0) r stage result)
  | recording (e : Error) : Begins used r (.recording e (.emptyFile 0 r))
  | deleting : Begins used r (.deleting r (.emptyFile 0))

/-- The SUBMIT phase that began in state `s`, up to the first runner. -/
structure Phase (cfg : Config) (s t : State) : Prop where
  reach : (system cfg).ReachIn (Steady cfg) t
  halted : t.halted = none
  state : t.state = .additionComplete
  keep : 0 < t.keepAliveCount
  idle : t.submissionsRunning = 0
  place : Seeks s t ∨ ∃ r ∈ s.copiesPendingStart ++ s.copiesPendingContinue,
    Begins t.fileDescriptorsUsed r t.submit

/-- A runner that waited in state `s` has been taken, and its requests have been queued, or it was the
runner of an empty file and has been destroyed without an error. -/
def Advanced (s t : State) : Prop :=
  ∃ r ∈ s.copiesPendingStart ++ s.copiesPendingContinue,
    r ∉ t.copiesPendingStart ++ t.copiesPendingContinue ∧
    (t.submit = .adding 1 ∧ (∃ x, t.runners.get? r = some x ∧ 0 < x.jobsRunning) ∨
      t.submit = .adding 0 ∧ t.runners.get? r = none ∧
        ∃ x, t.destroyed.getLast? = some x ∧ x.size = 0 ∧ x.savedError = none)

variable {t t' : State} {a : Answer}

theorem withRunner_eq {r : ℕ} {x : CopyRunner} {f : JobFiles} (hx : s.runners.get? r = some x)
    (hf : s.files.get? x.file = some f) (k : CopyRunner → JobFiles → State) :
    withRunner s r k = k x f := by
  simp [withRunner, hx, hf]

theorem Begins.alive {used r : ℕ} {pc : SubmitPc} (h : Begins used r pc) :
    pc.alive = true ∧ pc.inEvent = false := by
  cases h <;> exact ⟨rfl, rfl⟩

namespace Phase

theorem still (h : Phase cfg s t) (hp : t.submit.hand = none) (he : t.submit.inEvent = false) :
    Still cfg t :=
  ⟨h.reach, hp, he, h.idle, h.state⟩

/-- A step that leaves the counters alone stays in the phase. -/
theorem next (h : Phase cfg s t) (hok : Steady cfg t (.submit a))
    (hs : step cfg t (.submit a) = some t') (hhalted : t'.halted = none) (hstate : t'.state = t.state)
    (hkeep : t'.keepAliveCount = t.keepAliveCount)
    (hidle : t'.submissionsRunning = t.submissionsRunning)
    (hplace : Seeks s t' ∨ ∃ r ∈ s.copiesPendingStart ++ s.copiesPendingContinue,
      Begins t'.fileDescriptorsUsed r t'.submit) : Phase cfg s t' where
  reach := .step h.reach hok hs
  halted := hhalted
  state := hstate.trans h.state
  keep := hkeep ▸ h.keep
  idle := hidle.trans h.idle
  place := hplace

theorem step_eq (h : Phase cfg s t) : step cfg t (.submit a) = submitStep cfg a t := by
  simp [step, h.halted]

theorem toGo_lt {pc pc' : SubmitPc} (hp : t.submit = pc) (hp' : t'.submit = pc')
    (hlt : toGo pc' < toGo pc) : toGo t'.submit < toGo t.submit := by
  rw [hp, hp']
  exact hlt

variable (hring : MAX_JOBS_PER_RUNNER ≤ cfg.ringSize) (hb : 0 < cfg.heap.blockSize)
  (hblocks : 0 < cfg.heap.blocks)
include hb

/-- With no rescheduled runner, the one at the front is taken. -/
theorem take (h : Phase cfg s t) (hseek : Seeks s t) (hp : t.submit = .taking 0)
    (hcont : t.copiesPendingContinue = []) (hok : Steady cfg t (.submit .tick))
    (hs : step cfg t (.submit .tick) = some t') :
    Phase cfg s t' ∧ toGo t'.submit < toGo t.submit := by
  have hstill := h.still (by rw [hp]; rfl) (by rw [hp]; rfl)
  have hreach := h.reach
  obtain ⟨hne, hsome⟩ := (reachable_owned hreach).2.taking 0 hp
  obtain ⟨b, hnext⟩ := Option.isSome_iff_exists.mp hsome
  obtain ⟨r, rest, hstart⟩ := exists_cons_of_ne_nil hne
  have hmem : r ∈ t.copiesPendingStart := by rw [hstart]; exact mem_cons_self
  obtain ⟨x, hx⟩ := (reachable_owned hreach).1.live r (by simp [hmem])
  obtain ⟨f, hf⟩ := (reachable_sharedFiles hreach).live r x hx
  have hadmits := hstill.admits hcont hstart hx hf
  have hgives := hstill.gives hb hmem hx hf hnext
  have hs' := hs
  rw [h.step_eq] at hs
  unfold submitStep at hs
  rw [hp] at hs
  simp only [takingStep, hstart, withRunner_eq hx hf, hadmits, hgives, Bool.false_eq_true,
    if_false, Option.some.injEq] at hs
  subst hs
  refine ⟨h.next hok hs' h.halted rfl rfl rfl (.inr ⟨r, ?_, .starting⟩), toGo_lt hp rfl (by simp [toGo])⟩
  rw [← hseek.start]
  exact mem_append_left _ hmem

include hring hblocks

/-- Until a runner is chosen: there is one to choose. -/
theorem seek (h : Phase cfg s t) (hseek : Seeks s t) (hok : Steady cfg t (.submit a))
    (hs : step cfg t (.submit a) = some t') :
    Phase cfg s t' ∧ toGo t'.submit < toGo t.submit := by
  have hs' := hs
  rw [h.step_eq] at hs
  unfold submitStep at hs
  rcases hseek.pc with hp | hp | hp | ⟨hp, hbuf⟩ | ⟨hp, hcont⟩
  · rw [hp] at hs
    cases a with
    | tick =>
      cases hs
      exact ⟨h.next hok hs' h.halted rfl rfl rfl (.inl ⟨hseek.start, hseek.cont, .inr (.inl rfl)⟩),
        toGo_lt hp rfl (by simp [toGo])⟩
    | _ => cases hs
  · rw [hp] at hs
    have hstill := h.still (by rw [hp]; rfl) (by rw [hp]; rfl)
    cases a with
    | tick =>
      simp only [addingStep, hstill.mustWait_eq hring h.keep, Bool.false_eq_true, if_false,
        Option.some.injEq] at hs
      subst hs
      exact ⟨h.next hok hs' h.halted rfl rfl rfl
        (.inl ⟨hseek.start, hseek.cont, .inr (.inr (.inl rfl))⟩), toGo_lt hp rfl (by simp [toGo])⟩
    | _ => cases hs
  · rw [hp] at hs
    have hstill := h.still (by rw [hp]; rfl) (by rw [hp]; rfl)
    cases a with
    | tick =>
      simp only [fetchingStep, Option.some.injEq] at hs
      split at hs
      · rename_i hsome
        subst hs
        exact ⟨h.next hok hs' h.halted rfl rfl rfl (.inl ⟨hseek.start, hseek.cont,
          .inr (.inr (.inr (.inl ⟨rfl, fun _ => hsome⟩)))⟩), toGo_lt hp rfl (by simp [toGo])⟩
      · rename_i hnone
        subst hs
        have hblock : t.copiesPendingContinue = [] →
            (cfg.heap.getBlock t.usedList).1.isSome = true :=
          fun hcont => hstill.getBlock_isSome hb hblocks hcont (by simpa using hnone)
        exact ⟨h.next hok hs' h.halted rfl rfl rfl (.inl ⟨hseek.start, hseek.cont,
          .inr (.inr (.inr (.inl ⟨rfl, hblock⟩)))⟩), toGo_lt hp rfl (by simp [toGo])⟩
    | _ => cases hs
  · rw [hp] at hs
    have hstill := h.still (by rw [hp]; rfl) (by rw [hp]; rfl)
    cases a with
    | tick =>
      simp only [pickingStep, Option.some.injEq] at hs
      split at hs
      · rename_i r rest hc
        subst hs
        refine ⟨h.next hok hs' h.halted rfl rfl rfl (.inr ⟨r, ?_, .starting⟩),
          toGo_lt hp rfl (by simp [toGo])⟩
        rw [← hseek.cont, hc]
        exact mem_append_right _ mem_cons_self
      · rename_i hc
        have hcount : 0 < t.copiesPendingStartCount := by
          obtain ⟨ho, hcounts⟩ := reachable_owned h.reach
          have hkeep := h.keep
          rw [hcounts.keepAlive] at hkeep
          obtain ⟨r, x, hx, -⟩ := Store.exists_of_sum_pos hkeep
          rw [hcounts.startCount]
          exact length_pos_of_mem (hstill.waiting_start hc hx)
        rw [if_pos ⟨hbuf hc, hcount⟩] at hs
        subst hs
        exact ⟨h.next hok hs' h.halted rfl rfl rfl (.inl ⟨hseek.start, hseek.cont,
          .inr (.inr (.inr (.inr ⟨rfl, hc⟩)))⟩), toGo_lt hp rfl (by simp [toGo])⟩
    | _ => cases hs
  · rw [hp] at hs
    cases a with
    | tick => exact h.take hb hseek hp hcont hok hs'
    | _ => cases hs

omit hring hb hblocks

/-- The requests of the runner are queued. -/
theorem queue (h : Phase cfg s t) {r : ℕ}
    (hr : r ∈ s.copiesPendingStart ++ s.copiesPendingContinue) (hp : t.submit = .batch 0 r) {m n : ℕ}
    (hs : step cfg t (.submit (.rand m n)) = some t') : Advanced s t' := by
  have hreach := h.reach
  have ho := (reachable_owned hreach).1
  have hhand : t.submit.hand = some r := by rw [hp]; rfl
  obtain ⟨x, f, hx, hf⟩ := hand_objects ho (reachable_sharedFiles hreach) hhand
  have hres := ho.hand r hhand x hx
  rw [hp] at hres
  have hres : x.Resumable := hres
  have hroom := (reachable_room hreach).room (by rw [hp]; rfl)
  have hsq := (reachable_ring hreach).length_sq_le
  have hlen : (x.requests cfg.modes m n f.sourceFd.getFd f.destFd.getFd r).length ≤ _ :=
    CopyRunner.requests_length_le
  have hpos : 0 < (x.requests cfg.modes m n f.sourceFd.getFd f.destFd.getFd r).length :=
    CopyRunner.requests_ne_nil hres.write
  rw [h.step_eq] at hs
  unfold submitStep at hs
  rw [hp] at hs
  simp only [batchStep, withRunner_eq hx hf, hres.jobs, ne_eq, not_true_eq_false, if_false,
    if_neg (show ¬ cfg.ringSize < t.sq.length +
      (x.requests cfg.modes m n f.sourceFd.getFd f.destFd.getFd r).length by omega),
    Option.some.injEq] at hs
  subst hs
  refine ⟨r, hr, fun hmem => ho.hand_notMem hhand r hmem rfl, .inl ⟨rfl, _, Store.get?_modify_self hx, ?_⟩⟩
  exact Nat.add_pos_right _ hpos

/-- The runner of an empty file is destroyed. -/
theorem delete (h : Phase cfg s t) {r : ℕ}
    (hr : r ∈ s.copiesPendingStart ++ s.copiesPendingContinue)
    (hp : t.submit = .deleting r (.emptyFile 0)) (hs : step cfg t (.submit .tick) = some t') :
    Advanced s t' := by
  have hreach := h.reach
  have ho := (reachable_owned hreach).1
  have hhand : t.submit.hand = some r := by rw [hp]; rfl
  obtain ⟨x, f, hx, hf⟩ := hand_objects ho (reachable_sharedFiles hreach) hhand
  have hjobs := ho.hand r hhand x hx
  have hclean := reachable_handled hreach r x f hhand hx hf
  rw [hp] at hjobs hclean
  have hjobs : x.jobsRunning = 0 := hjobs
  rw [h.step_eq] at hs
  unfold submitStep at hs
  rw [hp] at hs
  simp only [deletingStep, withRunner_eq hx hf, hjobs, ne_eq, not_true_eq_false, if_false,
    Option.some.injEq] at hs
  have hlast : (t.destroyed ++ [x]).getLast? = some x := getLast?_concat
  have hgone : (t.runners.erase r).get? r = none := Store.get?_erase_self
  unfold releaseFiles at hs
  split at hs <;> subst hs
  all_goals
    exact ⟨r, hr, fun hmem => ho.hand_notMem hhand r hmem rfl,
      .inr ⟨rfl, hgone, x, hlast, hclean.2.1, hclean.1⟩⟩

/-- Opening the files of the runner. -/
theorem ensure (h : Phase cfg s t) {r : ℕ} {side : Side} {stage : EnsureStage}
    (hr : r ∈ s.copiesPendingStart ++ s.copiesPendingContinue)
    (hp : t.submit = .ensure 0 r side stage) (hbegins : Begins t.fileDescriptorsUsed r t.submit)
    (hok : Steady cfg t (.submit a)) (hs : step cfg t (.submit a) = some t') :
    Phase cfg s t' ∧ toGo t'.submit < toGo t.submit := by
  have hreach := h.reach
  have ho := (reachable_owned hreach).1
  have hhand : t.submit.hand = some r := by rw [hp]; rfl
  obtain ⟨x, f, hx, hf⟩ := hand_objects ho (reachable_sharedFiles hreach) hhand
  have hs' := hs
  rw [h.step_eq] at hs
  unfold submitStep at hs
  rw [hp] at hs hbegins
  cases hbegins with
  | check =>
    cases a with
    | tick =>
      simp only [ensureStep, withRunner_eq hx hf, Option.some.injEq] at hs
      split at hs <;> subst hs
      · exact ⟨h.next hok hs' h.halted rfl rfl rfl (.inr ⟨r, hr, .load side⟩),
          toGo_lt hp rfl (by simp [toGo])⟩
      · exact ⟨h.next hok hs' h.halted rfl rfl rfl (.inr ⟨r, hr, .done side⟩),
          toGo_lt hp rfl (by simp [toGo])⟩
      · exact ⟨h.next hok hs' h.halted rfl rfl rfl (.inr ⟨r, hr, .done side⟩),
          toGo_lt hp rfl (by simp [toGo])⟩
    | _ => cases hs
  | load =>
    cases a with
    | tick =>
      cases hs
      exact ⟨h.next hok hs' h.halted rfl rfl rfl (.inr ⟨r, hr, .cas side⟩),
        toGo_lt hp rfl (by simp [toGo])⟩
    | _ => cases hs
  | cas =>
    -- nobody else changes the counter, and the runner was admitted
    have hlt := (reachable_fds hreach).cas_lt ho (reachable_sharedFiles hreach) hp
    cases a with
    | tick =>
      simp only [ensureStep, if_neg (show ¬ (t.fileDescriptorsUsed ≥ cfg.fileDescriptorCap ∨
        t.fileDescriptorsUsed ≠ t.fileDescriptorsUsed) by omega), Option.some.injEq] at hs
      subst hs
      exact ⟨h.next hok hs' h.halted rfl rfl rfl (.inr ⟨r, hr, .opening side⟩),
        toGo_lt hp rfl (by simp [toGo])⟩
    | _ => cases hs
  | opening =>
    cases a with
    | opened answers =>
      cases hopen : myOpen cfg.strerror (f.fd side).path (f.fd side).oflag answers with
      | error e => exact absurd hopen (hok.opens _ _ _ _ _ (by simp [opening, hp, hx]) hf)
      | ok ino =>
        simp only [ensureStep, withRunner_eq hx hf, doOpen, hopen, Option.some.injEq] at hs
        subst hs
        exact ⟨h.next hok hs' h.halted rfl rfl rfl (.inr ⟨r, hr, .done side⟩),
          toGo_lt hp rfl (by simp [toGo])⟩
    | _ => cases hs
  | done =>
    cases a with
    | tick =>
      simp only [ensureStep, withRunner_eq hx hf, Option.some.injEq] at hs
      subst hs
      cases side with
      | source =>
        exact ⟨h.next hok hs' h.halted rfl rfl rfl (.inr ⟨r, hr, .check .dest⟩),
          toGo_lt hp rfl (by simp [toGo, afterEnsure])⟩
      | dest =>
        by_cases hz : x.size = 0
        · have hpc : afterEnsure 0 r .dest x = .closing (.emptyFile 0) r .enter none := if_pos hz
          rw [hpc] at hs' ⊢
          exact ⟨h.next hok hs' h.halted rfl rfl rfl (.inr ⟨r, hr, .closing ..⟩),
            toGo_lt hp rfl (by simp [toGo])⟩
        · have hpc : afterEnsure 0 r .dest x = .batch 0 r := if_neg hz
          rw [hpc] at hs' ⊢
          exact ⟨h.next hok hs' h.halted rfl rfl rfl (.inr ⟨r, hr, .batch⟩),
            toGo_lt hp rfl (by simp [toGo])⟩
    | _ => cases hs

theorem afterClose_emptyFile (used r : ℕ) (result : Option Error) :
    Begins used r (afterClose (.emptyFile 0) r result) ∧
      toGo (afterClose (.emptyFile 0) r result) < 17 := by
  cases result with
  | none => exact ⟨.deleting, by simp [toGo, afterClose]⟩
  | some e => exact ⟨.recording e, by simp [toGo, afterClose]⟩

/-- `handleFileClose` for an empty file. -/
theorem close (h : Phase cfg s t) {r : ℕ} {stage : CloseStage} {result : Option Error}
    (hr : r ∈ s.copiesPendingStart ++ s.copiesPendingContinue)
    (hp : t.submit = .closing (.emptyFile 0) r stage result) (hok : Steady cfg t (.submit a))
    (hs : step cfg t (.submit a) = some t') :
    Phase cfg s t' ∧ toGo t'.submit < toGo t.submit := by
  have hreach := h.reach
  have hhand : t.submit.hand = some r := by rw [hp]; rfl
  obtain ⟨x, f, hx, hf⟩ := hand_objects (reachable_owned hreach).1 (reachable_sharedFiles hreach) hhand
  obtain ⟨hbegins, hlt⟩ := afterClose_emptyFile t.fileDescriptorsUsed r result
  have hs' := hs
  rw [h.step_eq] at hs
  unfold submitStep at hs
  rw [hp] at hs
  cases stage with
  | enter =>
    cases a with
    | tick =>
      simp only [closingStep, withRunner_eq hx hf, Option.some.injEq] at hs
      split at hs <;> subst hs
      · exact ⟨h.next hok hs' h.halted rfl rfl rfl (.inr ⟨r, hr, .closing ..⟩),
          toGo_lt hp rfl (by simp [toGo])⟩
      · exact ⟨h.next hok hs' h.halted rfl rfl rfl (.inr ⟨r, hr, hbegins⟩),
          toGo_lt hp rfl (hlt.trans (by simp [toGo]))⟩
    | _ => cases hs
  | close side =>
    cases a with
    | closed answer =>
      simp only [closingStep, withRunner_eq hx hf, Option.some.injEq] at hs
      split at hs <;> subst hs
      all_goals
        exact ⟨h.next hok hs' h.halted rfl rfl rfl (.inr ⟨r, hr, .closing ..⟩),
          toGo_lt hp rfl (by cases side <;> simp [toGo])⟩
    | _ => cases hs
  | notify side =>
    cases a with
    | tick =>
      simp only [closingStep, withRunner_eq hx hf, Option.some.injEq] at hs
      subst hs
      exact ⟨h.next hok hs' h.halted rfl rfl rfl (.inr ⟨r, hr, .closing ..⟩),
        toGo_lt hp rfl (by cases side <;> simp [toGo])⟩
    | _ => cases hs
  | next side =>
    cases a with
    | tick =>
      simp only [closingStep, Option.some.injEq] at hs
      subst hs
      cases side with
      | source =>
        exact ⟨h.next hok hs' h.halted rfl rfl rfl (.inr ⟨r, hr, .closing ..⟩),
          toGo_lt hp rfl (by simp [toGo, closeNext])⟩
      | dest =>
        exact ⟨h.next hok hs' h.halted rfl rfl rfl (.inr ⟨r, hr, hbegins⟩),
          toGo_lt hp rfl (hlt.trans_le (by simp [toGo]))⟩
    | _ => cases hs

/-- From the choice of a runner, each step of the submit thread leads on. -/
theorem begin (h : Phase cfg s t) {r : ℕ}
    (hr : r ∈ s.copiesPendingStart ++ s.copiesPendingContinue)
    (hbegins : Begins t.fileDescriptorsUsed r t.submit) (hok : Steady cfg t (.submit a))
    (hs : step cfg t (.submit a) = some t') :
    Advanced s t' ∨ Phase cfg s t' ∧ toGo t'.submit < toGo t.submit := by
  have hs' := hs
  rw [h.step_eq] at hs
  unfold submitStep at hs
  have hbegins' := hbegins
  obtain ⟨pc, hp⟩ : ∃ pc, t.submit = pc := ⟨_, rfl⟩
  rw [hp] at hs hbegins
  cases hbegins with
  | starting =>
    have hhand : t.submit.hand = some r := by rw [hp]; rfl
    obtain ⟨x, f, hx, hf⟩ := hand_objects (reachable_owned h.reach).1 (reachable_sharedFiles h.reach)
      hhand
    cases a with
    | tick =>
      simp only [startingStep, withRunner_eq hx hf, Option.some.injEq] at hs
      subst hs
      refine .inr ⟨h.next hok hs' h.halted rfl rfl rfl (.inr ⟨r, hr, .check _⟩), toGo_lt hp rfl ?_⟩
      split <;> simp [toGo]
    | _ => cases hs
  | check | load | cas | opening | done => exact .inr (h.ensure hr hp hbegins' hok hs')
  | batch =>
    cases a with
    | rand => exact .inl (h.queue hr hp hs')
    | _ => cases hs
  | closing => exact .inr (h.close hr hp hok hs')
  | recording e =>
    cases a with
    | tick =>
      cases hs
      exact .inr ⟨h.next hok hs' h.halted rfl rfl rfl (.inr ⟨r, hr, .deleting⟩),
        toGo_lt hp rfl (by simp [toGo, afterError])⟩
    | _ => cases hs
  | deleting =>
    cases a with
    | tick => exact .inl (h.delete hr hp hs')
    | _ => cases hs

/-! ### The other threads -/

theorem pc_alive (h : Phase cfg s t) : t.submit.alive = true ∧ t.submit.inEvent = false := by
  rcases h.place with hseek | ⟨r, -, hbegins⟩
  · rcases hseek.pc with hp | hp | hp | ⟨hp, -⟩ | ⟨hp, -⟩ <;> rw [hp] <;> exact ⟨rfl, rfl⟩
  · exact hbegins.alive

theorem not_returned (h : Phase cfg s t) : t.submit ≠ .returned := by
  intro hp
  have halive := h.pc_alive.1
  rw [hp] at halive
  cases halive

theorem not_done (h : Phase cfg s t) : isDone t = false := by
  have hkeep := h.keep
  simp only [isDone, Bool.and_eq_false_iff, beq_eq_false_iff_ne]
  exact .inr (by omega)

theorem main_joining (h : Phase cfg s t) : t.main.joining = true := by
  rw [(reachable_threads h.reach).joining, h.state]
  rfl

/-- While the submit thread is on its way, the main thread can only go on waiting in `join`, and the
progress thread and the kernel have nothing to do. -/
theorem other_eq (h : Phase cfg s t) (hl : ∀ a, l ≠ .submit a) (hs : step cfg t l = some t') :
    ∃ main action storage, t' = { t with main := main, completionAction := action, storage := storage } := by
  have ht := reachable_threads h.reach
  have hjoin := h.main_joining
  have hnotReady : t.main ≠ .ready := by
    intro hm
    rw [hm] at hjoin
    cases hjoin
  have hprogress : t.progressEnd = false := by
    cases he : t.progressEnd with
    | false => rfl
    | true => exact absurd (ht.joinProgress (ht.progressEnd he)) h.not_returned
  unfold step at hs
  rw [if_neg (show ¬ t.halted.isSome = true by rw [h.halted]; nofun)] at hs
  cases l with
  | start | addCopyJob | walkError | join => simp [hnotReady] at hs
  | main a =>
    simp only [mainStep] at hs
    cases hm : t.main with
    | ready => exact absurd hm hnotReady
    | ctor => rw [hm] at hjoin; cases hjoin
    | part => rw [hm] at hjoin; cases hjoin
    | joinAction action =>
      rw [hm] at hs
      cases a with
      | tick => cases hs; exact ⟨_, _, _, rfl⟩
      | _ => cases hs
    | joinSubmit =>
      rw [hm] at hs
      cases a with
      | tick => simp [h.not_returned] at hs
      | _ => cases hs
    | joinProgress => exact absurd (ht.joinProgress hm) h.not_returned
  | submit a => exact absurd rfl (hl a)
  | progress =>
    simp only [progressStep, h.not_done, hprogress, Bool.or_self, Bool.false_eq_true, if_false] at hs
    split at hs
    · cases hs
    · rename_i hp
      have hd := ht.ended hp
      rw [h.not_done] at hd
      cases hd
    · cases hs
  | kernel i res =>
    simp only [kernelStep] at hs
    split at hs
    · cases hs
    · rename_i chain hi
      split at hs
      · cases hs
      · rename_i chain' storage cqe hc
        obtain ⟨e, rest, hreqs, -⟩ := chain.complete_spec hc
        have hnil := tags_nil_of_idle (reachable_ring h.reach) h.pc_alive.2 h.idle
        have hmem : e.tag ∈ tags t.sq t.chains t.cq :=
          mem_append_left _ (mem_map_of_mem (mem_append_right _
            (mem_flatMap.mpr ⟨chain, mem_of_getElem? hi, by rw [hreqs]; exact mem_cons_self⟩)))
        rw [hnil] at hmem
        cases hmem
  | otherProcess => cases hs; exact ⟨_, _, _, rfl⟩

theorem other (h : Phase cfg s t) (hl : ∀ a, l ≠ .submit a) (hok : Steady cfg t l)
    (hs : step cfg t l = some t') : Phase cfg s t' ∧ toGo t'.submit = toGo t.submit := by
  have hreach : (system cfg).ReachIn (Steady cfg) t' := .step h.reach hok hs
  obtain ⟨main, action, storage, rfl⟩ := h.other_eq hl hs
  refine ⟨⟨hreach, h.halted, h.state, h.keep, h.idle, ?_⟩, rfl⟩
  rcases h.place with hseek | hbegins
  · exact .inl ⟨hseek.start, hseek.cont, hseek.pc⟩
  · exact .inr hbegins

/-! ### The submit thread has a step to take -/

theorem steady_submit (ha : ∀ answers, a ≠ .opened answers) (hp : ∀ i, a ≠ .peeked i)
    (hr : ∀ ret, a ≠ .submitted ret) : Steady cfg t (.submit a) where
  opens i side answers f e ho := by
    cases a with
    | opened answers => exact absurd rfl (ha answers)
    | _ => cases ho
  transfers i c x f hl := by
    cases hl
    exact absurd rfl (hp _)
  accepts ret hl := by
    cases hl
    exact absurd rfl (hr ret)
  fits job hl := by cases hl

theorem steady_opened (ino : Ino) : Steady cfg t (.submit (.opened fun _ => .ok ino)) where
  opens i side answers f e ho _ := by
    simp only [opening] at ho
    split at ho
    · rw [Option.map_eq_some_iff] at ho
      obtain ⟨x, -, hx⟩ := ho
      cases hx
      simp [myOpen, openAttempts]
    · cases ho
  transfers i c x f hl := by cases hl
  accepts ret hl := by cases hl
  fits job hl := by cases hl

theorem enabled (h : Phase cfg s t) : ∃ a t', Steady cfg t (.submit a) ∧
    step cfg t (.submit a) = some t' := by
  have htick : Steady cfg t (.submit .tick) := steady_submit (by simp) (by simp) (by simp)
  simp only [h.step_eq]
  unfold submitStep
  rcases h.place with hseek | ⟨r, -, hbegins⟩
  · rcases hseek.pc with hp | hp | hp | ⟨hp, -⟩ | ⟨hp, -⟩ <;> rw [hp] <;>
      exact ⟨.tick, _, htick, rfl⟩
  · obtain ⟨pc, hp⟩ : ∃ pc, t.submit = pc := ⟨_, rfl⟩
    rw [hp] at hbegins ⊢
    cases hbegins with
    | starting | check | load | done | recording | deleting => exact ⟨.tick, _, htick, rfl⟩
    | cas =>
      refine ⟨.tick, ?_⟩
      simp only [ensureStep]
      split <;> exact ⟨_, htick, rfl⟩
    | opening => exact ⟨_, _, steady_opened 0, rfl⟩
    | batch => exact ⟨.rand 0 0, _, steady_submit (by simp) (by simp) (by simp), rfl⟩
    | closing stage =>
      cases stage with
      | enter | notify | next => exact ⟨.tick, _, htick, rfl⟩
      | close => exact ⟨.closed (.ok ()), _, steady_submit (by simp) (by simp) (by simp), rfl⟩

end Phase

/-- The turns of the submit thread, with steps of the other threads and of the kernel in between. -/
def SubmitTurn (cfg : Config) (ok : State → Label → Prop) : State → State → Prop :=
  (system cfg).Turn (fun l => ∃ a, l = .submit a) ok

theorem inevitably_advanced (hring : MAX_JOBS_PER_RUNNER ≤ cfg.ringSize)
    (hb : 0 < cfg.heap.blockSize) (hblocks : 0 < cfg.heap.blocks) (h : Phase cfg s t) :
    Transition.Inevitably (SubmitTurn cfg (Steady cfg)) (Advanced s) t := by
  refine Transition.System.inevitably_of_turns (Phase cfg s) (fun t => toGo t.submit) ?_ ?_ ?_ h
  · intro t l t' ht hl hok hs
    exact ht.other (fun a he => hl ⟨a, he⟩) hok hs
  · intro t ht
    obtain ⟨a, t', hok, hs⟩ := ht.enabled
    exact ⟨_, t', ⟨a, rfl⟩, hok, hs⟩
  · rintro t l t' ht ⟨a, rfl⟩ hok hs
    rcases ht.place with hseek | ⟨r, hr, hbegins⟩
    · exact .inr (ht.seek hring hb hblocks hseek hok hs)
    · exact ht.begin hr hbegins hok hs

/-- In the runs without failures in which each accepted `io_uring_submit` takes everything that is
queued and buffers fit every job: at the top of the loop, after `join` was called and with runners
left, the kernel has a request to complete or a completion is waiting, or the SUBMIT phase is bound
to take a runner and to queue its requests, or to complete it if its file is empty, whatever the
other threads do meanwhile. -/
theorem submit_loop_advances (hring : 2 ≤ cfg.ringSize) (hb : 0 < cfg.heap.blockSize)
    (hblocks : 0 < cfg.heap.blocks) (h : (system cfg).ReachIn (Steady cfg) s)
    (hhalted : s.halted = none) (hp : s.submit = .top) (hstate : s.state = .additionComplete)
    (hkeep : 0 < s.keepAliveCount) :
    (∃ c ∈ s.chains, c.reqs ≠ []) ∨ s.cq ≠ [] ∨
      Transition.Inevitably (SubmitTurn cfg (Steady cfg)) (Advanced s) s := by
  by_cases hz : s.submissionsRunning = 0
  · exact .inr (.inr (inevitably_advanced hring hb hblocks
      ⟨h, hhalted, hstate, hkeep, hz, .inl ⟨rfl, rfl, .inl hp⟩⟩))
  · have hsq : s.sq = [] :=
      (reachIn_submitted (h.mono fun _ _ hl => hl.accepts)).queued (by rw [hp]; rfl)
    have hcount := (reachable_ring h).submissions
    have hevent : s.submit.inEvent = false := by rw [hp]; rfl
    rw [hevent] at hcount
    by_cases hcq : s.cq = []
    · left
      by_contra hnone
      have hreqs : s.chains.flatMap Chain.reqs = [] := by
        rw [flatMap_eq_nil_iff]
        intro c hc
        by_contra hne
        exact hnone ⟨c, hc, hne⟩
      rw [tags, pendingReqs, hsq, hreqs, hcq] at hcount
      exact hz hcount
    · exact .inr (.inl hcq)

/-! ## Runs -/

/-- A check that implies `Unfailing`. -/
def unfailingCheck (cfg : Config) (s : State) (l : Label) : Bool :=
  (match opening s l with
    | some (i, side, answers) => (s.files.get? i).all fun f =>
      (myOpen cfg.strerror (f.fd side).path (f.fd side).oflag answers).toOption.isSome
    | none => true) &&
  match l with
  | .submit (.peeked (some i)) => s.cq[i]?.all fun c => (s.runners.get? c.runner).all fun x =>
    (s.files.get? x.file).all fun f => !savesError x (x.onCompletionEvent cfg.strerror cfg.modes
      f.sourceFd.path f.destFd.path c.event c.res)
  | _ => true

theorem unfailing_of_check (cfg : Config) (s : State) (l : Label) (h : unfailingCheck cfg s l = true) :
    Unfailing cfg s l := by
  obtain ⟨hopen, hread⟩ := Bool.and_eq_true_iff.mp h
  refine ⟨fun i side answers f e ho hf he => ?_, ?_⟩
  · simp [ho, hf, he, Except.toOption] at hopen
  · rintro i c x f rfl hc hx hf
    simpa [hc, hx, hf] using hread

theorem buffersFit_smallJob (size : ℕ) : BuffersFit smallConfig (smallJob size) := by
  intro p hp file i hi
  by_cases hz : size = 0
  · subst hz
    rw [hp.of_empty rfl]
    rfl
  · have hroomy : Roomy smallHeap (2 ^ 2) (chunkSize smallHeap (2 ^ 2)) :=
      roomy_chunkSize (by decide) (by decide) (.inl (by decide)) (by decide)
    have hsize : p.size ≤ chunkSize smallHeap (2 ^ 2) := by
      rw [hp.size_eq hz]
      exact Nat.min_le_left _ _
    rw [hp.alignment_eq hz]
    exact giveBufferFault_eq_none (k := 2) (by decide) hroomy hsize file hi

/-- A check that implies `Steady`, for a queue with one kind of job. -/
def steadyCheck (size : ℕ) (s : State) (l : Label) : Bool :=
  unfailingCheck smallConfig s l && acceptsAllCheck s l && match l with
  | .addCopyJob job => decide (job = smallJob size)
  | _ => true

theorem steady_of_check (size : ℕ) (s : State) (l : Label) (h : steadyCheck size s l = true) :
    Steady smallConfig s l := by
  unfold steadyCheck at h
  simp only [Bool.and_eq_true] at h
  obtain ⟨⟨hu, ha⟩, hj⟩ := h
  refine ⟨unfailing_of_check smallConfig s l hu, acceptsAll_of_check s l ha, ?_⟩
  rintro job rfl
  rw [of_decide_eq_true hj]
  exact buffersFit_smallJob size

theorem submit_loop_advances_first : ∃ s, (system smallConfig).ReachIn (Steady smallConfig) s ∧
    s.submit = .top ∧ s.copiesPendingStart = [0] ∧ s.submissionsRunning = 0 ∧
    Transition.Inevitably (SubmitTurn smallConfig (Steady smallConfig)) (Advanced s) s := by
  obtain ⟨s, hs, hp⟩ := Transition.System.ReachIn.exists_of_runIn (steady_of_check 8)
    (initial_init smallConfig (smallStorage 8))
    (addJobSteps (smallJob 8) (opensAs 1) (opensAs 2) ++ [.start, .join .return])
    (fun s => decide (s.halted = none ∧ s.submit = .top ∧ s.state = .additionComplete ∧
      0 < s.keepAliveCount ∧ s.copiesPendingStart = [0] ∧ s.submissionsRunning = 0 ∧
      s.chains = [] ∧ s.cq = [])) (by decide +kernel)
  obtain ⟨hhalted, hpc, hstate, hkeep, hstart, hidle, hchains, hcq⟩ := of_decide_eq_true hp
  refine ⟨s, hs, hpc, hstart, hidle, ?_⟩
  rcases submit_loop_advances (by decide) (by decide) (by decide) hs hhalted hpc hstate hkeep with
    ⟨c, hc, -⟩ | hne | hadv
  · rw [hchains] at hc
    cases hc
  · exact absurd hcq hne
  · exact hadv

/-- The kernel has taken the read of the only chunk and completed it; its write is still queued. -/
def strandedSteps : List Label := List.flatten [partialSubmitSteps,
  [.kernel 0 8, .submit (.peeked (some 0))], ticks 2, [.submit (.peeked none)], ticks 1]

theorem submit_loop_stalls : ∃ s, (system smallConfig).ReachIn (Unfailing smallConfig) s ∧
    s.halted = none ∧ s.submit = .top ∧ s.state = .additionComplete ∧ s.keepAliveCount = 1 ∧
    s.sq.map Sqe.tag = [(0, .write)] ∧ (∀ c ∈ s.chains, c.reqs = []) ∧ s.cq = [] ∧
    ¬ Transition.Inevitably (SubmitTurn smallConfig (Unfailing smallConfig)) (Advanced s) s := by
  obtain ⟨s, hs, hp⟩ := Transition.System.ReachIn.exists_of_runIn (unfailing_of_check smallConfig)
    (initial_init smallConfig (smallStorage 8)) strandedSteps
    (fun s => decide (s.halted = none ∧ s.submit = .top ∧ s.state = .additionComplete ∧
      s.keepAliveCount = 1 ∧ s.sq.map Sqe.tag = [(0, .write)] ∧ (∀ c ∈ s.chains, c.reqs = []) ∧
      s.cq = [] ∧ s.copiesPendingStart ++ s.copiesPendingContinue = [])) (by decide +kernel)
  obtain ⟨hhalted, hpc, hstate, hkeep, hsq, hchains, hcq, hlists⟩ := of_decide_eq_true hp
  refine ⟨s, hs, hhalted, hpc, hstate, hkeep, hsq, hchains, hcq, ?_⟩
  refine Transition.not_inevitably (fun _ => True) (fun t _ => ⟨?_, ?_⟩) trivial
  · rintro ⟨r, hr, -⟩
    rw [hlists] at hr
    cases hr
  · by_cases hex : ∃ t', SubmitTurn smallConfig (Unfailing smallConfig) t t'
    · exact .inr (hex.imp fun _ h => ⟨h, trivial⟩)
    · exact .inl fun t' ht => hex ⟨t', ht⟩

end CopyQueue

end Wcp
