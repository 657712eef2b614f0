import WcpVerified.Proofs.BoundsProofs
import WcpVerified.Proofs.FlightProofs
import WcpVerified.Proofs.HeapProofs

/-!
# Proofs: the buffers of different runners are apart

The buffer of a runner is a part of its block, and the blocks of two runners are different ones. A
read that the kernel executes stays in the block of its runner, so it leaves the buffers of all the
other runners alone.
-/

namespace Wcp

open MachineWord Alignment List

namespace Heap

/-- Different blocks do not overlap. -/
theorem blockAddr_apart (h : Heap) {i j : ℕ} (hij : i ≠ j) :
    h.blockAddr i + h.blockSize ≤ h.blockAddr j ∨ h.blockAddr j + h.blockSize ≤ h.blockAddr i := by
  have hle : ∀ {i j : ℕ}, i < j → h.blockAddr i + h.blockSize ≤ h.blockAddr j := by
    intro i j hlt
    have hmul := Nat.mul_le_mul_left h.blockSize (Nat.succ_le_of_lt hlt)
    rw [Nat.mul_succ] at hmul
    simp only [blockAddr]
    omega
  rcases Nat.lt_or_gt_of_ne hij with hlt | hlt
  · exact .inl (hle hlt)
  · exact .inr (hle hlt)

end Heap

namespace CopyQueue

open CopyRunner

variable {cfg : Config} {s s' : State} {l : Label} {i r : ℕ} {x : CopyRunner}

/-- The steps of the runs in which every job is one that the copy is specified for, no source is found
to be longer than its job says, and `io_uring_submit` accepts whatever is queued. -/
structure Regular (cfg : Config) (s : State) (l : Label) : Prop where
  accepts : AcceptsAll s l
  jobs : ∀ job, l = .addCopyJob job → Accepted cfg.heap job
  reads : ∀ c res chain e rest x f, l = .kernel c res → s.chains[c]? = some chain →
    chain.broken = false → chain.reqs = e :: rest → e.op = .read →
    s.runners.get? e.runner = some x → s.files.get? x.file = some f →
    res ≤ (f.job.stxSize - e.off : ℕ)

/-! ## The jobs -/

/-- The copy is specified for every job. -/
def AcceptedJobs (cfg : Config) (s : State) : Prop :=
  ∀ i f, s.files.get? i = some f → Accepted cfg.heap f.job

/-- The objects of a job stay those of the job. -/
theorem job_move (hm : Move cfg s l s') {f f' : JobFiles} (hf : s.files.get? i = some f)
    (hf' : s'.files.get? i = some f') : f'.job = f.job := by
  have hjob : IsFile i f.job s' := isFile_move hm ?_ ?_
  · exact hjob f' hf'
  · rintro job' - hnext
    exact absurd (Store.lt_next hf) (by omega)
  · intro g hg
    rw [hf] at hg
    cases hg
    rfl

/-- Objects that were not there belong to the job that is added. -/
theorem job_new (hm : Move cfg s l s') {f' : JobFiles} (hf : s.files.get? i = none)
    (hf' : s'.files.get? i = some f') : l = .addCopyJob f'.job ∧ i = s.files.next := by
  have hsame : ∀ {files : Store JobFiles}, (∀ j g', files.get? j = some g' →
      ∃ g, s.files.get? j = some g ∧ g'.job = g.job) → files.get? i ≠ some f' := by
    intro files hfiles hget
    obtain ⟨g, hg, -⟩ := hfiles i f' hget
    rw [hf] at hg
    cases hg
  cases hm with
  | addCopyJob =>
    rcases Store.of_get?_push hf' with ⟨hi, rfl⟩ | ⟨-, hf'⟩
    · exact ⟨rfl, hi⟩
    · rw [hf] at hf'
      cases hf'
  | ctorOpened | ctorFailed | opened | openFailed | close | notify =>
    exact absurd hf' (hsame (job_modify (modifyFd_job _ _)))
  | beginParts | deleteShared => exact absurd hf' (hsame (job_modify fun _ => rfl))
  | deleteLast => exact absurd hf' (hsame job_erase)
  | _ => exact absurd hf' (hsame job_refl)

theorem jobs_move {P : Job → Prop} (hm : Move cfg s l s')
    (hok : ∀ job, l = .addCopyJob job → P job) (h : ∀ i f, s.files.get? i = some f → P f.job) :
    ∀ i f, s'.files.get? i = some f → P f.job := by
  intro i f' hf'
  cases hf : s.files.get? i with
  | some f =>
    rw [job_move hm hf hf']
    exact h i f hf
  | none => exact hok f'.job (job_new hm hf hf').1

/-- A property of every job that is added is one of every job at work. -/
theorem reachIn_jobs {ok : State → Label → Prop} {P : Job → Prop}
    (hok : ∀ s l job, ok s l → l = .addCopyJob job → P job) (h : (system cfg).ReachIn ok s) :
    ∀ i f, s.files.get? i = some f → P f.job := by
  refine h.invariant ?_ fun s l s' _ hs hl hstep =>
    jobs_move (step_move hstep).2 (fun job => hok s l job hl) hs
  rintro s ⟨storage, rfl⟩ i f hf
  cases hf

theorem reachIn_acceptedJobs {ok : State → Label → Prop} (hok : ∀ s l, ok s l → Regular cfg s l)
    (h : (system cfg).ReachIn ok s) : AcceptedJobs cfg s :=
  reachIn_jobs (fun s l job hl => (hok s l hl).jobs job) h

/-! ## The requests of all the runners -/

/-- The runners and their requests. -/
def Flights (cfg : Config) (s : State) : Prop :=
  ∀ r x f, s.runners.get? r = some x → s.files.get? x.file = some f →
    Aloft cfg.modes f.job.stxSize s.sq s.chains s.cq r x

theorem flights_move (hm : Move cfg s l s') (hok : Regular cfg s l) (hring : State.Ring s)
    (hown : State.Owned s) (hsub : Submitted s) (hsh : State.SharedFiles cfg s)
    (hch : Chunked cfg s) (hjobs' : AcceptedJobs cfg s') (h : Flights cfg s) : Flights cfg s' := by
  intro r x f' hx hf'
  have hfile : IsFile x.file f'.job s := by
    intro f hf
    exact (job_move hm hf hf').symm
  have hcopies : Copies x.file f'.job f'.job.stxSize s l := by
    refine ⟨hok.accepts, ?_, ?_⟩
    · rintro job rfl hnext
      have hnone := s.files.fresh x.file hnext.le
      have hl := (job_new hm hnone hf').1
      injection hl
    · intro c res chain e rest y hl hc hb hreqs hop hy hfy
      obtain ⟨f, hf⟩ := hsh.live e.runner y hy
      have hbound := hok.reads c res chain e rest y f hl hc hb hreqs hop hy hf
      rwa [hfile f (hfy ▸ hf)] at hbound
  have hflight : Flight cfg x.file f'.job.stxSize s := by
    intro r' y hy hfy
    obtain ⟨f, hf⟩ := hsh.live r' y hy
    have hal := h r' y f hy hf
    rwa [hfile f (hfy ▸ hf)] at hal
  exact flight_move hm hcopies (hjobs' x.file f' hf') le_rfl hring hown hsub hsh hch hfile hflight r x
    hx rfl

theorem reachIn_flights {ok : State → Label → Prop} (hok : ∀ s l, ok s l → Regular cfg s l)
    (h : (system cfg).ReachIn ok s) : Flights cfg s := by
  refine h.invariant ?_ fun s l s' hr hs hl hstep => flights_move (step_move hstep).2 (hok s l hl)
    (reachable_ring hr) (reachable_owned hr).1
    (reachIn_submitted (hr.mono fun s l hl => (hok s l hl).accepts)) (reachable_sharedFiles hr)
    (reachable_chunked hr) (reachIn_acceptedJobs hok (hr.step hl hstep)) hs
  rintro s ⟨storage, rfl⟩ r x f hx
  cases hx

/-- The chunk of a runner that has data to copy. -/
theorem shaped_of_jobs (hch : Chunked cfg s) (hjobs : AcceptedJobs cfg s) {f : JobFiles}
    (hx : s.runners.get? r = some x) (hf : s.files.get? x.file = some f) (hpos : 0 < x.size) :
    x.Shaped :=
  ((hch r x f hx hf).fits (hjobs x.file f hf) le_rfl hpos).toShaped

/-! ## The buffers -/

/-- The buffer of every runner is a part of its block. -/
def Seated (cfg : Config) (s : State) : Prop :=
  ∀ r x b, s.runners.get? r = some x → x.buffer = some b → Placed cfg.heap b x

/-- The runners keep their chunks and their buffers. -/
theorem Seated.of_same (h : Seated cfg s) (hr : ∀ r x', s'.runners.get? r = some x' →
    ∃ x, s.runners.get? r = some x ∧ SameChunk x x') : Seated cfg s' := by
  intro r x' b hx' hb
  obtain ⟨x, hx, hs⟩ := hr r x' hx'
  exact (h r x b hx (hs.buffer.symm.trans hb)).of_same hs

/-- A block that is held is a block of the heap. -/
theorem Blocks.exists_index (h : Blocks cfg s) {o : Option ℕ} {b : ℕ} (hb : heldBy s o = some b) :
    ∃ j < cfg.heap.blocks, b = cfg.heap.blockAddr j := by
  refine ⟨cfg.heap.blockIndex b, ?_, h.addr o b hb⟩
  have hused := h.conserved.held o (cfg.heap.blockIndex b) (by rw [blockOf, hb]; rfl)
  rw [← h.length]
  exact (List.getElem?_eq_some_iff.mp hused).1

theorem seated_move (hm : Move cfg s l s') (hch : Chunked cfg s)
    (hjobs : AcceptedJobs cfg s) (hblocks : Blocks cfg s) (h : Seated cfg s) : Seated cfg s' := by
  have hmodify : ∀ {j : ℕ} {g : CopyRunner → CopyRunner}, (∀ x, SameChunk x (g x)) →
      ∀ r x', (s.runners.modify j g).get? r = some x' →
      ∃ x, s.runners.get? r = some x ∧ SameChunk x x' := by
    intro j g hg r x' hx'
    obtain ⟨x, hx, ⟨-, rfl⟩ | ⟨-, rfl⟩⟩ := Store.exists_of_get?_modify hx'
    · exact ⟨x, hx, hg x⟩
    · exact ⟨x', hx, ⟨.refl x', rfl, rfl⟩⟩
  cases hm with
  | partPush =>
    intro r x b hx hb
    rcases Store.of_get?_push hx with ⟨-, rfl⟩ | ⟨-, hx⟩
    · cases hb
    · exact h r x b hx hb
  | @takeGive n r b rest x f hp hs hr hf ho hx hb =>
    intro j y c hy hc
    obtain ⟨x', hx', ⟨rfl, rfl⟩ | ⟨-, rfl⟩⟩ := Store.exists_of_get?_modify hy
    · rw [hr] at hx'
      cases hx'
      cases hc
      obtain ⟨k, hk, rfl⟩ := hblocks.exists_index (o := none) hb
      have hpart := hch j x f hr hf
      have hpos : 0 < x.size := of_decide_eq_true (Bool.and_eq_true_iff.mp hx).2
      have hs : f.job.stxSize ≠ 0 := fun hz => by
        have := hpart.size_eq_zero_iff.mpr hz
        exact absurd this (by simpa using hpos.ne')
      obtain ⟨hdvd, hge, hle⟩ := placed_of_part (hjobs x.file f hf) hs hpart x.file hk
      exact ⟨hdvd, hge, hle⟩
    · exact h j y c hx' hc
  | batch => exact h.of_same (hmodify fun _ => ⟨⟨rfl, rfl, rfl, rfl⟩, rfl, rfl⟩)
  | completion => exact h.of_same (hmodify fun _ => onCompletionEvent_same)
  | deleteShared | deleteLast => exact fun r x b hx => h r x b (Store.of_get?_erase hx).2
  | _ => exact h

theorem reachIn_seated {ok : State → Label → Prop} (hb : 0 < cfg.heap.blockSize)
    (hok : ∀ s l, ok s l → Regular cfg s l) (h : (system cfg).ReachIn ok s) : Seated cfg s := by
  refine h.invariant ?_ fun s l s' hr hs _ hstep => seated_move (step_move hstep).2
    (reachable_chunked hr) (reachIn_acceptedJobs hok hr) (reachable_blocks hb hr) hs
  rintro s ⟨storage, rfl⟩ r x b hx
  cases hx

/-- A read is into the block of its runner. -/
theorem read_inBlock {modes : DebugModes} {N b : ℕ} {e : Sqe}
    (hal : Aloft modes N s.sq s.chains s.cq r x) (hshape : x.Shaped) (hp : Placed cfg.heap b x)
    (he : e ∈ pendingReqs s.sq s.chains) (ht : e.tag = (r, .read)) :
    b ≤ e.addr ∧ e.addr + e.len ≤ b + cfg.heap.blockSize := by
  obtain ⟨-, -, haddr, -, k, hk, hle, hlen, -⟩ := hal.readReq e he ht
  have hlow := hal.lower
  have hdvd : x.alignment ∣ x.readOffset := hal.aligned.resolve_right (by omega)
  have hround : x.readOffset - x.offset + alignUp x.alignment k ≤ alignUp x.alignment x.size := by
    rw [← alignUp_add (Nat.dvd_sub hdvd hshape.dvd) hshape.align_pos]
    refine alignUp_mono hshape.align_pos ?_
    simp only [chunkEnd] at hle
    omega
  have hge := hp.ge
  have hroom := hp.le
  omega

/-- A read is not into the buffer of another runner. -/
theorem read_apart {e : Sqe} {b c : ℕ} {y : CopyRunner} (hblocks : Blocks cfg s)
    (hx : s.runners.get? r = some x) (hxb : x.buffer = some b) (hpx : Placed cfg.heap b x)
    (hy : s.runners.get? e.runner = some y) (hyb : y.buffer = some c) (hne : r ≠ e.runner)
    (hin : c ≤ e.addr ∧ e.addr + e.len ≤ c + cfg.heap.blockSize) :
    e.addr + e.len ≤ x.bufferAligned ∨
      x.bufferAligned + alignUp x.alignment x.size ≤ e.addr := by
  have hheldx : heldBy s (some r) = some b := by simp only [heldBy, hx, Option.bind_some, hxb]
  have hheldy : heldBy s (some e.runner) = some c := by
    simp only [heldBy, hy, Option.bind_some, hyb]
  have hidx : cfg.heap.blockIndex b ≠ cfg.heap.blockIndex c := by
    intro heq
    have hbx : blockOf cfg s (some r) = some (cfg.heap.blockIndex c) := by
      rw [blockOf, hheldx, Option.map_some, heq]
    have hby : blockOf cfg s (some e.runner) = some (cfg.heap.blockIndex c) := by
      rw [blockOf, hheldy, Option.map_some]
    exact hne (Option.some.inj (hblocks.conserved.unique _ _ _ hbx hby))
  have hapart := cfg.heap.blockAddr_apart hidx
  rw [← hblocks.addr _ b hheldx, ← hblocks.addr _ c hheldy] at hapart
  have hge := hpx.ge
  have hle := hpx.le
  omega

end CopyQueue

end Wcp
