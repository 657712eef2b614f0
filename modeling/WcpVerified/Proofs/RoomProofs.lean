import WcpVerified.Proofs.RingProofs

/-!
# Proofs: there is always room in the ring

The rate limit is tested once for each runner, and the runner then takes as many slots as its
offsets ask for. Between the test and the slots nothing else is queued, and the test leaves room for
the most a runner can take.
-/

namespace Wcp

open MachineWord

/-- Whether the submit thread is past the rate limit and has not queued its requests yet. -/
def SubmitPc.hasRoom : SubmitPc → Bool
  | .fetching _ | .picking _ | .taking _ | .starting _ _ | .ensure _ _ _ _ | .batch _ _ => true
  | _ => false

namespace CopyQueue

variable {cfg : Config} {s s' : State} {l : Label}

/-- The ring holds what was submitted, and the requests of one more runner past the rate limit. -/
structure Room (cfg : Config) (s : State) : Prop where
  le : s.submissionsRunning ≤ cfg.ringSize
  room : s.submit.hasRoom = true → s.submissionsRunning + MAX_JOBS_PER_RUNNER ≤ cfg.ringSize
  notSpinning : s.submit ≠ .spinning

theorem Room.of_submit (h : Room cfg s) (hn : s'.submissionsRunning ≤ s.submissionsRunning)
    (hr : s'.submit.hasRoom = true → s.submit.hasRoom = true) (hs : s'.submit ≠ .spinning) :
    Room cfg s' where
  le := hn.trans h.le
  room hp := by have := h.room (hr hp); omega
  notSpinning := hs

/-- The subtraction of the rate limit is exact. -/
theorem Room.sub_eq (h : Room cfg s) :
    subU64 cfg.ringSize s.submissionsRunning = cfg.ringSize - s.submissionsRunning :=
  subU64_of_le h.le (cfg.ringSize_lt.trans (by decide))

theorem Room.of_mustWait (h : Room cfg s) (hw : mustWait cfg s = false) :
    s.submissionsRunning + MAX_JOBS_PER_RUNNER ≤ cfg.ringSize := by
  unfold mustWait at hw
  dsimp only at hw
  rw [h.sub_eq] at hw
  simp only [Bool.or_eq_false_iff, decide_eq_false_iff_not] at hw
  have hle := h.le
  have hlim := hw.1.2
  rw [MAX_JOBS_PER_RUNNER] at *
  omega

/-- What is queued and not yet consumed has been counted. -/
theorem State.Ring.length_sq_le (h : State.Ring s) : s.sq.length ≤ s.submissionsRunning := by
  rw [h.submissions]
  simp only [tags, pendingReqs, List.map_append, List.length_append, List.length_map]
  omega

theorem room_initial (storage : Storage) : Room cfg (initial cfg storage) where
  le := Nat.zero_le _
  room := nofun
  notSpinning := nofun

/-- What follows a `handleFileClose`, an `onError`, a deletion or a completion queues nothing before
the rate limit is tested again. -/
theorem hasRoom_afterClose (caller : CloseCaller) (r : ℕ) (result : Option Error) :
    (afterClose caller r result).hasRoom ≠ true ∧ afterClose caller r result ≠ .spinning := by
  cases caller <;> cases result <;> exact ⟨nofun, nofun⟩

theorem room_move (hm : Move cfg s l s') (hring : State.Ring s) (h : Room cfg s) : Room cfg s' := by
  cases hm with
  | goOn hp hw => exact ⟨h.le, fun _ => h.of_mustWait hw, nofun⟩
  | ensured hp =>
    refine h.of_submit le_rfl (fun _ => by rw [hp]; rfl) ?_
    dsimp only [afterEnsure]
    split
    · nofun
    · split <;> nofun
  | ensureFailed hp =>
    refine h.of_submit le_rfl (fun _ => by rw [hp]; rfl) ?_
    dsimp only [afterEnsureFailed]
    split <;> nofun
  | @spin n r a b x f hp hr hf hlt =>
    have hroom := h.room (by rw [hp]; rfl)
    have hlen : (x.requests cfg.modes a b f.sourceFd.getFd f.destFd.getFd r).length ≤ _ :=
      CopyRunner.requests_length_le
    have := hring.length_sq_le
    omega
  | batch hp hr hf hj he =>
    have hroom := h.room (by rw [hp]; rfl)
    have hlen : _ ≤ MAX_JOBS_PER_RUNNER := he ▸ CopyRunner.requests_length_le
    exact ⟨by dsimp only; omega, nofun, nofun⟩
  | @closeNone caller r result =>
    have := hasRoom_afterClose caller r result
    exact h.of_submit le_rfl (fun hc => absurd hc this.1) this.2
  | @closeNext caller r side result =>
    cases side with
    | source => exact h.of_submit le_rfl nofun nofun
    | dest =>
      have := hasRoom_afterClose caller r result
      exact h.of_submit le_rfl (fun hc => absurd hc this.1) this.2
  | @record e caller =>
    cases caller <;> exact h.of_submit le_rfl nofun nofun
  | @deleteShared r caller | @deleteLast r caller =>
    cases caller <;> exact h.of_submit le_rfl nofun nofun
  | completion =>
    refine h.of_submit le_rfl ?_ ?_ <;> dsimp only <;> split <;> nofun
  | @event r x =>
    cases x.runnerResult <;> exact h.of_submit le_rfl nofun nofun
  | seen hp => exact h.of_submit (Nat.sub_le ..) nofun nofun
  | _ =>
    first
    | exact ⟨h.le, h.room, h.notSpinning⟩
    | (have hp := ‹s.submit = _›
       exact h.of_submit le_rfl (fun _ => by rw [hp]; rfl) fun hc => by cases hc)
    | exact h.of_submit le_rfl (fun hc => by cases hc) fun hc => by cases hc

theorem reachable_room {ok : State → Label → Prop} (h : (system cfg).ReachIn ok s) :
    Room cfg s := by
  refine h.invariant ?_ fun s l s' hr hs _ hstep =>
    room_move (step_move hstep).2 (reachable_ring hr) hs
  rintro s ⟨storage, rfl⟩
  exact room_initial storage

/-- The ring never overflows, and every `io_uring_get_sqe` finds a free slot: at the call for request
`k` of a round, fewer than `ringSize` entries are queued and not yet consumed. -/
theorem getSqe_finds_slot (h : (system cfg).Reachable s) :
    s.submissionsRunning ≤ cfg.ringSize ∧
    subU64 cfg.ringSize s.submissionsRunning = cfg.ringSize - s.submissionsRunning ∧
    s.submit ≠ .spinning ∧
    ∀ n r x f a b, s.submit = .batch n r → s.runners.get? r = some x →
      s.files.get? x.file = some f →
      ∀ k < (x.requests cfg.modes a b f.sourceFd.getFd f.destFd.getFd r).length,
        s.submissionsRunning + k < cfg.ringSize ∧ s.sq.length + k < cfg.ringSize := by
  have hroom := reachable_room h
  refine ⟨hroom.le, hroom.sub_eq, hroom.notSpinning, fun n r x f a b hp _ _ k hk => ?_⟩
  have hfree := hroom.room (by rw [hp]; rfl)
  have hlen : (x.requests cfg.modes a b f.sourceFd.getFd f.destFd.getFd r).length ≤ _ :=
    CopyRunner.requests_length_le
  have hsq := (reachable_ring h).length_sq_le
  omega

/-! ## A small queue -/

/-- A heap of two blocks of eight bytes. -/
def smallHeap : Heap where
  blocks := 2
  blockSize := 8
  alignment := 4
  data := 64
  alignment_pow := ⟨2, rfl⟩
  data_aligned := by decide
  arena_le := by decide

/-- A queue with a small ring and a small heap. -/
def smallConfig : Config where
  ringSize := 4
  fileDescriptorCap := 8
  heap := smallHeap
  ringSize_lt := by decide
  cap_ge := by decide
  cap_lt := by decide

/-- A job to copy a file of `size` bytes. -/
def smallJob (size : ℕ) : Job := { src := ['a'], dest := ['b'], stxSize := size, stxBlksize := 4 }

/-- A disk with `size` bytes in file 1. -/
def smallStorage (size : ℕ) : Storage where
  mem _ := 0
  disk ino := if ino = 1 then List.replicate size 7 else []

/-- Every open answers with file `ino`. -/
def opensAs (ino : Ino) : Answer := .opened fun _ => .ok ino

/-- Every open is refused. -/
def openRefused : Answer := .opened fun _ => .error 13

/-- The main thread adds a job of one part, with these answers to its two eager opens. -/
def addJobSteps (job : Job) (source dest : Answer) : List Label :=
  [.addCopyJob job, .main .tick, .main .tick, .main source, .main .tick, .main .tick, .main .tick,
    .main dest, .main .tick, .main .tick, .main .tick, .main .tick]

/-- Steps of the submit thread that ask nothing. -/
def ticks (n : ℕ) : List Label := List.replicate n (.submit .tick)

/-- A job of one chunk is added, and the submit thread goes on until it queues requests. -/
def oneChunkSteps : List Label :=
  addJobSteps (smallJob 8) (opensAs 1) (opensAs 2) ++ [.start, .join .return] ++ ticks 10

theorem initial_init (cfg : Config) (storage : Storage) :
    (system cfg).init (initial cfg storage) := ⟨storage, rfl⟩

theorem exists_of_run (cfg : Config) (storage : Storage) (ls : List Label) (p : State → Bool)
    (h : ((system cfg).run (initial cfg storage) ls).any p = true) :
    ∃ s, (system cfg).Reachable s ∧ p s = true :=
  Transition.System.Reachable.exists_of_run (initial_init cfg storage) ls p h

theorem getSqe_finds_slot_oneChunk : ∃ s, (system smallConfig).Reachable s ∧
    s.submit = .batch 0 0 ∧ s.submissionsRunning ≤ 4 ∧
    ∃ x f, s.runners.get? 0 = some x ∧ s.files.get? x.file = some f ∧
      (x.requests smallConfig.modes 0 0 f.sourceFd.getFd f.destFd.getFd 0).length = 2 ∧
      ∀ k < 2, s.sq.length + k < 4 := by
  obtain ⟨s, hs, hp⟩ := exists_of_run smallConfig (smallStorage 8) oneChunkSteps
    (fun s => decide (s.submit = .batch 0 0) && (s.runners.get? 0).any fun x =>
      (s.files.get? x.file).any fun f =>
        (x.requests smallConfig.modes 0 0 f.sourceFd.getFd f.destFd.getFd 0).length == 2)
    (by decide +kernel)
  simp only [Bool.and_eq_true, decide_eq_true_eq, Option.any_eq_true, beq_iff_eq] at hp
  obtain ⟨hpc, x, hx, f, hf, hlen⟩ := hp
  obtain ⟨hle, -, -, hslot⟩ := getSqe_finds_slot hs
  exact ⟨s, hs, hpc, hle, x, f, hx, hf, hlen,
    fun k hk => (hslot 0 0 x f 0 0 hpc hx hf k (by omega)).2⟩

end CopyQueue

end Wcp
