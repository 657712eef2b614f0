import WcpVerified.Proofs.FrameProofs
import WcpVerified.Proofs.PlacementProofs
import WcpVerified.Proofs.ProgressProofs

/-!
# Proofs: what the buffers and the destination hold

The buffer of a runner holds the bytes of the source that the runner has read, and the destination
those that it has written (`Sound`), as far as the kernel is ahead of the runner as well. A byte is
written only when the whole chunk has been read, so what is written are bytes of the source, each at
its place; it does not matter in which order this happens, and how often.
-/

namespace Wcp

open List MachineWord Alignment ByteImage

/-- A file is given a new content. -/
def Storage.put (st : Storage) (ino : Ino) (content : List UInt8) : Storage :=
  { st with disk := Function.update st.disk ino content }

namespace CopyRunner

variable {x : CopyRunner} {strerror : Errno → List Char} {modes : DebugModes} {src dst : Path}

theorem advanceRead_le (k : ℕ) : x.advanceRead k ≤ x.readOffset + k := by
  unfold advanceRead
  dsimp only
  split
  · exact alignDown_le _ _
  · exact le_rfl

/-- A runner does not take more for read than the kernel has read. -/
theorem onCompletionEvent_readOffset_le (x : CopyRunner) (strerror : Errno → List Char)
    (modes : DebugModes) (src dst : Path) (res : ℤ) :
    (x.onCompletionEvent strerror modes src dst .read res).readOffset ≤ x.readOffset + res.toNat := by
  unfold onCompletionEvent
  dsimp only
  split
  · exact Nat.le_add_right _ _
  · show (if spoof modes x.readOverride res < 0 then x.readOffset
      else x.advanceRead (spoof modes x.readOverride res).toNat) ≤ _
    split
    · exact Nat.le_add_right _ _
    · rename_i h0
      have hres : 0 ≤ res := by
        by_contra hneg
        rw [spoof_neg modes x.readOverride res (by omega)] at h0
        omega
      have hle := spoof_le modes x.readOverride res hres
      have := x.advanceRead_le (spoof modes x.readOverride res).toNat
      omega

/-- A runner does not take more for written than the kernel has written. -/
theorem onCompletionEvent_writeOffset_le (x : CopyRunner) (strerror : Errno → List Char)
    (modes : DebugModes) (src dst : Path) (res : ℤ) :
    (x.onCompletionEvent strerror modes src dst .write res).writeOffset ≤
      x.writeOffset + res.toNat := by
  unfold onCompletionEvent
  dsimp only
  split
  · exact Nat.le_add_right _ _
  · show (if spoof modes x.writeOverride res < 0 then x.writeOffset
      else x.writeOffset + (spoof modes x.writeOverride res).toNat) ≤ _
    split
    · exact Nat.le_add_right _ _
    · rename_i h0
      have hres : 0 ≤ res := by
        by_contra hneg
        rw [spoof_neg modes x.writeOverride res (by omega)] at h0
        omega
      have hle := spoof_le modes x.writeOverride res hres
      omega

/-- The data of runner `r`, the source being `data` and the destination holding `content`: what was
read is in the buffer, and what was written is in the destination. -/
structure Sound (data : List UInt8) (mem : ℕ → UInt8) (content : List UInt8) (cq : List Cqe) (r : ℕ)
    (x : CopyRunner) : Prop where
  buffer : x.offset < x.readOffset → x.buffer.isSome = true
  read : Holds mem x.bufferAligned data x.offset (x.readOffset - x.offset)
  readRes : ∀ c ∈ cq, c.tag = (r, .read) → 0 < c.res →
    Holds mem x.bufferAligned data x.offset (x.readOffset + c.res.toNat - x.offset)
  written : Matches content data x.offset x.writeOffset
  writeRes : ∀ c ∈ cq, c.tag = (r, .write) → 0 < c.res →
    Matches content data x.offset (x.writeOffset + c.res.toNat)

namespace Sound

variable {data : List UInt8} {mem mem' : ℕ → UInt8} {content content' : List UInt8}
  {cq cq' : List Cqe} {r : ℕ} {y : CopyRunner}

/-- A runner that has done nothing yet. -/
theorem idle (hread : x.readOffset = x.offset) (hwrite : x.writeOffset = x.offset)
    (hno : ∀ c ∈ cq, c.runner ≠ r) : Sound data mem content cq r x where
  buffer hlt := absurd hread hlt.ne'
  read := by
    rw [hread, Nat.sub_self]
    exact fun i hi => absurd hi (Nat.not_lt_zero i)
  readRes c hc ht := absurd (congrArg Prod.fst ht) (hno c hc)
  written := by
    rw [hwrite]
    exact matches_self _ _ _
  writeRes c hc ht := absurd (congrArg Prod.fst ht) (hno c hc)

/-- Only completions that transfer something matter. -/
theorem of_cq (h : Sound data mem content cq r x)
    (hc : ∀ c ∈ cq', c.runner = r → 0 < c.res → c ∈ cq) : Sound data mem content cq' r x where
  buffer := h.buffer
  read := h.read
  readRes c hmem ht hpos := h.readRes c (hc c hmem (congrArg Prod.fst ht) hpos) ht hpos
  written := h.written
  writeRes c hmem ht hpos := h.writeRes c (hc c hmem (congrArg Prod.fst ht) hpos) ht hpos

/-- The kernel changes memory elsewhere, and the destination only for the better. -/
theorem of_storage (h : Sound data mem content cq r x)
    (hmem : ∀ k, Holds mem x.bufferAligned data x.offset k → k = x.readOffset - x.offset ∨
      (∃ c ∈ cq, c.tag = (r, .read) ∧ 0 < c.res ∧ k = x.readOffset + c.res.toNat - x.offset) →
      Holds mem' x.bufferAligned data x.offset k)
    (hdisk : ∀ hi, Matches content data x.offset hi → Matches content' data x.offset hi) :
    Sound data mem' content' cq r x where
  buffer := h.buffer
  read := hmem _ h.read (.inl rfl)
  readRes c hc ht hpos := hmem _ (h.readRes c hc ht hpos) (.inr ⟨c, hc, ht, hpos, rfl⟩)
  written := hdisk _ h.written
  writeRes c hc ht hpos := hdisk _ (h.writeRes c hc ht hpos)

/-- Nothing changes but what does not concern the data. -/
theorem of_same (h : Sound data mem content cq r x) (hs : SameChunk x y)
    (hread : y.readOffset = x.readOffset) (hwrite : y.writeOffset = x.writeOffset) :
    Sound data mem content cq r y where
  buffer := by
    rw [hs.offset, hread, hs.buffer]
    exact h.buffer
  read := by
    rw [hs.bufferAligned, hs.offset, hread]
    exact h.read
  readRes := by
    rw [hs.bufferAligned, hs.offset, hread]
    exact h.readRes
  written := by
    rw [hs.offset, hwrite]
    exact h.written
  writeRes := by
    rw [hs.offset, hwrite]
    exact h.writeRes

/-- The runner sees a completion. -/
theorem completion {i : ℕ} {c : Cqe} (h : Sound data mem content cq c.runner x)
    (hbuf : x.buffer.isSome = true) (hc : cq[i]? = some c)
    (hgone : ∀ d ∈ cq.eraseIdx i, d.tag ≠ c.tag) :
    Sound data mem content (cq.eraseIdx i) c.runner
      (x.onCompletionEvent strerror modes src dst c.event c.res) := by
  have hmem : c ∈ cq := mem_of_getElem? hc
  have hsub : ∀ {d}, d ∈ cq.eraseIdx i → d ∈ cq := fun hd => mem_of_mem_eraseIdx hd
  cases hev : c.event with
  | read =>
    have htag : c.tag = (c.runner, .read) := by rw [Cqe.tag, hev]
    have hsame : SameChunk x (x.onCompletionEvent strerror modes src dst .read c.res) :=
      onCompletionEvent_same
    have hw : (x.onCompletionEvent strerror modes src dst .read c.res).writeOffset = x.writeOffset :=
      onCompletionEvent_read_writeOffset
    have hle := x.onCompletionEvent_readOffset_le strerror modes src dst c.res
    refine ⟨fun _ => hsame.buffer ▸ hbuf, ?_, fun d hd htd => ?_, ?_, fun d hd htd hpos => ?_⟩
    · rw [hsame.bufferAligned, hsame.offset]
      by_cases hpos : 0 < c.res
      · exact (h.readRes c hmem htag hpos).mono (by omega)
      · exact h.read.mono (by omega)
    · exact absurd (htd.trans htag.symm) (hgone d hd)
    · rw [hsame.offset, hw]
      exact h.written
    · rw [hsame.offset, hw]
      exact h.writeRes d (hsub hd) htd hpos
  | write =>
    have htag : c.tag = (c.runner, .write) := by rw [Cqe.tag, hev]
    have hsame : SameChunk x (x.onCompletionEvent strerror modes src dst .write c.res) :=
      onCompletionEvent_same
    have hr : (x.onCompletionEvent strerror modes src dst .write c.res).readOffset = x.readOffset :=
      onCompletionEvent_write_readOffset
    have hle := x.onCompletionEvent_writeOffset_le strerror modes src dst c.res
    refine ⟨fun _ => hsame.buffer ▸ hbuf, ?_, fun d hd htd hpos => ?_, ?_, fun d hd htd => ?_⟩
    · rw [hsame.bufferAligned, hsame.offset, hr]
      exact h.read
    · rw [hsame.bufferAligned, hsame.offset, hr]
      exact h.readRes d (hsub hd) htd hpos
    · rw [hsame.offset]
      by_cases hpos : 0 < c.res
      · exact (h.writeRes c hmem htag hpos).mono hle
      · exact h.written.mono (by omega)
    · exact absurd (htd.trans htag.symm) (hgone d hd)

/-- The chunk is in memory once its last byte has been read. -/
theorem holds_chunk (h : Sound data mem content cq r x) (hlow : x.offset ≤ x.readOffset)
    (hup : x.readOffset ≤ x.chunkEnd) (hall : x.ReadAll cq r) :
    Holds mem x.bufferAligned data x.offset (x.chunkEnd - x.offset) := by
  rcases hall with hr | ⟨-, -, c, hc, ht, hE⟩
  · rw [← hr]
    exact h.read
  · by_cases hpos : 0 < c.res
    · refine (h.readRes c hc ht hpos).mono ?_
      omega
    · exact h.read.mono (by omega)

end Sound

end CopyRunner

namespace CopyQueue

open CopyRunner

variable {cfg : Config} {storage : Storage} {s s' : State} {l : Label} {i r : ℕ} {x : CopyRunner}
  {job : Job} {a b : Ino} {data : List UInt8}

/-! ## A destination is opened before anything is written to it -/

theorem jobs_of_entry (hown : State.Owned s) (hp : s.submit.entry = some r)
    (hx : s.runners.get? r = some x) : x.jobsRunning = 0 := by
  have hholds := hown.hand r (SubmitPc.hand_of_entry hp) x hx
  unfold SubmitPc.Holds at hholds
  split at hholds
  · exact hholds.jobs
  · exact hholds.jobs
  · exact hholds.jobs
  · rename_i caller _ _ _ heq
    rw [heq] at hp
    cases caller with
    | finished | saveError => cases hp
    | addFailed | emptyFile => exact hholds
  · rename_i heq
    rw [heq] at hp
    cases hp
  · exact hholds

/-- The files of a runner with requests have been opened. -/
theorem not_never_of_tag (hfds : Fds cfg s) (hown : State.Owned s) (hring : State.Ring s)
    {f : JobFiles} (hx : s.runners.get? r = some x) (hf : s.files.get? x.file = some f)
    {t : ℕ × EventType} (ht : t ∈ tags s.sq s.chains s.cq) (htr : t.1 = r) : ¬ f.Never := by
  subst htr
  have hpos := hring.jobs_pos ht hx
  refine hfds.started t.1 x f hx hf (fun hmem => ?_) fun hp => ?_
  · have := (hown.fresh t.1 hmem x hx).jobs
    omega
  · have := jobs_of_entry hown hp hx
    omega

/-- Runners that have written something have a destination that was opened. -/
def Wrote (s : State) : Prop :=
  ∀ r x f, s.runners.get? r = some x → s.files.get? x.file = some f → x.offset < x.writeOffset →
    f.destFd.fd ≠ .neverOpened

theorem Wrote.of_same (h : Wrote s)
    (hr : ∀ r x', s'.runners.get? r = some x' → x'.offset < x'.writeOffset →
      ∃ x, s.runners.get? r = some x ∧ x'.file = x.file ∧ x.offset < x.writeOffset)
    (hf : ∀ i f', s'.files.get? i = some f' → ∃ f, s.files.get? i = some f ∧ f.Later f') :
    Wrote s' := by
  intro r x' f' hx' hf' hlt hn
  obtain ⟨x, hx, hfile, hlt⟩ := hr r x' hx' hlt
  obtain ⟨f, hf, hl⟩ := hf x'.file f' hf'
  exact h r x f hx (hfile ▸ hf) hlt (hl .dest hn)

theorem wrote_refl (r : ℕ) (x' : CopyRunner) (h : s.runners.get? r = some x')
    (hlt : x'.offset < x'.writeOffset) :
    ∃ x, s.runners.get? r = some x ∧ x'.file = x.file ∧ x.offset < x.writeOffset :=
  ⟨x', h, rfl, hlt⟩

theorem wrote_modify {j : ℕ} {g : CopyRunner → CopyRunner}
    (hg : ∀ x, (g x).file = x.file ∧ (g x).offset = x.offset ∧ (g x).writeOffset = x.writeOffset)
    (r : ℕ) (x' : CopyRunner) (h : (s.runners.modify j g).get? r = some x')
    (hlt : x'.offset < x'.writeOffset) :
    ∃ x, s.runners.get? r = some x ∧ x'.file = x.file ∧ x.offset < x.writeOffset := by
  obtain ⟨x, hx, ⟨-, rfl⟩ | ⟨-, rfl⟩⟩ := Store.exists_of_get?_modify h
  · obtain ⟨hfile, hoff, hw⟩ := hg x
    exact ⟨x, hx, hfile, by omega⟩
  · exact ⟨x', hx, rfl, hlt⟩

theorem wrote_erase {j : ℕ} (r : ℕ) (x' : CopyRunner) (h : (s.runners.erase j).get? r = some x')
    (hlt : x'.offset < x'.writeOffset) :
    ∃ x, s.runners.get? r = some x ∧ x'.file = x.file ∧ x.offset < x.writeOffset :=
  ⟨x', (Store.of_get?_erase h).2, rfl, hlt⟩

theorem wrote_move (hm : Move cfg s l s') (hfds : Fds cfg s) (hown : State.Owned s)
    (hring : State.Ring s) (hsh : State.SharedFiles cfg s) (h : Wrote s) : Wrote s' := by
  cases hm with
  | addCopyJob =>
    intro r x f hx hf hlt
    rcases Store.of_get?_push hf with ⟨hnew, rfl⟩ | ⟨-, hf⟩
    · obtain ⟨g, hg⟩ := hsh.live r x hx
      exact absurd (Store.lt_next hg) (by omega)
    · exact h r x f hx hf hlt
  | ctorOpened | opened =>
    exact h.of_same wrote_refl (later_modify fun _ => JobFiles.later_modifyFd fun _ hd => by cases hd)
  | ctorFailed | openFailed | close =>
    exact h.of_same wrote_refl (later_modify fun _ => JobFiles.later_modifyFd fun _ hd => hd)
  | notify =>
    exact h.of_same wrote_refl (later_modify fun _ => JobFiles.later_modifyFd fun _ hd => by cases hd)
  | beginParts => exact h.of_same wrote_refl (later_modify fun f => f.later_refl)
  | partPush =>
    intro r x f hx hf hlt
    rcases Store.of_get?_push hx with ⟨-, rfl⟩ | ⟨-, hx⟩
    · exact absurd hlt (lt_irrefl _)
    · exact h r x f hx hf hlt
  | takeGive => exact h.of_same (wrote_modify fun _ => ⟨rfl, rfl, rfl⟩) later_self
  | batch => exact h.of_same (wrote_modify fun _ => ⟨rfl, rfl, rfl⟩) later_self
  | deleteShared => exact h.of_same wrote_erase (later_modify fun f => f.later_refl)
  | deleteLast => exact h.of_same wrote_erase later_erase
  | @completion i c x y f hp hc hr hf =>
    intro r z g hz hg hlt
    obtain ⟨x', hx', ⟨rfl, rfl⟩ | ⟨-, rfl⟩⟩ := Store.exists_of_get?_modify hz
    · have hg : s.files.get? x'.file = some g := by
        rw [← onCompletionEvent_same.file]
        exact hg
      have htag : c.tag ∈ tags s.sq s.chains s.cq :=
        mem_append_right _ (mem_map_of_mem (mem_of_getElem? hc))
      exact fun hn => not_never_of_tag hfds hown hring hx' hg htag rfl (.inr hn)
    · exact h r z g hx' hg hlt
  | _ => exact h

theorem reachable_wrote {ok : State → Label → Prop} (h : (system cfg).ReachIn ok s) : Wrote s := by
  refine h.invariant ?_ fun s l s' hr hs _ hstep => wrote_move (step_move hstep).2 (reachable_fds hr)
    (reachable_owned hr).1 (reachable_ring hr) (reachable_sharedFiles hr) hs
  rintro s ⟨storage, rfl⟩ r x f hx
  cases hx

/-- The runners of a file whose destination was never opened have done nothing. -/
theorem untouched_of_never (hfds : Fds cfg s) (hown : State.Owned s) (hring : State.Ring s)
    (hwrote : Wrote s) {f : JobFiles} (hx : s.runners.get? r = some x)
    (hf : s.files.get? x.file = some f) (hn : f.destFd.fd = .neverOpened) :
    x.writeOffset = x.offset ∧ ∀ t ∈ tags s.sq s.chains s.cq, t.1 ≠ r := by
  constructor
  · have hge := (hring.written r x hx).1
    by_contra hne
    exact hwrote r x f hx hf (by omega) hn
  · intro t ht htr
    exact not_never_of_tag hfds hown hring hx hf ht htr (.inr hn)

/-! ## The runs that copy a file -/

/-- Which files may be opened: those of file number `i` are `a` and `b`, and the destinations of the
other ones are neither. -/
def Between (i : ℕ) (a b : Ino) (j : ℕ) (side : Side) (ino : Ino) : Prop :=
  match side with
  | .source => j = i → ino = a
  | .dest => (j = i → ino = b) ∧ (j ≠ i → ino ≠ a ∧ ino ≠ b)

/-- The steps of the runs in which file number `i` is `job`, and copies file `a` to file `b`. No other
job has `b` or `a` as its destination, and no other process changes the two. -/
structure CopiesTo (cfg : Config) (i : ℕ) (job : Job) (a b : Ino) (s : State) (l : Label) : Prop
    extends Regular cfg s l where
  job : ∀ job', l = .addCopyJob job' → s.files.next = i → job' = job
  opens : ∀ j side ino, opened cfg s l = some (j, side, ino) → Between i a b j side ino
  alone : ∀ ino content, l = .otherProcess ino content → ino ≠ a ∧ ino ≠ b

theorem CopiesTo.spares (h : CopiesTo cfg i job a b s l) (hab : a ≠ b) : Spares cfg a s l where
  dest j ho := by
    have hbetween := h.opens j .dest a ho
    by_cases hj : j = i
    · exact hab (hbetween.1 hj)
    · exact (hbetween.2 hj).1 rfl
  alone content hl := (h.alone a content hl).1 rfl

/-- What is known in every state of these runs. -/
structure CopyInv (cfg : Config) (i : ℕ) (job : Job) (a b : Ino) (s : State) : Prop where
  threads : Threads cfg s
  ring : State.Ring s
  owned : State.Owned s
  submitted : Submitted s
  shared : State.SharedFiles cfg s
  chunked : Chunked cfg s
  fds : Fds cfg s
  wrote : Wrote s
  jobs : AcceptedJobs cfg s
  file : IsFile i job s
  flights : Flights cfg s
  blocks : Blocks cfg s
  seated : Seated cfg s
  wired : Wired (Between i a b) s

theorem reachIn_copyInv (hb : 0 < cfg.heap.blockSize)
    (h : (system cfg).ReachIn (CopiesTo cfg i job a b) s) : CopyInv cfg i job a b s where
  threads := reachable_threads h
  ring := reachable_ring h
  owned := (reachable_owned h).1
  submitted := reachIn_submitted (h.mono fun _ _ hl => hl.accepts)
  shared := reachable_sharedFiles h
  chunked := reachable_chunked h
  fds := reachable_fds h
  wrote := reachable_wrote h
  jobs := reachIn_acceptedJobs (fun _ _ hl => hl.toRegular) h
  file := reachIn_isFile (fun _ _ hl => hl.job) h
  flights := reachIn_flights (fun _ _ hl => hl.toRegular) h
  blocks := reachable_blocks hb h
  seated := reachIn_seated hb (fun _ _ hl => hl.toRegular) h
  wired := reachIn_wired (fun _ _ hl => hl.opens) h

/-! ## What the kernel does -/

/-- The destination is given bytes of the source, each at its place. -/
def Gains (data content content' : List UInt8) : Prop :=
  content' = content ∨ ∃ off k, off + k ≤ data.length ∧
    content' = pwrite content off (pread data off k)

theorem Gains.matches {content content' : List UInt8} (h : Gains data content content') {lo hi : ℕ}
    (hm : Matches content data lo hi) : Matches content' data lo hi := by
  rcases h with rfl | ⟨off, k, hk, rfl⟩
  · exact hm
  · exact hm.pwrite hk

theorem Gains.length_le {content content' : List UInt8} (h : Gains data content content')
    (hlen : content.length ≤ data.length) : content'.length ≤ data.length := by
  rcases h with rfl | ⟨off, k, hk, rfl⟩
  · exact hlen
  · exact length_pwrite_le hlen (by rw [length_pread hk]; exact hk)

/-- The data of the runners of file `i`. -/
def Sounds (i : ℕ) (b : Ino) (data : List UInt8) (s : State) : Prop :=
  ∀ r x, s.runners.get? r = some x → x.file = i →
    x.Sound data s.storage.mem (s.storage.disk b) s.cq r

/-- What an executed read stores. -/
theorem effect_read {e : Sqe} {st : Storage} {res : ℤ} (hop : e.op = .read)
    (hret : e.mayReturn st res = true) :
    res < 0 ∧ e.effect st res = st ∨ 0 ≤ res ∧ res ≤ e.len ∧ ∃ ino, e.fd = some ino ∧
      e.off + res.toNat ≤ max e.off (st.disk ino).length ∧
      e.effect st res = { st with mem := store st.mem e.addr (pread (st.disk ino) e.off res.toNat) } := by
  unfold Sqe.mayReturn at hret
  unfold Sqe.effect
  rw [hop] at hret ⊢
  by_cases h0 : res < 0
  · refine .inl ⟨h0, ?_⟩
    cases e.fd with
    | none => rfl
    | some ino => exact if_pos h0
  · cases hfd : e.fd with
    | none => simp [hfd, h0] at hret
    | some ino =>
      simp only [hfd, h0, decide_false, Bool.false_or, Bool.and_eq_true, decide_eq_true_eq] at hret
      exact .inr ⟨by omega, hret.1.1, ino, rfl, by omega, if_neg h0⟩

/-- What an executed write stores. -/
theorem effect_write {e : Sqe} {st : Storage} {res : ℤ} (hop : e.op = .write)
    (hret : e.mayReturn st res = true) :
    res < 0 ∧ e.effect st res = st ∨ 0 ≤ res ∧ res ≤ e.len ∧ ∃ ino, e.fd = some ino ∧
      e.effect st res = st.put ino (pwrite (st.disk ino) e.off (load st.mem e.addr res.toNat)) := by
  unfold Sqe.mayReturn at hret
  unfold Sqe.effect
  rw [hop] at hret ⊢
  by_cases h0 : res < 0
  · refine .inl ⟨h0, ?_⟩
    cases e.fd with
    | none => rfl
    | some ino => exact if_pos h0
  · cases hfd : e.fd with
    | none => simp [hfd, h0] at hret
    | some ino =>
      simp only [hfd, h0, decide_false, Bool.false_or, Bool.and_eq_true, decide_eq_true_eq] at hret
      exact .inr ⟨by omega, hret.1.2, ino, rfl, if_neg h0⟩

section Kernel

variable {c : ℕ} {res : ℤ} {chain chain' : Chain} {e : Sqe} {rest : List Sqe} {y : CopyRunner}

theorem mem_pending_of_head (hi : s.chains[c]? = some chain) (hreqs : chain.reqs = e :: rest) :
    e ∈ pendingReqs s.sq s.chains :=
  mem_append_right _ (mem_flatMap.mpr ⟨chain, mem_of_getElem? hi, by simp [hreqs]⟩)

/-- The requests of a runner, the source having the size that its job says. -/
theorem CopyInv.aloft (h : CopyInv cfg i job a b s) (hx : s.runners.get? r = some x)
    (hxi : x.file = i) : Aloft cfg.modes job.stxSize s.sq s.chains s.cq r x := by
  obtain ⟨f, hf⟩ := h.shared.live r x hx
  have hal := h.flights r x f hx hf
  rwa [h.file f (hxi ▸ hf)] at hal

theorem CopyInv.chunkEnd_le (h : CopyInv cfg i job a b s) (hx : s.runners.get? r = some x)
    (hxi : x.file = i) : x.chunkEnd ≤ job.stxSize :=
  (isPart_of_file h.shared h.chunked h.file hx hxi).end_le

/-- A write of a runner of the file writes bytes of the source, each to its place. -/
theorem written_of_head (h : CopyInv cfg i job a b s) (hs : Sounds i b data s)
    (hlen : data.length = job.stxSize) (hi : s.chains[c]? = some chain)
    (hb : chain.broken = false) (hreqs : chain.reqs = e :: rest)
    (hy : s.runners.get? e.runner = some y) (hyi : y.file = i) (hev : e.event = .write)
    (hop : e.op = .write) (hret : e.mayReturn s.storage res = true) :
    res < 0 ∧ e.effect s.storage res = s.storage ∨
    0 ≤ res ∧ y.writeOffset + res.toNat ≤ data.length ∧ e.effect s.storage res =
      s.storage.put b (pwrite (s.storage.disk b) y.writeOffset
        (pread data y.writeOffset res.toNat)) := by
  rcases effect_write hop hret with hneg | ⟨h0, hle, ino, hfd, heffect⟩
  · exact .inl hneg
  · have hmem := mem_pending_of_head hi hreqs
    have htag : e.tag = (e.runner, .write) := by rw [Sqe.tag, hev]
    have hal := h.aloft hy hyi
    obtain rfl : ino = b := ((h.wired.reqs e hmem y ino hy hfd).2 hop).1 hyi
    obtain ⟨hoff, haddr⟩ : e.off = y.writeOffset ∧
        e.addr = y.bufferAligned + y.writeOffset - y.offset := by
      rcases hal.writeReq e hmem htag with ⟨hnop, -⟩ | ⟨-, hplan⟩
      · rw [hop] at hnop
        cases hnop
      · exact hplan
    have hall := readAll_of_head hal h.ring h.submitted (mem_of_getElem? hi) hb hreqs htag hop
    have hholds := (hs e.runner y hy hyi).holds_chunk hal.lower hal.upper hall
    have hroom := h.ring.writeReq e hmem hev y hy
    have hend := h.chunkEnd_le hy hyi
    have hge := (h.ring.written e.runner y hy).1
    refine .inr ⟨h0, by omega, ?_⟩
    -- the bytes in the buffer are those of the source
    have hload := hholds.load_eq (k := y.writeOffset - y.offset) (j := res.toNat) (by omega)
    have haddr' : y.bufferAligned + (y.writeOffset - y.offset) = e.addr := by omega
    have hoff' : y.offset + (y.writeOffset - y.offset) = y.writeOffset := by omega
    rw [haddr', hoff'] at hload
    rw [heffect, hload, hoff]

theorem CopyInv.runner_of_head (h : CopyInv cfg i job a b s) (hi : s.chains[c]? = some chain)
    (hreqs : chain.reqs = e :: rest) : ∃ y, s.runners.get? e.runner = some y :=
  h.ring.live e.tag (mem_append_left _ (mem_map_of_mem (mem_pending_of_head hi hreqs)))

/-- The kind of a request is that of its event. -/
theorem CopyInv.event_of_write (h : CopyInv cfg i job a b s) (hy : s.runners.get? e.runner = some y)
    (hmem : e ∈ pendingReqs s.sq s.chains) (hop : e.op = .write) : e.event = .write := by
  obtain ⟨f, hf⟩ := h.shared.live e.runner y hy
  cases hev : e.event with
  | write => rfl
  | read =>
    have hplan := (h.flights e.runner y f hy hf).readReq e hmem (by rw [Sqe.tag, hev])
    rw [hplan.op] at hop
    cases hop

theorem gains_kernel {st : Storage} {cqe : Cqe} (h : CopyInv cfg i job a b s)
    (hs : Sounds i b data s) (hlen : data.length = job.stxSize) (hi : s.chains[c]? = some chain)
    (hc : chain.complete s.storage res = some (chain', st, cqe)) :
    Gains data (s.storage.disk b) (st.disk b) := by
  obtain ⟨e, rest, hreqs, -, -, hhow⟩ := Chain.complete_spec hc
  rcases hhow with ⟨-, -, rfl, -⟩ | ⟨hb, hret, rfl, -⟩
  · exact .inl rfl
  · obtain ⟨y, hy⟩ := h.runner_of_head hi hreqs
    have hmem := mem_pending_of_head hi hreqs
    by_cases hwrite : e.op = .write ∧ y.file = i
    · obtain ⟨hop, hyi⟩ := hwrite
      have hev := h.event_of_write hy hmem hop
      rcases written_of_head h hs hlen hi hb hreqs hy hyi hev hop hret with
        ⟨-, heffect⟩ | ⟨-, hle, heffect⟩
      · exact .inl (by rw [heffect])
      · refine .inr ⟨y.writeOffset, res.toNat, hle, ?_⟩
        rw [heffect]
        exact Function.update_self _ _ _
    · left
      refine disk_effect (fun hop hfd => ?_) _ _
      exact (((h.wired.reqs e hmem y b hy hfd).2 hop).2 fun hyi => hwrite ⟨hop, hyi⟩).2 rfl

/-- The kernel reads into the buffer of another runner. -/
theorem sound_read_other (h : CopyInv cfg i job a b s) (hx : s.runners.get? r = some x)
    (hxi : x.file = i) (hsound : x.Sound data s.storage.mem (s.storage.disk b) s.cq r)
    (hmem : e ∈ pendingReqs s.sq s.chains) (hev : e.event = .read)
    (hy : s.runners.get? e.runner = some y) (hne : r ≠ e.runner) {bytes : List UInt8}
    (hlen : bytes.length ≤ e.len) :
    x.Sound data (store s.storage.mem e.addr bytes) (s.storage.disk b) s.cq r := by
  have htag : e.tag = (e.runner, .read) := by rw [Sqe.tag, hev]
  have hal := h.aloft hx hxi
  obtain ⟨f, hf⟩ := h.shared.live e.runner y hy
  have haly := h.flights e.runner y f hy hf
  refine hsound.of_storage (fun k hk hcase => ?_) fun _ hm => hm
  -- what the runner has read is in its buffer, so it has one
  have hup := hal.upper
  have hend : x.chunkEnd = x.offset + x.size := rfl
  have hsize : k ≤ x.size ∧ (0 < k → x.buffer.isSome = true) := by
    rcases hcase with rfl | ⟨c, hc, htc, hpos, rfl⟩
    · exact ⟨by omega, fun hpos => hsound.buffer (by omega)⟩
    · have := hal.readRes c hc htc hpos
      have hjobs := h.ring.jobs_pos (mem_append_right _ (mem_map_of_mem hc)) (by rw [htc]; exact hx)
      exact ⟨by omega, fun _ => h.owned.flying r x hx (by omega)⟩
  rcases Nat.eq_zero_or_pos k with rfl | hpos
  · exact fun j hj => absurd hj (Nat.not_lt_zero j)
  · obtain ⟨bx, hbx⟩ := Option.isSome_iff_exists.mp (hsize.2 hpos)
    have hjobsy := h.ring.jobs_pos (mem_append_left _ (mem_map_of_mem hmem)) (by rw [htag]; exact hy)
    obtain ⟨by', hby⟩ := Option.isSome_iff_exists.mp (h.owned.flying e.runner y hy (by omega))
    have hpy := h.seated e.runner y by' hy hby
    have hpx := h.seated r x bx hx hbx
    have hplan := haly.readReq e hmem htag
    have hypos : 0 < y.size := by
      obtain ⟨-, -, -, -, k', hk', hle', -⟩ := hplan
      have := haly.lower
      simp only [chunkEnd] at hle'
      omega
    have hyshape := shaped_of_jobs h.chunked h.jobs hy hf hypos
    have hin := read_inBlock haly hyshape hpy hmem htag
    have hapart := read_apart h.blocks hx hbx hpx hy hby hne hin
    obtain ⟨g, hg⟩ := h.shared.live r x hx
    have hxshape := shaped_of_jobs h.chunked h.jobs hx hg (by omega)
    have hround := le_alignUp hxshape.align_pos x.size
    exact hk.store_of_apart (by omega)

/-- The kernel reads into the buffer of the runner. -/
theorem sound_read_own (h : CopyInv cfg i job a b s) (hx : s.runners.get? e.runner = some x)
    (hxi : x.file = i) (hsound : x.Sound data s.storage.mem (s.storage.disk b) s.cq e.runner)
    (hlen : data.length = job.stxSize) (hmem : e ∈ pendingReqs s.sq s.chains) (hev : e.event = .read)
    (hle : e.off + res.toNat ≤ max e.off data.length) :
    x.Sound data (store s.storage.mem e.addr (pread data e.off res.toNat)) (s.storage.disk b)
      (s.cq ++ [⟨e.runner, e.event, res⟩]) e.runner := by
  have htag : e.tag = (e.runner, .read) := by rw [Sqe.tag, hev]
  have hal := h.aloft hx hxi
  obtain ⟨-, hoff, haddr, -⟩ := hal.readReq e hmem htag
  have hlow := hal.lower
  have hup := hal.upper
  have hend := h.chunkEnd_le hx hxi
  have haddr' : x.bufferAligned + (x.readOffset - x.offset) = e.addr := by omega
  have hoff' : x.offset + (x.readOffset - x.offset) = e.off := by omega
  have hstore : Holds (store s.storage.mem e.addr (pread data e.off res.toNat)) x.bufferAligned data
      x.offset (x.readOffset - x.offset + res.toNat) := by
    have hextended := hsound.read.store res.toNat (by omega)
    rwa [haddr', hoff'] at hextended
  refine ⟨hsound.buffer, hstore.mono (by omega), fun c hc htc hpos => ?_, hsound.written,
    fun c hc htc hpos => ?_⟩
  · rcases mem_append.mp hc with hc | hc
    · exact absurd (htag.trans htc.symm) (h.ring.req_ne_res hmem hc)
    · rw [mem_singleton.mp hc]
      exact hstore.mono (by dsimp only; omega)
  · rcases mem_append.mp hc with hc | hc
    · exact hsound.writeRes c hc htc hpos
    · rw [mem_singleton.mp hc, Cqe.tag, hev] at htc
      cases htc

/-- A completion that transfers nothing, or is that of another runner. -/
theorem sound_append {mem : ℕ → UInt8} {content : List UInt8} {cq : List Cqe} {cqe : Cqe}
    (h : x.Sound data mem content cq r) (hc : cqe.runner = r → cqe.res ≤ 0) :
    x.Sound data mem content (cq ++ [cqe]) r := by
  refine h.of_cq fun c hmem hr hpos => ?_
  rcases mem_append.mp hmem with hmem | hmem
  · exact hmem
  · rw [mem_singleton.mp hmem] at hr hpos
    have := hc hr
    omega

/-- The kernel executes a write of a runner of the file. -/
theorem sound_write (h : CopyInv cfg i job a b s) (hs : Sounds i b data s)
    (hlen : data.length = job.stxSize) (hi : s.chains[c]? = some chain)
    (hb : chain.broken = false) (hreqs : chain.reqs = e :: rest)
    (hy : s.runners.get? e.runner = some y) (hyi : y.file = i) (hev : e.event = .write)
    (hop : e.op = .write) (hret : e.mayReturn s.storage res = true)
    (hx : s.runners.get? r = some x) (hxi : x.file = i) :
    x.Sound data (e.effect s.storage res).mem ((e.effect s.storage res).disk b)
      (s.cq ++ [⟨e.runner, e.event, res⟩]) r := by
  have hsound := hs r x hx hxi
  rcases written_of_head h hs hlen hi hb hreqs hy hyi hev hop hret with
    ⟨hneg, heffect⟩ | ⟨h0, hle, heffect⟩
  · rw [heffect]
    exact sound_append hsound fun _ => hneg.le
  · rw [heffect]
    show x.Sound data s.storage.mem (Function.update s.storage.disk b _ b) _ r
    rw [Function.update_self]
    have hkept : x.Sound data s.storage.mem _ s.cq r :=
      hsound.of_storage (fun _ hk _ => hk) fun _ hm => hm.pwrite hle
    by_cases hr : r = e.runner
    · subst hr
      rw [hx] at hy
      cases hy
      refine ⟨hkept.buffer, hkept.read, fun c hc htc hpos => ?_, hkept.written, fun c hc htc hpos => ?_⟩
      · rcases mem_append.mp hc with hc | hc
        · exact hkept.readRes c hc htc hpos
        · rw [mem_singleton.mp hc, Cqe.tag, hev] at htc
          cases htc
      · rcases mem_append.mp hc with hc | hc
        · exact hkept.writeRes c hc htc hpos
        · rw [mem_singleton.mp hc]
          exact hkept.written.append (matches_pwrite hle)
    · exact sound_append hkept fun hc => absurd hc.symm hr

theorem sounds_kernel {st : Storage} {cqe : Cqe} (h : CopyInv cfg i job a b s)
    (hs : Sounds i b data s) (hlen : data.length = job.stxSize) (hdata : s.storage.disk a = data)
    (hi : s.chains[c]? = some chain)
    (hc : chain.complete s.storage res = some (chain', st, cqe)) :
    Sounds i b data { s with chains := s.chains.set c chain', storage := st, cq := s.cq ++ [cqe] } := by
  intro r x hx hxi
  have hsound := hs r x hx hxi
  obtain ⟨e, rest, hreqs, -, rfl, hhow⟩ := Chain.complete_spec hc
  rcases hhow with ⟨-, rfl, rfl, -⟩ | ⟨hb, hret, rfl, -⟩
  · exact sound_append hsound fun _ => by simp [ECANCELED]
  · obtain ⟨y, hy⟩ := h.runner_of_head hi hreqs
    obtain ⟨f, hf⟩ := h.shared.live e.runner y hy
    have hmem := mem_pending_of_head hi hreqs
    cases hev : e.event with
    | read =>
      have hop := ((h.flights e.runner y f hy hf).readReq e hmem (by rw [Sqe.tag, hev])).op
      rcases effect_read hop hret with ⟨hneg, heffect⟩ | ⟨h0, hle, ino, hfd, hbound, heffect⟩
      · rw [heffect]
        exact sound_append hsound fun _ => hneg.le
      · rw [heffect]
        by_cases hr : r = e.runner
        · subst hr
          obtain rfl : ino = a := by
            rw [hx] at hy
            cases hy
            exact (h.wired.reqs e hmem x ino hx hfd).1 hop hxi
          rw [hdata] at hbound ⊢
          rw [← hev]
          exact sound_read_own h hx hxi hsound hlen hmem hev hbound
        · refine sound_append (sound_read_other h hx hxi hsound hmem hev hy hr ?_)
            fun hc => absurd hc.symm hr
          rw [pread, length_take]
          omega
    | write =>
      rw [← hev]
      by_cases hwrite : e.op = .write
      · by_cases hyi : y.file = i
        · exact sound_write h hs hlen hi hb hreqs hy hyi hev hwrite hret hx hxi
        · have hr : e.runner ≠ r := by
            rintro rfl
            rw [hx] at hy
            cases hy
            exact hyi hxi
          have hdisk := disk_effect (c := b) (fun hop hfd =>
            (((h.wired.reqs e hmem y b hy hfd).2 hop).2 hyi).2 rfl) s.storage res
          refine sound_append ?_ fun hc => absurd hc hr
          rw [hdisk]
          rcases effect_write hwrite hret with ⟨-, heffect⟩ | ⟨-, -, ino, -, heffect⟩
          · rw [heffect]
            exact hsound
          · rw [heffect]
            exact hsound
      · -- the nop of a debug mode
        have hnop : e.op = .nop := by
          cases hop : e.op with
          | nop => rfl
          | write => exact absurd hop hwrite
          | read => exact absurd hop (h.ring.writeOp e hmem hev)
        have hres : res = 0 := by
          unfold Sqe.mayReturn at hret
          rw [hnop] at hret
          simpa using hret
        have heffect : e.effect s.storage res = s.storage := by
          unfold Sqe.effect
          rw [hnop]
        rw [heffect]
        exact sound_append hsound fun _ => hres.le

end Kernel

/-! ## The data of the runners -/

/-- Where the disk changes, `b` is changed by opening the destination of file `i` only. -/
theorem disk_open {j : ℕ} {side : Side} {f : JobFiles} {ino : Ino} (h : CopyInv cfg i job a b s)
    (hf : s.files.get? j = some f) (hP : Between i a b j side ino) (hne : ¬ (side = .dest ∧ j = i)) :
    (truncateOnOpen (f.fd side) ino s.storage).disk b = s.storage.disk b := by
  refine (disk_truncateOnOpen (h.wired.flags j f hf) _).trans (if_neg ?_)
  rintro ⟨rfl, rfl⟩
  exact (hP.2 fun hj => hne ⟨rfl, hj⟩).2 rfl

theorem mem_truncateOnOpen (d : QueueFileDescriptor) (ino : Ino) (st : Storage) :
    (truncateOnOpen d ino st).mem = st.mem := by
  unfold truncateOnOpen
  split <;> rfl

theorem Sounds.of_disk (h : Sounds i b data s) (hr : s'.runners = s.runners) (hc : s'.cq = s.cq)
    (hmem : s'.storage.mem = s.storage.mem) (hdisk : s'.storage.disk b = s.storage.disk b) :
    Sounds i b data s' := by
  intro r x hx hxi
  rw [hmem, hdisk, hc]
  exact h r x (hr ▸ hx) hxi

/-- The destination is opened: nothing has been written to it yet. -/
theorem Sounds.open (h : Sounds i b data s) (hinv : CopyInv cfg i job a b s) {f : JobFiles}
    (hf : s.files.get? i = some f) (hn : f.destFd.fd = .neverOpened) (hr : s'.runners = s.runners)
    (hc : s'.cq = s.cq) (hmem : s'.storage.mem = s.storage.mem) : Sounds i b data s' := by
  intro r x hx hxi
  rw [hr] at hx
  have hsound := h r x hx hxi
  obtain ⟨hw, hno⟩ := untouched_of_never hinv.fds hinv.owned hinv.ring hinv.wrote hx (hxi ▸ hf) hn
  rw [hmem, hc]
  refine ⟨hsound.buffer, hsound.read, hsound.readRes, ?_, fun c hmem ht => ?_⟩
  · rw [hw]
    exact matches_self _ _ _
  · exact absurd (congrArg Prod.fst ht) (hno c.tag (mem_append_right _ (mem_map_of_mem hmem)))

theorem sounds_move (hm : Move cfg s l s') (hok : CopiesTo cfg i job a b s l)
    (h : CopyInv cfg i job a b s) (hlen : data.length = job.stxSize)
    (hdata : s.storage.disk a = data) (hs : Sounds i b data s) : Sounds i b data s' := by
  cases hm with
  | @ctorOpened j job' side f ino answers hm hf ho =>
    have hP := hok.opens j side ino (opened_ctor hm hf ho)
    by_cases hdest : side = .dest ∧ j = i
    · -- the file has no runners yet
      intro r x hx hxi
      have hb : building s.main = some (j, job', none) := by rw [hm]; rfl
      exact absurd (hxi.trans hdest.2.symm) (file_ne_building h.shared hb hx)
    · exact hs.of_disk rfl rfl (mem_truncateOnOpen _ _ _) (disk_open h hf hP hdest)
  | @opened n r side x f ino answers hp hr hf ho =>
    have hP := hok.opens x.file side ino (opened_ensure hp hr hf ho)
    by_cases hdest : side = .dest ∧ x.file = i
    · obtain ⟨rfl, hxi⟩ := hdest
      have hadm := h.fds.admitted r x f (by rw [hp]; rfl) hr hf
      rw [hp] at hadm
      exact hs.open h (hxi ▸ hf) hadm.2 rfl rfl (mem_truncateOnOpen _ _ _)
    · exact hs.of_disk rfl rfl (mem_truncateOnOpen _ _ _) (disk_open h hf hP hdest)
  | partPush =>
    intro r x hx hxi
    rcases Store.of_get?_push hx with ⟨rfl, rfl⟩ | ⟨-, hx⟩
    · refine .idle rfl rfl fun c hc hr => ?_
      obtain ⟨y, hy⟩ := h.ring.live c.tag (mem_append_right _ (mem_map_of_mem hc))
      exact absurd (Store.lt_next hy) (by rw [Cqe.tag, hr]; exact lt_irrefl _)
    · exact hs r x hx hxi
  | @takeGive n r b' rest x f hp hstart hr =>
    intro j y hy hyi
    obtain ⟨x', hx', ⟨rfl, rfl⟩ | ⟨-, rfl⟩⟩ := Store.exists_of_get?_modify hy
    · have hfresh := h.owned.fresh j (by rw [hstart]; exact mem_cons_self) x' hx'
      refine .idle hfresh.read hfresh.write fun c hc hrun => ?_
      exact h.ring.not_mem hx' hfresh.jobs c.tag (mem_append_right _ (mem_map_of_mem hc)) hrun
    · exact hs j y hx' hyi
  | batch =>
    intro j y hy hyi
    obtain ⟨x', hx', ⟨rfl, rfl⟩ | ⟨-, rfl⟩⟩ := Store.exists_of_get?_modify hy
    · exact (hs j x' hx' hyi).of_same ⟨⟨rfl, rfl, rfl, rfl⟩, rfl, rfl⟩ rfl rfl
    · exact hs j y hx' hyi
  | deleteShared | deleteLast => exact fun r x hx => hs r x (Store.of_get?_erase hx).2
  | @completion j c x y f hp hc hr =>
    have hcmem := mem_of_getElem? hc
    intro k z hz hzi
    obtain ⟨x', hx', ⟨rfl, rfl⟩ | ⟨hne, rfl⟩⟩ := Store.exists_of_get?_modify hz
    · rw [hr] at hx'
      cases hx'
      have hjobs := h.ring.jobs_pos (mem_append_right _ (mem_map_of_mem hcmem)) hr
      refine (hs c.runner x hr (onCompletionEvent_same.file ▸ hzi)).completion
        (h.owned.flying c.runner x hr (by omega)) hc fun d hd htd => ?_
      have hnot := Aloft.not_mem_tags h.ring hc
      exact hnot (htd ▸ mem_append_right _ (mem_map_of_mem hd))
    · exact (hs k z hx' hzi).of_cq fun d hd _ _ => mem_of_mem_eraseIdx hd
  | kernel hi hc => exact sounds_kernel h hs hlen hdata hi hc
  | @otherProcess ino content =>
    refine hs.of_disk rfl rfl rfl ?_
    exact Function.update_of_ne (hok.alone ino content rfl).2.symm _ _
  | _ => exact hs

end CopyQueue

end Wcp
