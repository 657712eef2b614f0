import WcpVerified.Proofs.ContentProofs
import WcpVerified.Proofs.CoverProofs
import WcpVerified.Proofs.LeakProofs

/-!
# Proofs: a file without errors is copied exactly

Every byte of a file is still to get a runner, or has one, or is in the destination, unless an error
was recorded or is about to be (`Landed`). The destination is never longer than the source once it has
been opened. So when the runners of the file are gone, the destination is the source.
-/

namespace Wcp

open List ByteImage

namespace CopyQueue

open CopyRunner

variable {cfg : Config} {storage : Storage} {s s' : State} {l : Label} {i r p : ℕ} {x : CopyRunner}
  {job : Job} {a b : Ino} {data : List UInt8}

/-! ## Errors -/

/-- An error was recorded, or is going to be by the next step of the submit thread. -/
def Erring (s : State) : Prop :=
  s.recorded ≠ [] ∨ ∃ e n, s.submit = .recording e (.addFailed n)

theorem erring_move (hm : Move cfg s l s') (ht : Threads cfg s) (h : Erring s) : Erring s' := by
  rcases h with hrec | hrec
  · cases hm with
    | walkError | record => exact .inl (append_ne_nil_of_left_ne_nil hrec _)
    | _ => exact .inl hrec
  · cases hm with
    | walkError | record => exact .inl (append_ne_nil_of_right_ne_nil _ (cons_ne_nil _ _))
    | start hm hidle =>
      have halive := ht.idle hidle
      obtain ⟨e, n, hp⟩ := hrec
      rw [hp] at halive
      cases halive
    | _ =>
      first
      | exact .inr hrec
      | (have hp := ‹s.submit = _›
         obtain ⟨e, n, hrec⟩ := hrec
         rw [hp] at hrec
         cases hrec)

/-- The queue remembers the errors it knows of. -/
def Remembers (s : State) : Prop := s.errored = true → s.recorded ≠ []

theorem remembers_move (hm : Move cfg s l s') (h : Remembers s) : Remembers s' := by
  cases hm with
  | walkError | record => exact fun _ => append_ne_nil_of_right_ne_nil _ (cons_ne_nil _ _)
  | joinFinish => exact fun herr => by cases herr
  | _ => exact h

theorem reachable_remembers {ok : State → Label → Prop} (h : (system cfg).ReachIn ok s) :
    Remembers s := by
  refine h.invariant ?_ fun s l s' _ hs _ hstep => remembers_move (step_move hstep).2 hs
  rintro s ⟨storage, rfl⟩ herr
  cases herr

/-! ## Bytes -/

/-- The destination of file `i` was never opened. -/
def DestNever (i : ℕ) (files : Store JobFiles) : Prop :=
  ∃ f, files.get? i = some f ∧ f.destFd.fd = .neverOpened

/-- The destination of file `i` has been opened. -/
def DestOpened (i : ℕ) (s : State) : Prop := i < s.files.next ∧ ¬ DestNever i s.files

/-- A runner has byte `p` of file `i` in its chunk. -/
def Carried (i p : ℕ) (s : State) : Prop :=
  ∃ r x, s.runners.get? r = some x ∧ x.file = i ∧ x.offset ≤ p ∧ p < x.chunkEnd

/-- Where the bytes of file `i` are, the source being `data`. -/
structure Landed (i : ℕ) (b : Ino) (data : List UInt8) (s : State) : Prop where
  length : DestOpened i s → (s.storage.disk b).length ≤ data.length
  bytes : ∀ p < data.length, s.files.next ≤ i ∨ Awaits i p s ∨ Carried i p s ∨
    DestOpened i s ∧ Matches (s.storage.disk b) data p (p + 1)

theorem destNever_modify {files : Store JobFiles} {j : ℕ} {g : JobFiles → JobFiles}
    (hg : j = i → ∀ f, files.get? j = some f →
      ((g f).destFd.fd = .neverOpened ↔ f.destFd.fd = .neverOpened)) :
    DestNever i (files.modify j g) ↔ DestNever i files := by
  by_cases hj : i = j
  · subst hj
    constructor
    · rintro ⟨f', hf', hn⟩
      obtain ⟨f, hf, ⟨-, rfl⟩ | ⟨hne, -⟩⟩ := Store.exists_of_get?_modify hf'
      · exact ⟨f, hf, (hg rfl f hf).mp hn⟩
      · exact absurd rfl hne
    · rintro ⟨f, hf, hn⟩
      exact ⟨g f, Store.get?_modify_self hf, (hg rfl f hf).mpr hn⟩
  · unfold DestNever
    rw [Store.get?_modify_of_ne hj]

theorem destOpened_modify {j : ℕ} {g : JobFiles → JobFiles} (hf : s'.files = s.files.modify j g)
    (hg : j = i → ∀ f, s.files.get? j = some f →
      ((g f).destFd.fd = .neverOpened ↔ f.destFd.fd = .neverOpened)) :
    DestOpened i s' ↔ DestOpened i s := by
  unfold DestOpened
  rw [hf, Store.next_modify, destNever_modify hg]

theorem destOpened_of_eq (hf : s'.files = s.files) : DestOpened i s' ↔ DestOpened i s := by
  unfold DestOpened
  rw [hf]

/-- Changing one descriptor, and not from or to one that was never opened. -/
theorem never_modifyFd {g : QueueFileDescriptor → QueueFileDescriptor} {side : Side} {f : JobFiles}
    (hg : side = .dest → ((g f.destFd).fd = .neverOpened ↔ f.destFd.fd = .neverOpened)) :
    (f.modifyFd g side).destFd.fd = .neverOpened ↔ f.destFd.fd = .neverOpened := by
  cases side with
  | source => exact Iff.rfl
  | dest => exact hg rfl

theorem carried_of_same (hr : ∀ r x, s.runners.get? r = some x → ∃ x', s'.runners.get? r = some x' ∧
    x.SamePart x') (h : Carried i p s) : Carried i p s' := by
  obtain ⟨r, x, hx, hxi, hlow, hup⟩ := h
  obtain ⟨x', hx', hs⟩ := hr r x hx
  exact ⟨r, x', hx', hs.file.trans hxi, hs.offset ▸ hlow, hs.chunkEnd ▸ hup⟩

/-- The bytes stay where they are, or the kernel writes some. -/
theorem Landed.of_same (h : Landed i b data s) (hnext : s'.files.next = s.files.next)
    (hmain : building s'.main = building s.main) (hr : ∀ p, Carried i p s → Carried i p s')
    (ho : DestOpened i s' ↔ DestOpened i s)
    (hdisk : Gains data (s.storage.disk b) (s'.storage.disk b)) : Landed i b data s' where
  length hd := hdisk.length_le (h.length (ho.mp hd))
  bytes p hp := by
    rcases h.bytes p hp with hn | hw | hc | ⟨hd, hm⟩
    · exact .inl (hnext ▸ hn)
    · refine .inr (.inl ?_)
      unfold Awaits
      rw [hmain]
      exact hw
    · exact .inr (.inr (.inl (hr p hc)))
    · exact .inr (.inr (.inr ⟨ho.mpr hd, hdisk.matches hm⟩))

theorem carried_modify {j : ℕ} {g : CopyRunner → CopyRunner}
    (hr : s'.runners = s.runners.modify j g) (hg : ∀ x : CopyRunner, x.SamePart (g x)) (p : ℕ)
    (h : Carried i p s) : Carried i p s' := by
  refine carried_of_same (fun r x hx => ?_) h
  by_cases hj : r = j
  · subst hj
    exact ⟨g x, hr ▸ Store.get?_modify_self hx, hg x⟩
  · exact ⟨x, by rw [hr, Store.get?_modify_of_ne hj, hx], .refl x⟩

/-- The destination is opened, and truncated. -/
theorem Landed.open (h : Landed i b data s) (hnext : s'.files.next = s.files.next)
    (hmain : building s'.main = building s.main) (hr : s'.runners = s.runners)
    (hn : DestNever i s.files) (hdisk : s'.storage.disk b = []) : Landed i b data s' where
  length _ := by
    rw [hdisk]
    exact Nat.zero_le _
  bytes p hp := by
    rcases h.bytes p hp with hnx | hw | hc | ⟨hd, -⟩
    · exact .inl (hnext ▸ hnx)
    · refine .inr (.inl ?_)
      unfold Awaits
      rw [hmain]
      exact hw
    · refine .inr (.inr (.inl ?_))
      unfold Carried
      rw [hr]
      exact hc
    · exact absurd hn hd.2

/-- A job is added. -/
theorem Landed.addCopyJob (h : Landed i b data s) (hm : s.main = .ready) (job' : Job) :
    Landed i b data (beginCopyJob job' s) := by
  have hnever : DestNever s.files.next (beginCopyJob job' s).files :=
    ⟨.create job', Store.get?_push_self, rfl⟩
  have hold : ∀ {j}, j < s.files.next → (DestNever j (beginCopyJob job' s).files ↔ DestNever j s.files) := by
    intro j hj
    unfold DestNever
    have hget : (beginCopyJob job' s).files.get? j = s.files.get? j := by
      show (s.files.push _).get? j = _
      rw [Store.get?_push, if_neg (by omega)]
    rw [hget]
  have hnext : (beginCopyJob job' s).files.next = s.files.next + 1 := rfl
  have hopened : DestOpened i (beginCopyJob job' s) ↔ DestOpened i s := by
    unfold DestOpened
    rw [hnext]
    constructor
    · rintro ⟨hlt, hn⟩
      have hne : i ≠ s.files.next := by
        rintro rfl
        exact hn hnever
      exact ⟨by omega, fun hc => hn ((hold (by omega)).mpr hc)⟩
    · rintro ⟨hlt, hn⟩
      exact ⟨by omega, fun hc => hn ((hold hlt).mp hc)⟩
  refine ⟨fun hd => h.length (hopened.mp hd), fun p hp => ?_⟩
  rcases h.bytes p hp with hn | ⟨job'', part, hb, -⟩ | hc | ⟨hd, hmatch⟩
  · by_cases hi : i = s.files.next
    · exact .inr (.inl ⟨job', none, by rw [hi]; rfl, nofun⟩)
    · exact .inl (by rw [hnext]; omega)
  · rw [hm] at hb
    cases hb
  · exact .inr (.inr (.inl hc))
  · exact .inr (.inr (.inr ⟨hopened.mpr hd, hmatch⟩))

/-- A runner is created for the next part. -/
theorem Landed.push {f : ℕ} {job' : Job} {q : Part} (h : Landed i b data s)
    (hlen : data.length = job.stxSize) (hm : s.main = .part f job' q .push)
    (hf : f = i → job' = job) : Landed i b data (partStep cfg f job' q .push s) := by
  refine ⟨h.length, fun p hp => ?_⟩
  rcases h.bytes p hp with hn | ⟨job'', part, hb, hle⟩ | ⟨r, x, hx, hc⟩ | hd
  · exact .inl hn
  · rw [hm] at hb
    obtain ⟨rfl, rfl, rfl⟩ : f = i ∧ job' = job'' ∧ some q = part := by simpa [building] using hb
    have hjob := hf rfl
    subst hjob
    by_cases hlt : p < q.offset + q.size
    · exact .inr (.inr (.inl ⟨_, _, Store.get?_push_self, rfl, hle q rfl, hlt⟩))
    · -- the byte belongs to a later part
      refine .inr (.inl ⟨job', some (partAt cfg.heap job' (q.offset + q.size)), ?_, ?_⟩)
      · simp only [partStep]
        rw [if_neg (by omega)]
        rfl
      · rintro q' ⟨⟩
        rw [partAt_offset (by omega)]
        omega
  · exact .inr (.inr (.inl ⟨r, x, Store.get?_push_of_some hx, hc⟩))
  · exact .inr (.inr (.inr hd))

/-- A runner is destroyed: it has written its chunk, or there is an error. -/
theorem landed_delete {caller : DeleteCaller} {f : JobFiles} (h : CopyInv cfg i job a b s)
    (hs : Sounds i b data s) (hcomplete : Complete s) (hhandled : Handled s) (hrem : Remembers s)
    (hp : s.submit = .deleting r caller) (hr : s.runners.get? r = some x)
    (hf : s.files.get? x.file = some f) (hxi : x.file = i) :
    (s.recorded ≠ [] ∨ ∃ e n, afterDelete caller = .recording e (.addFailed n)) ∨
      f.destFd.fd ≠ .neverOpened ∧ Matches (s.storage.disk b) data x.offset x.chunkEnd := by
  have hhand : s.submit.hand = some r := by rw [hp]; rfl
  cases caller with
  | addFailed n e => exact .inl (.inr ⟨e, n, rfl⟩)
  | completion =>
    have hends := hcomplete.hand r x hhand hr
    rw [hp] at hends
    rcases hends with hw | herr
    · right
      constructor
      · have hstart : r ∉ s.copiesPendingStart := by
          intro hmem
          have hnd := h.owned.nodup
          rw [hhand] at hnd
          exact (nodup_append.mp hnd).2.2 r (mem_append_left _ hmem) r (by simp) rfl
        have hnever := h.fds.started r x f hr hf hstart (by rw [hp]; nofun)
        exact fun hn => hnever (.inr hn)
      · rw [← hw]
        exact (hs r x hr hxi).written
    · exact .inl (.inl (hrem herr))
  | emptyFile n =>
    have hclean := hhandled r x f hhand hr hf
    rw [hp] at hclean
    obtain ⟨-, hsize, herr | hopen⟩ := hclean
    · exact .inl (.inl (hrem herr))
    · refine .inr ⟨hopen, ?_⟩
      rw [chunkEnd, hsize]
      exact matches_self _ _ _

theorem Landed.delete (h : Landed i b data s) (hr : s.runners.get? r = some x)
    (hrun : s'.runners = s.runners.erase r) (hnext : s'.files.next = s.files.next)
    (hmain : s'.main = s.main) (hdisk : s'.storage = s.storage)
    (ho : DestOpened i s' ↔ DestOpened i s)
    (hx : x.file = i → DestOpened i s ∧ Matches (s.storage.disk b) data x.offset x.chunkEnd) :
    Landed i b data s' := by
  refine ⟨fun hd => by rw [hdisk]; exact h.length (ho.mp hd), fun p hp => ?_⟩
  rcases h.bytes p hp with hn | hw | ⟨j, y, hy, hyi, hlow, hup⟩ | ⟨hd, hm⟩
  · exact .inl (hnext ▸ hn)
  · refine .inr (.inl ?_)
    unfold Awaits
    rw [hmain]
    exact hw
  · by_cases hj : j = r
    · subst hj
      rw [hr] at hy
      cases hy
      obtain ⟨hd, hm⟩ := hx hyi
      refine .inr (.inr (.inr ⟨ho.mpr hd, ?_⟩))
      rw [hdisk]
      intro q hq hq'
      exact hm q (by omega) (by omega)
    · exact .inr (.inr (.inl ⟨j, y, by rw [hrun, Store.get?_erase_of_ne hj, hy], hyi, hlow, hup⟩))
  · refine .inr (.inr (.inr ⟨ho.mpr hd, ?_⟩))
    rw [hdisk]
    exact hm

theorem destOpened_erase {j : ℕ} (hf : s'.files = s.files.erase j)
    (hj : j = i → DestOpened i s) : DestOpened i s' ↔ DestOpened i s := by
  have hnext : s'.files.next = s.files.next := by rw [hf, Store.next_erase]
  by_cases hij : i = j
  · refine iff_of_true ⟨?_, ?_⟩ (hj hij.symm)
    · rw [hnext]
      exact (hj hij.symm).1
    · rintro ⟨f, hget, -⟩
      rw [hf, hij, Store.get?_erase_self] at hget
      cases hget
  · unfold DestOpened DestNever
    rw [hnext, hf, Store.get?_erase_of_ne hij]

theorem DestOpened.of_file {f : JobFiles} (hf : s.files.get? i = some f)
    (hn : f.destFd.fd ≠ .neverOpened) : DestOpened i s := by
  refine ⟨Store.lt_next hf, ?_⟩
  rintro ⟨g, hg, hgn⟩
  rw [hf] at hg
  cases hg
  exact hn hgn

theorem landed_move (hm : Move cfg s l s') (hok : CopiesTo cfg i job a b s l)
    (h : CopyInv cfg i job a b s) (hctor : CtorFds s) (hdescs : Descs s) (hcomplete : Complete s)
    (hhandled : Handled s) (hrem : Remembers s) (hlen : data.length = job.stxSize) (hs : Sounds i b data s)
    (hl : Landed i b data s) : Erring s' ∨ Landed i b data s' := by
  have hsame : ∀ {st}, st = s.storage.disk b → Gains data (s.storage.disk b) st := fun he => .inl he
  cases hm with
  | walkError | record => exact .inl (.inl (append_ne_nil_of_right_ne_nil _ (cons_ne_nil _ _)))
  | addCopyJob hm => exact .inr (hl.addCopyJob hm _)
  | @ctorOpened j job' side f ino answers hm hf ho =>
    right
    have hP := hok.opens j side ino (opened_ctor hm hf ho)
    by_cases hdest : side = .dest ∧ j = i
    · obtain ⟨rfl, rfl⟩ := hdest
      have hn := (hctor j job' .dest .opening f hm hf).1 nofun
      refine hl.open rfl (by rw [hm]; rfl) rfl ⟨f, hf, hn⟩ ?_
      exact (disk_truncateOnOpen (h.wired.flags j f hf) _).trans (if_pos ⟨rfl, hP.1 rfl⟩)
    · refine hl.of_same rfl (by rw [hm]; rfl) (fun _ hc => hc) (destOpened_modify rfl fun hj f _ =>
        never_modifyFd fun hside => absurd ⟨hside, hj⟩ hdest) (hsame (disk_open h hf hP hdest))
  | @opened n r side x f ino answers hp hr hf ho =>
    right
    have hP := hok.opens x.file side ino (opened_ensure hp hr hf ho)
    by_cases hdest : side = .dest ∧ x.file = i
    · obtain ⟨rfl, hxi⟩ := hdest
      have hadm := h.fds.admitted r x f (by rw [hp]; rfl) hr hf
      rw [hp] at hadm
      refine hl.open rfl rfl rfl ⟨f, hxi ▸ hf, hadm.2⟩ ?_
      exact (disk_truncateOnOpen (h.wired.flags x.file f hf) _).trans (if_pos ⟨rfl, hP.1 hxi⟩)
    · exact hl.of_same rfl rfl (fun _ hc => hc) (destOpened_modify rfl fun hj f _ =>
        never_modifyFd fun hside => absurd ⟨hside, hj⟩ hdest) (hsame (disk_open h hf hP hdest))
  | ctorFailed hm =>
    exact .inr (hl.of_same rfl (by rw [hm]; rfl) (fun _ hc => hc) (destOpened_modify rfl fun _ f _ =>
      never_modifyFd (g := (·.failedOpen)) fun _ => Iff.rfl) (hsame rfl))
  | openFailed =>
    exact .inr (hl.of_same rfl rfl (fun _ hc => hc) (destOpened_modify rfl fun _ f _ =>
      never_modifyFd (g := (·.failedOpen)) fun _ => Iff.rfl) (hsame rfl))
  | close =>
    exact .inr (hl.of_same rfl rfl (fun _ hc => hc) (destOpened_modify rfl fun _ f _ =>
      never_modifyFd (g := (·.closedByKernel)) fun _ => Iff.rfl) (hsame rfl))
  | @notify caller r side result x f hp hr hf =>
    refine .inr (hl.of_same rfl rfl (fun _ hc => hc) (destOpened_modify rfl fun _ g hg =>
      never_modifyFd (g := (·.notifyClosed)) ?_) (hsame rfl))
    rintro rfl
    rw [hf] at hg
    cases hg
    have hopen := (hdescs.notify r .dest x f (by rw [hp]; rfl) hr hf).1
    refine iff_of_false nofun fun hn => ?_
    have hfd : f.destFd.isOpen = true := hopen
    rw [QueueFileDescriptor.isOpen, hn] at hfd
    cases hfd
  | @beginParts f job' hm =>
    have ho : DestOpened i { s with
        files := s.files.modify f fun y => { y with chunksRemaining := partCount cfg job' }
        main := .part f job' (partAt cfg.heap job' 0) .total } ↔ DestOpened i s :=
      destOpened_modify rfl fun _ _ _ => Iff.rfl
    refine .inr ⟨fun hd => hl.length (ho.mp hd), fun p hp => ?_⟩
    rcases hl.bytes p hp with hn | ⟨job'', part, hb, -⟩ | hc | ⟨hd, hmatch⟩
    · exact .inl hn
    · rw [hm] at hb
      cases hb
      refine .inr (.inl ⟨job', some (partAt cfg.heap job' 0), rfl, ?_⟩)
      rintro q ⟨⟩
      unfold partAt
      split <;> exact Nat.zero_le p
    · exact .inr (.inr (.inl hc))
    · exact .inr (.inr (.inr ⟨ho.mpr hd, hmatch⟩))
  | @partPush f job' q hm =>
    refine .inr (hl.push hlen hm fun hfi => ?_)
    obtain ⟨-, f', hf', hjob⟩ := h.shared.part f job' q (by rw [hm]; rfl)
    subst hfi
    exact hjob.symm.trans (h.file f' hf')
  | takeGive | batch =>
    exact .inr (hl.of_same rfl rfl (carried_modify rfl fun _ => ⟨rfl, rfl, rfl, rfl⟩)
      (destOpened_of_eq rfl) (hsame rfl))
  | completion =>
    exact .inr (hl.of_same rfl rfl (carried_modify rfl fun _ => onCompletionEvent_same.toSamePart)
      (destOpened_of_eq rfl) (hsame rfl))
  | @deleteShared r caller x f hp hr hf hj h1 =>
    by_cases hxi : x.file = i
    · rcases landed_delete h hs hcomplete hhandled hrem hp hr hf hxi with herr | ⟨hd, hmatch⟩
      · exact .inl herr
      · exact .inr (hl.delete hr rfl rfl rfl rfl (destOpened_modify rfl fun _ _ _ => Iff.rfl)
          fun _ => ⟨.of_file (hxi ▸ hf) hd, hmatch⟩)
    · exact .inr (hl.delete hr rfl rfl rfl rfl (destOpened_modify rfl fun _ _ _ => Iff.rfl)
        fun hc => absurd hc hxi)
  | @deleteLast r caller x f hp hr hf hj h1 =>
    by_cases hxi : x.file = i
    · rcases landed_delete h hs hcomplete hhandled hrem hp hr hf hxi with herr | ⟨hd, hmatch⟩
      · exact .inl herr
      · have hopen : DestOpened i s := .of_file (hxi ▸ hf) hd
        exact .inr (hl.delete hr rfl rfl rfl rfl (destOpened_erase rfl fun _ => hopen)
          fun _ => ⟨hopen, hmatch⟩)
    · exact .inr (hl.delete hr rfl rfl rfl rfl (destOpened_erase rfl fun hc => absurd hc hxi)
        fun hc => absurd hc hxi)
  | kernel hi hc =>
    exact .inr (hl.of_same rfl rfl (fun _ hc => hc) (destOpened_of_eq rfl)
      (gains_kernel h hs hlen hi hc))
  | @otherProcess ino content =>
    refine .inr (hl.of_same rfl rfl (fun _ hc => hc) (destOpened_of_eq rfl) (hsame ?_))
    exact Function.update_of_ne (hok.alone ino content rfl).2.symm _ _
  | joinFinish hm =>
    refine .inr (hl.of_same rfl ?_ (fun _ hc => hc) (destOpened_of_eq rfl) (hsame rfl))
    rcases hm with hm | ⟨hm, -⟩ <;> rw [hm] <;> rfl
  | _ =>
    right
    first
    | exact hl.of_same rfl rfl (fun _ hc => hc) (destOpened_of_eq rfl) (hsame rfl)
    | (have hm := ‹s.main = _›
       exact hl.of_same rfl (by rw [hm]; rfl) (fun _ hc => hc) (destOpened_of_eq rfl) (hsame rfl))

/-! ## Runs -/

theorem reachIn_landed (hacc : Accepted cfg.heap job) (hab : a ≠ b)
    (hsize : (storage.disk a).length = job.stxSize)
    (h : (systemFrom cfg storage).ReachIn (CopiesTo cfg i job a b) s) :
    Sounds i b (storage.disk a) s ∧ (Erring s ∨ Landed i b (storage.disk a) s) := by
  have hb : 0 < cfg.heap.blockSize := hacc.blksize_pos.trans_le hacc.blksize_le
  refine h.invariant (P := fun s => Sounds i b (storage.disk a) s ∧
    (Erring s ∨ Landed i b (storage.disk a) s)) ?_ fun s l s' hr hs hok hstep => ?_
  · rintro s rfl
    constructor
    · intro r x hx
      cases hx
    · exact .inr ⟨fun hd => absurd hd.1 (Nat.not_lt_zero i), fun p _ => .inl (Nat.zero_le i)⟩
  · have hreach := reachIn_of_systemFrom hr
    have hinv := reachIn_copyInv hb hreach
    have hdata := reachIn_spared (fun _ _ hl => hl.spares hab) hr
    have hm := (step_move hstep).2
    refine ⟨sounds_move hm hok hinv hsize hdata hs.1, ?_⟩
    rcases hs.2 with herr | hl
    · exact .inl (erring_move hm hinv.threads herr)
    · exact landed_move hm hok hinv (reachable_ctorFds hreach) (reachable_descs hreach)
        (reachable_complete hreach) (reachable_handled hreach) (reachable_remembers hreach) hsize hs.1 hl

/-- The objects of a file are gone when its runners are. -/
theorem file_gone (h : State.SharedFiles cfg s)
    (hbuilt : ∀ p, building s.main = some p → p.1 ≠ i)
    (hgone : ∀ r x, s.runners.get? r = some x → x.file ≠ i) : s.files.get? i = none := by
  by_contra hsome
  obtain ⟨f, hf⟩ := Option.ne_none_iff_exists'.mp hsome
  have hnone : runnersOf s.runners i = 0 :=
    Store.sum_eq_zero fun r x hx => if_neg (hgone r x hx)
  have hparts : pendingParts cfg (building s.main) i = 0 := by
    unfold pendingParts
    split
    · rename_i j job' q hb
      exact if_neg (hbuilt _ hb)
    · rfl
  have hchunks := h.chunks i f hf
  rcases h.pos i f hf with hpos | ⟨job', hb⟩
  · omega
  · exact hbuilt _ hb rfl

/-- **Copy correctness.** File number `i` of a queue copies the file `a`, of the size its job says, to
the file `b`. In every run, with any of the debug modes and whatever `rand()` returns, however the
threads are interleaved, whatever part of a request the kernel transfers and in whatever order it
completes them: when the file has been added, all its runners have been destroyed, and no error was
recorded (nor is the submit thread in `onError` for the runner it has just destroyed), the destination
is exactly the source. -/
theorem copied_exactly (hacc : Accepted cfg.heap job) (hab : a ≠ b)
    (hsize : (storage.disk a).length = job.stxSize)
    (h : (systemFrom cfg storage).ReachIn (CopiesTo cfg i job a b) s)
    (hadded : i < s.files.next) (hbuilt : ∀ p, building s.main = some p → p.1 ≠ i)
    (hgone : ∀ r x, s.runners.get? r = some x → x.file ≠ i)
    (hrecorded : s.recorded = []) (hrecording : ∀ e n, s.submit ≠ .recording e (.addFailed n)) :
    s.storage.disk b = storage.disk a := by
  obtain ⟨-, (hne | ⟨e, n, hp⟩) | hl⟩ := reachIn_landed hacc hab hsize h
  · exact absurd hrecorded hne
  · exact absurd hp (hrecording e n)
  · have hnone := file_gone (reachable_sharedFiles (reachIn_of_systemFrom h)) hbuilt hgone
    have hopened : DestOpened i s := by
      refine ⟨hadded, ?_⟩
      rintro ⟨f, hf, -⟩
      rw [hnone] at hf
      cases hf
    refine eq_of_matches (hl.length hopened) fun p _ hp => ?_
    rcases hl.bytes p hp with hn | ⟨job', part, hb, -⟩ | ⟨r, x, hx, hxi, -⟩ | ⟨-, hm⟩
    · omega
    · exact absurd rfl (hbuilt _ hb)
    · exact absurd hxi (hgone r x hx)
    · exact hm p le_rfl (Nat.lt_succ_self p)

/-- A check that implies `CopiesTo`, for the only file of a queue. -/
def copiesToCheck (cfg : Config) (job : Job) (a b : Ino) (s : State) (l : Label) : Bool :=
  acceptsAllCheck s l && (opened cfg s l).all (fun o => decide (o = (0, .source, a) ∨ o = (0, .dest, b)))
    && match l with
      | .addCopyJob job' => decide (job' = job)
      | .otherProcess _ _ => false
      | .kernel c res => s.chains[c]?.all fun chain => chain.reqs.head?.all fun e =>
        (s.runners.get? e.runner).all fun x => (s.files.get? x.file).all fun f =>
          decide (res ≤ (f.job.stxSize - e.off : ℕ))
      | _ => true

theorem copiesTo_of_check (hacc : Accepted cfg.heap job) (s : State) (l : Label)
    (h : copiesToCheck cfg job a b s l = true) : CopiesTo cfg 0 job a b s l := by
  unfold copiesToCheck at h
  simp only [Bool.and_eq_true] at h
  obtain ⟨⟨haccepts, hopens⟩, hl⟩ := h
  refine ⟨⟨acceptsAll_of_check s l haccepts, ?_, ?_⟩, ?_, ?_, ?_⟩
  · rintro job' rfl
    rw [of_decide_eq_true hl]
    exact hacc
  · rintro c res chain e rest x f rfl hc - hreqs - hx hf
    simp only [hc, hreqs, hx, hf, Option.all_some, head?_cons] at hl
    exact of_decide_eq_true hl
  · rintro job' rfl -
    exact of_decide_eq_true hl
  · intro j side ino ho
    rw [ho, Option.all_some, decide_eq_true_eq] at hopens
    rcases hopens with heq | heq
    · cases heq
      exact fun _ => rfl
    · cases heq
      exact ⟨fun _ => rfl, fun hne => absurd rfl hne⟩
  · rintro ino content rfl
    cases hl

theorem copied_exactly_wholeCopy : ∃ s, (systemFrom smallConfig (smallStorage 8)).ReachIn
      (CopiesTo smallConfig 0 (smallJob 8) 1 2) s ∧ s.submit = .seen ∧
    s.storage.disk 2 = List.replicate 8 7 := by
  have hcheck : ∀ s l, copiesToCheck smallConfig (smallJob 8) 1 2 s l = true →
      CopiesTo smallConfig 0 (smallJob 8) 1 2 s l := copiesTo_of_check (smallJob_accepted 8)
  obtain ⟨s, hs, hp⟩ := Transition.System.ReachIn.exists_of_runIn hcheck
    (S := systemFrom smallConfig (smallStorage 8)) rfl (wholeCopySteps ++ ticks 1)
    (fun s => decide (s.submit = .seen ∧ s.recorded = [] ∧ s.files.next = 1 ∧ s.runners.next = 1) &&
      (building s.main).isNone && (s.runners.get? 0).isNone)
    (by decide +kernel)
  simp only [Bool.and_eq_true, decide_eq_true_eq, Option.isNone_iff_eq_none] at hp
  obtain ⟨⟨⟨hpc, hrec, hfiles, hrunners⟩, hmain⟩, hnone⟩ := hp
  refine ⟨s, hs, hpc, ?_⟩
  refine copied_exactly (smallJob_accepted 8) (by decide) rfl hs (by omega) (by rw [hmain]; nofun) ?_
    hrec (by rw [hpc]; nofun)
  intro r x hx
  have hlt := Store.lt_next hx
  obtain rfl : r = 0 := by omega
  rw [hnone] at hx
  cases hx

end CopyQueue

end Wcp
