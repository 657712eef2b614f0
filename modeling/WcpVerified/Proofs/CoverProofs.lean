import WcpVerified.Proofs.ErrorProofs
import WcpVerified.Proofs.FlightProofs

/-!
# Proofs: the runners of a file cover it

Every byte of a file that has been added belongs to the chunk of a runner, alive or destroyed since
the last `join`. While the main thread is still adding the file, the bytes from the next part on do
not yet.
-/

namespace Wcp

namespace CopyQueue

variable {cfg : Config} {s s' : State} {l : Label} {i p : ℕ} {job : Job}

/-- A runner created since the last `join`, as it is or as it was when it was destroyed. -/
def Created (s : State) (x : CopyRunner) : Prop :=
  x ∈ s.destroyed ∨ ∃ r, s.runners.get? r = some x

/-- Byte `p` of file `i` is in the chunk of a runner. -/
def Covers (i p : ℕ) (s : State) : Prop :=
  ∃ x, Created s x ∧ x.file = i ∧ x.offset ≤ p ∧ p < x.chunkEnd

/-- No runner of file `i` has been created since the last `join`, and none is going to be. -/
def Absent (i : ℕ) (s : State) : Prop :=
  (∀ x, Created s x → x.file ≠ i) ∧ ∀ b, building s.main = some b → b.1 ≠ i

/-- The main thread has yet to create the runner of byte `p` of file `i`. -/
def Awaits (i p : ℕ) (s : State) : Prop :=
  ∃ job part, building s.main = some (i, job, part) ∧ ∀ q, part = some q → q.offset ≤ p

/-- Every byte of file `i` has a runner, or is still to get one. -/
def Covered (i : ℕ) (job : Job) (s : State) : Prop :=
  ∀ p < job.stxSize, Awaits i p s ∨ Covers i p s ∨ Absent i s

/-- The runners are the same, up to what they do not share with their chunks. -/
structure SameCreated (s s' : State) : Prop where
  into : ∀ x, Created s x → ∃ x', Created s' x' ∧ x.SamePart x'
  back : ∀ x', Created s' x' → ∃ x, Created s x ∧ x.SamePart x'

namespace SameCreated

theorem of_eq (hr : s'.runners = s.runners) (hd : s'.destroyed = s.destroyed) : SameCreated s s' := by
  have h : ∀ x, Created s' x ↔ Created s x := fun x => by rw [Created, Created, hr, hd]
  exact ⟨fun x hx => ⟨x, (h x).mpr hx, .refl x⟩, fun x hx => ⟨x, (h x).mp hx, .refl x⟩⟩

theorem modify {j : ℕ} {g : CopyRunner → CopyRunner} (hr : s'.runners = s.runners.modify j g)
    (hd : s'.destroyed = s.destroyed) (hg : ∀ x : CopyRunner, x.SamePart (g x)) :
    SameCreated s s' where
  into := by
    rintro x (hx | ⟨r, hx⟩)
    · exact ⟨x, .inl (hd ▸ hx), .refl x⟩
    · by_cases hrj : r = j
      · subst hrj
        exact ⟨g x, .inr ⟨r, hr ▸ Store.get?_modify_self hx⟩, hg x⟩
      · exact ⟨x, .inr ⟨r, by rw [hr, Store.get?_modify_of_ne hrj, hx]⟩, .refl x⟩
  back := by
    rintro x' (hx' | ⟨r, hx'⟩)
    · exact ⟨x', .inl (hd ▸ hx'), .refl x'⟩
    · rw [hr] at hx'
      obtain ⟨x, hx, hsame⟩ := same_modify hg r x' hx'
      exact ⟨x, .inr ⟨r, hx⟩, hsame⟩

theorem delete {r : ℕ} {x : CopyRunner} (hx : s.runners.get? r = some x)
    (hr : s'.runners = s.runners.erase r) (hd : s'.destroyed = s.destroyed ++ [x]) :
    SameCreated s s' where
  into := by
    rintro y (hy | ⟨j, hy⟩)
    · exact ⟨y, .inl (by rw [hd]; exact List.mem_append_left _ hy), .refl y⟩
    · by_cases hj : j = r
      · subst hj
        rw [hx] at hy
        cases hy
        exact ⟨x, .inl (by rw [hd]; exact List.mem_append_right _ (List.mem_singleton_self x)), .refl x⟩
      · exact ⟨y, .inr ⟨j, by rw [hr, Store.get?_erase_of_ne hj, hy]⟩, .refl y⟩
  back := by
    rintro y (hy | ⟨j, hy⟩)
    · rw [hd] at hy
      rcases List.mem_append.mp hy with hy | hy
      · exact ⟨y, .inl hy, .refl y⟩
      · rw [List.mem_singleton] at hy
        exact ⟨x, .inr ⟨r, hx⟩, hy ▸ .refl x⟩
    · rw [hr] at hy
      exact ⟨y, .inr ⟨j, (Store.of_get?_erase hy).2⟩, .refl y⟩

theorem covers (h : SameCreated s s') (hc : Covers i p s) : Covers i p s' := by
  obtain ⟨x, hx, hi, hlow, hup⟩ := hc
  obtain ⟨x', hx', hsame⟩ := h.into x hx
  exact ⟨x', hx', hsame.file.trans hi, hsame.offset ▸ hlow, hsame.chunkEnd ▸ hup⟩

theorem absent (h : SameCreated s s') (hb : ∀ b, building s'.main = some b → b.1 ≠ i)
    (ha : Absent i s) : Absent i s' := by
  refine ⟨fun x' hx' hi => ?_, hb⟩
  obtain ⟨x, hx, hsame⟩ := h.back x' hx'
  exact ha.1 x hx (hsame.file.symm.trans hi)

end SameCreated

theorem Covered.of_same (h : Covered i job s) (hs : SameCreated s s')
    (hb : building s'.main = building s.main) : Covered i job s' := by
  intro p hp
  rcases h p hp with hw | hc | ha
  · exact .inl (by rwa [Awaits, hb])
  · exact .inr (.inl (hs.covers hc))
  · exact .inr (.inr (hs.absent (by rw [hb]; exact ha.2) ha))

/-- A runner is created for the next part. -/
theorem Covered.push {f : ℕ} {job' : Job} {q : Part} (h : Covered i job s)
    (hm : s.main = .part f job' q .push) (hf : f = i → job' = job) :
    Covered i job (partStep cfg f job' q .push s) := by
  have hsame : ∀ x, Created s x → Created (partStep cfg f job' q .push s) x := by
    rintro x (hx | ⟨r, hx⟩)
    · exact .inl hx
    · exact .inr ⟨r, Store.get?_push_of_some hx⟩
  have hnew : Created (partStep cfg f job' q .push s) (.create f q.offset q.size q.alignment) :=
    .inr ⟨s.runners.next, Store.get?_push_self⟩
  intro p hp
  rcases h p hp with ⟨job'', part, hb, hle⟩ | ⟨x, hx, hc⟩ | ⟨ha, hna⟩
  · rw [hm] at hb
    obtain ⟨rfl, rfl, rfl⟩ : f = i ∧ job' = job'' ∧ some q = part := by simpa [building] using hb
    have hjob := hf rfl
    subst hjob
    by_cases hlt : p < q.offset + q.size
    · exact .inr (.inl ⟨_, hnew, rfl, hle q rfl, hlt⟩)
    · -- the byte belongs to a later part
      refine .inl ⟨job', some (partAt cfg.heap job' (q.offset + q.size)), ?_, ?_⟩
      · simp only [partStep]
        rw [if_neg (by omega)]
        rfl
      · rintro q' ⟨⟩
        rw [partAt_offset (by omega)]
        omega
  · exact .inr (.inl ⟨x, hsame x hx, hc⟩)
  · have hne : f ≠ i := hna (f, job', some q) (by rw [hm]; rfl)
    refine .inr (.inr ⟨?_, ?_⟩)
    · rintro x (hx | ⟨r, hx⟩)
      · exact ha x (.inl hx)
      · rcases Store.of_get?_push hx with ⟨-, rfl⟩ | ⟨-, hx⟩
        · exact hne
        · exact ha x (.inr ⟨r, hx⟩)
    · intro b hb
      simp only [partStep] at hb
      split at hb
      · cases hb
      · cases hb
        exact hne

theorem covered_move (hm : Move cfg s l s') (ht : Threads cfg s) (hsh : State.SharedFiles cfg s)
    (hcounts : Counts s) (hf : IsFile i job s) (h : Covered i job s) : Covered i job s' := by
  cases hm with
  | @addCopyJob job' hm =>
    intro p hp
    by_cases hi : s.files.next = i
    · exact .inl ⟨_, none, by rw [← hi]; rfl, nofun⟩
    · have hsame : SameCreated s (beginCopyJob job' s) := .of_eq rfl rfl
      rcases h p hp with ⟨job'', part, hb, -⟩ | hc | ha
      · rw [hm] at hb
        cases hb
      · exact .inr (.inl (hsame.covers hc))
      · refine .inr (.inr (hsame.absent ?_ ha))
        rintro b ⟨⟩
        exact hi
  | @beginParts f job' hm =>
    intro p hp
    have hsame : SameCreated s { s with
        files := s.files.modify f fun y => { y with chunksRemaining := partCount cfg job' }
        main := .part f job' (partAt cfg.heap job' 0) .total } := .of_eq rfl rfl
    rcases h p hp with ⟨job'', part, hb, -⟩ | hc | ha
    · rw [hm] at hb
      cases hb
      refine .inl ⟨job', some (partAt cfg.heap job' 0), rfl, ?_⟩
      rintro q ⟨⟩
      unfold partAt
      split
      · exact Nat.zero_le p
      · exact Nat.zero_le p
    · exact .inr (.inl (hsame.covers hc))
    · refine .inr (.inr (hsame.absent ?_ ha))
      rintro b ⟨⟩
      exact ha.2 (f, job', none) (by rw [hm]; rfl)
  | @partPush f job' q hm =>
    refine h.push hm fun hfi => ?_
    obtain ⟨-, f', hf', hjob⟩ := hsh.part f job' q (by rw [hm]; rfl)
    subst hfi
    exact hjob.symm.trans (hf f' hf')
  | joinFinish hm hp =>
    intro p hp'
    have hd := isDone_of_joinFinish ht hm hp
    refine .inr (.inr ⟨?_, by rintro b ⟨⟩⟩)
    rintro x (hx | ⟨r, hx⟩)
    · exact absurd hx List.not_mem_nil
    · have hnone := hcounts.none_of_isDone hd r
      have hx : s.runners.get? r = some x := hx
      rw [hnone] at hx
      cases hx
  | takeGive | batch => exact h.of_same (.modify rfl rfl fun _ => ⟨rfl, rfl, rfl, rfl⟩) rfl
  | completion =>
    exact h.of_same (.modify rfl rfl fun _ => CopyRunner.onCompletionEvent_same.toSamePart) rfl
  | deleteShared hp hr | deleteLast hp hr => exact h.of_same (.delete hr rfl rfl) rfl
  | _ =>
    first
    | exact h.of_same (.of_eq rfl rfl) rfl
    | (have hm := ‹s.main = _›
       exact h.of_same (.of_eq rfl rfl) (by rw [hm]; rfl))

theorem reachIn_covered {ok : State → Label → Prop}
    (hok : ∀ s l, ok s l → ∀ job', l = .addCopyJob job' → s.files.next = i → job' = job)
    (h : (system cfg).ReachIn ok s) : Covered i job s := by
  refine h.invariant ?_ fun s l s' hr hs hc hstep => covered_move (step_move hstep).2
    (reachable_threads hr) (reachable_sharedFiles hr) (reachable_owned hr).2 (reachIn_isFile hok hr) hs
  rintro s ⟨storage, rfl⟩ p -
  refine .inr (.inr ⟨?_, by rintro b ⟨⟩⟩)
  rintro x (hx | ⟨r, hx⟩)
  · exact absurd hx List.not_mem_nil
  · cases hx

/-- When all runners of a file have been destroyed, every byte of it was in the chunk of one. -/
theorem Covered.destroyed (h : Covered i job s) (hadded : ∀ b, building s.main = some b → b.1 ≠ i)
    (hlive : ∀ r x, s.runners.get? r = some x → x.file ≠ i) {y : CopyRunner} (hy : y ∈ s.destroyed)
    (hyi : y.file = i) (hp : p < job.stxSize) :
    ∃ x ∈ s.destroyed, x.file = i ∧ x.offset ≤ p ∧ p < x.chunkEnd := by
  rcases h p hp with ⟨job', part, hb, -⟩ | ⟨x, hx | ⟨r, hx⟩, hi, hc⟩ | ha
  · exact absurd rfl (hadded _ hb)
  · exact ⟨x, hx, hi, hc⟩
  · exact absurd hi (hlive r x hx)
  · exact absurd hyi (ha.1 y (.inl hy))

end CopyQueue

end Wcp
