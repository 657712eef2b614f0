import WcpVerified.Proofs.WalkStepProofs

/-!
# Proofs: when the iteration over a directory ends

The `do` loop over a directory goes on while `written` is not 0. A call of `myGetDents` that fails
leaves `written` as the call before it has set it, so the loop ends only when the first call fails or
some call reads nothing: a directory that fails for good after its first entries were read is read
again for ever.
-/

namespace Wcp

namespace Walk

open List

variable (fs : FileSystem) (strerror : Errno → List Char) (fromDir dest current : Path)

/-- What a call of `myGetDents` on the directory returns. -/
def outcome (calls : ℕ) : Except Error (List Dirent) :=
  myGetDents strerror current (fs.getdents current calls)

/-- An assertion of `recursiveMkdir` fails for the entry, and the process ends. -/
def Aborts (d : Dirent) : Prop :=
  TakenFor fs strerror current d .dir ∧ d.dName ∉ [['.'], ['.', '.']] ∧
    recursiveMkdir fs.mkdir fs.stat64 (destPath fromDir dest (current ++ d.dName)) = false

/-- No entry that the first `k` calls return ends the process. -/
def AbortFree (k : ℕ) : Prop :=
  ∀ j < k, ∀ ds, outcome fs strerror current j = .ok ds → ∀ d ∈ ds,
    ¬ Aborts fs strerror fromDir dest current d

/-- The iteration over the directory is left after some turns. The directories that were on the stack
are still on it, and every call made on the way that failed was reported. -/
def IterationEnds (ops : List WalkOp) (rest : List Path) : Prop :=
  ∃ n, ((step fs strerror fromDir dest)^[n] ⟨ops, rest, .reading current 0 0⟩).pc = .next ∧
    rest <:+ ((step fs strerror fromDir dest)^[n] ⟨ops, rest, .reading current 0 0⟩).directoryStack ∧
    ∀ m < n, ∀ calls written e,
      ((step fs strerror fromDir dest)^[m] ⟨ops, rest, .reading current 0 0⟩).pc =
        .reading current calls written → outcome fs strerror current calls = .error e →
      .onError current e ∈
        ((step fs strerror fromDir dest)^[n] ⟨ops, rest, .reading current 0 0⟩).ops

variable {fs strerror fromDir dest current} {s s' : WalkState} {d : Dirent}

/-! ## One turn -/

theorem walkEntry_pc_of_aborts (h : Aborts fs strerror fromDir dest current d) :
    (walkEntry fs strerror fromDir dest current d s).pc = .aborted := by
  obtain ⟨⟨sb, hc⟩, hn, hmk⟩ := h
  have hn' : d.dName ≠ ['.'] ∧ d.dName ≠ ['.', '.'] := by simpa using hn
  simp only [walkEntry, hc, dispatch, if_pos hn', hmk, Bool.false_eq_true, if_false]

theorem walkEntry_pc_of_not_aborts (h : ¬ Aborts fs strerror fromDir dest current d) :
    (walkEntry fs strerror fromDir dest current d s).pc = s.pc := by
  rw [walkEntry]
  cases hc : classify fs strerror (current ++ d.dName) d with
  | error e => rfl
  | ok p =>
    obtain ⟨type, sb⟩ := p
    show (dispatch _ _ _ _ _ type sb s).pc = s.pc
    unfold dispatch
    split
    · by_cases hn : d.dName ≠ ['.'] ∧ d.dName ≠ ['.', '.']
      · rw [if_pos hn]
        by_cases hmk : recursiveMkdir fs.mkdir fs.stat64
            (destPath fromDir dest (current ++ d.dName)) = true
        · simp only [if_pos hmk]
          rfl
        · exact absurd ⟨⟨sb, hc⟩, by simpa using hn, by simpa using hmk⟩ h
      · rw [if_neg hn]
    · dsimp only
      split <;> rfl
    · unfold copyLink
      split
      · rfl
      · dsimp only
        split <;> rfl
    · rfl

/-- What is on the stack stays on it. -/
theorem walkEntry_suffix : s.directoryStack <:+
    (walkEntry fs strerror fromDir dest current d s).directoryStack := by
  rcases walkEntry_stack fs strerror fromDir dest current d s with h | ⟨h, -⟩
  · exact ⟨[], h.symm⟩
  · rw [h]
    exact suffix_cons _ _

theorem record_ops (op : WalkOp) (s : WalkState) : s.ops <+: (record op s).ops := prefix_append _ _

/-- What was done stays done. -/
theorem walkEntry_ops (fs : FileSystem) (strerror : Errno → List Char)
    (fromDir dest current : Path) (d : Dirent) (s : WalkState) :
    s.ops <+: (walkEntry fs strerror fromDir dest current d s).ops := by
  rw [walkEntry]
  cases classify fs strerror (current ++ d.dName) d with
  | error e => exact record_ops _ s
  | ok p =>
    obtain ⟨type, sb⟩ := p
    show s.ops <+: (dispatch _ _ _ _ _ type sb s).ops
    unfold dispatch
    split
    · split
      · dsimp only
        split <;> exact record_ops _ s
      · exact prefix_rfl
    · dsimp only
      split <;> exact record_ops _ s
    · unfold copyLink
      split
      · exact record_ops _ s
      · dsimp only
        split
        · exact record_ops _ s
        · exact (record_ops _ s).trans (record_ops _ _)
    · exact record_ops _ s

theorem step_ops (s : WalkState) : s.ops <+: (step fs strerror fromDir dest s).ops := by
  unfold step
  split
  · split
    · exact prefix_rfl
    · split
      · exact record_ops _ s
      · exact prefix_rfl
  · split
    · exact record_ops _ s
    · exact prefix_rfl
  · exact prefix_rfl
  · rename_i current calls written d left _
    exact walkEntry_ops fs strerror fromDir dest current d
      { s with pc := .entries current calls written left }
  · exact prefix_rfl
  · exact prefix_rfl

theorem iterate_ops (n : ℕ) (s : WalkState) :
    s.ops <+: ((step fs strerror fromDir dest)^[n] s).ops := by
  induction n with
  | zero => exact prefix_rfl
  | succ n ih =>
    rw [Function.iterate_succ_apply']
    exact ih.trans (step_ops _)

/-- A call that the walk makes in its next turn fails, for the directory or entry `path`, and `e` is what
is returned for it. (Where `mkdir` or `stat64` fails, an assertion does.) -/
inductive Fails (fs : FileSystem) (strerror : Errno → List Char) (fromDir dest : Path) (s : WalkState) :
    Path → Error → Prop where
  | openDir {current : Path} {rest : List Path} {e : Error} (hpc : s.pc = .next)
      (hs : s.directoryStack = current :: rest)
      (h : myOpen strerror current { directory := true } (fs.openDir current) = .error e) :
      Fails fs strerror fromDir dest s current e
  | getdents {current : Path} {calls written : ℕ} {e : Error}
      (hpc : s.pc = .reading current calls written)
      (h : myGetDents strerror current (fs.getdents current calls) = .error e) :
      Fails fs strerror fromDir dest s current e
  | statxUnknown {current : Path} {calls written : ℕ} {d : Dirent} {left : List Dirent} {e : Error}
      (hpc : s.pc = .entries current calls written (d :: left)) (hu : d.dType = .unknown)
      (h : myStatx strerror (current ++ d.dName) (fs.statx (current ++ d.dName)) = .error e) :
      Fails fs strerror fromDir dest s (current ++ d.dName) e
  | statxFile {current : Path} {calls written : ℕ} {d : Dirent} {left : List Dirent} {e : Error}
      (hpc : s.pc = .entries current calls written (d :: left)) (hr : d.dType = .reg)
      (h : myStatx strerror (current ++ d.dName) (fs.statx (current ++ d.dName)) = .error e) :
      Fails fs strerror fromDir dest s (current ++ d.dName) e
  | readlink {current : Path} {calls written : ℕ} {d : Dirent} {left : List Dirent} {e : Error}
      {sb : Option Statx} (hpc : s.pc = .entries current calls written (d :: left))
      (hc : classify fs strerror (current ++ d.dName) d = .ok (.lnk, sb))
      (h : myReadlink strerror (current ++ d.dName) (fs.readlink (current ++ d.dName)) = .error e) :
      Fails fs strerror fromDir dest s (current ++ d.dName) e
  | symlink {current linkDest : Path} {calls written : ℕ} {d : Dirent} {left : List Dirent}
      {errno : Errno} {sb : Option Statx} (hpc : s.pc = .entries current calls written (d :: left))
      (hc : classify fs strerror (current ++ d.dName) d = .ok (.lnk, sb))
      (hr : myReadlink strerror (current ++ d.dName) (fs.readlink (current ++ d.dName)) = .ok linkDest)
      (h : retrySyscall (fs.symlink linkDest (destPath fromDir dest (current ++ d.dName))) =
        .error errno) :
      Fails fs strerror fromDir dest s (current ++ d.dName)
        ⟨"Error copying symlink: \"".toList ++ (current ++ d.dName) ++ "\"".toList⟩

theorem mem_record_ops (op : WalkOp) (s : WalkState) : op ∈ (record op s).ops :=
  mem_append_right _ (mem_singleton_self op)

/-- A turn reports the call that fails in it. -/
theorem step_fails {path : Path} {e : Error} (h : Fails fs strerror fromDir dest s path e) :
    .onError path e ∈ (step fs strerror fromDir dest s).ops := by
  cases h with
  | openDir hpc hs h =>
    simp only [step, hpc, hs, h]
    exact mem_record_ops _ _
  | getdents hpc h =>
    simp only [step, hpc, h]
    exact mem_record_ops _ _
  | statxUnknown hpc hu h =>
    simp only [step, hpc, walkEntry, classify, if_pos hu, h]
    exact mem_record_ops _ _
  | statxFile hpc hr h =>
    have hu : ¬ DType.reg = .unknown := by decide
    simp only [step, hpc, walkEntry, classify, hr, if_neg hu, dispatch, h]
    exact mem_record_ops _ _
  | readlink hpc hc h =>
    simp only [step, hpc, walkEntry, hc, dispatch, copyLink, h]
    exact mem_record_ops _ _
  | symlink hpc hc hr h =>
    simp only [step, hpc, walkEntry, hc, dispatch, copyLink, hr, h]
    exact mem_record_ops _ _

/-- What has failed in some turn is still reported later. -/
theorem iterate_fails {path : Path} {e : Error} {k n : ℕ} (hk : k < n)
    (h : Fails fs strerror fromDir dest ((step fs strerror fromDir dest)^[k] s) path e) :
    .onError path e ∈ ((step fs strerror fromDir dest)^[n] s).ops := by
  obtain ⟨j, rfl⟩ := Nat.exists_eq_add_of_le' (Nat.succ_le_of_lt hk)
  rw [Function.iterate_add_apply, Function.iterate_succ_apply']
  exact (iterate_ops j _).subset (step_fails h)

/-- A call that fails is reported in its turn. -/
theorem step_failed {calls written : ℕ} {e : Error} (hpc : s.pc = .reading current calls written)
    (h : outcome fs strerror current calls = .error e) : step fs strerror fromDir dest s =
      record (.onError current e) { s with pc := afterBatch current (calls + 1) written } := by
  rw [outcome] at h
  rw [step, hpc]
  simp only [h]

theorem step_read {calls written : ℕ} {ds : List Dirent}
    (hpc : s.pc = .reading current calls written)
    (h : outcome fs strerror current calls = .ok ds) : step fs strerror fromDir dest s =
      { s with pc := .entries current (calls + 1) ds.length ds } := by
  rw [outcome] at h
  rw [step, hpc]
  simp only [h]

theorem step_buffer {calls written : ℕ} (hpc : s.pc = .entries current calls written []) :
    step fs strerror fromDir dest s = { s with pc := afterBatch current calls written } := by
  rw [step, hpc]

/-! ## The loop ends -/

/-- The entries of a buffer, when none of them ends the process. -/
theorem entries_run {calls written : ℕ} {left : List Dirent}
    (h : ∀ d ∈ left, ¬ Aborts fs strerror fromDir dest current d)
    (hpc : s.pc = .entries current calls written left) :
    ∃ n, ((step fs strerror fromDir dest)^[n] s).pc = .entries current calls written [] ∧
      s.directoryStack <:+ ((step fs strerror fromDir dest)^[n] s).directoryStack := by
  induction left generalizing s with
  | nil => exact ⟨0, hpc, suffix_rfl⟩
  | cons d left ih =>
    have hstep : step fs strerror fromDir dest s = walkEntry fs strerror fromDir dest current d
        { s with pc := .entries current calls written left } := by
      rw [step, hpc]
    have hnext : (step fs strerror fromDir dest s).pc = .entries current calls written left := by
      rw [hstep, walkEntry_pc_of_not_aborts (h d mem_cons_self)]
    obtain ⟨n, hn, hsuf⟩ := ih (fun d' hd' => h d' (mem_cons_of_mem _ hd')) hnext
    refine ⟨n + 1, hn, ?_⟩
    have hfirst : s.directoryStack <:+ (step fs strerror fromDir dest s).directoryStack := by
      rw [hstep]
      exact walkEntry_suffix (s := { s with pc := .entries current calls written left })
    exact hfirst.trans hsuf

/-- A turn of the `do` loop that has not just read nothing goes on with the next call. -/
theorem reading_run {calls written : ℕ} (hpc : s.pc = .reading current calls written)
    (hwritten : written ≠ 0 ∨ ∃ ds, outcome fs strerror current calls = .ok ds)
    (hne : outcome fs strerror current calls ≠ .ok [])
    (h : ∀ ds, outcome fs strerror current calls = .ok ds → ∀ d ∈ ds,
      ¬ Aborts fs strerror fromDir dest current d) :
    ∃ n written', written' ≠ 0 ∧
      ((step fs strerror fromDir dest)^[n] s).pc = .reading current (calls + 1) written' ∧
      s.directoryStack <:+ ((step fs strerror fromDir dest)^[n] s).directoryStack := by
  cases hout : outcome fs strerror current calls with
  | error e =>
    have hw : written ≠ 0 := by
      rcases hwritten with hw | ⟨ds, hds⟩
      · exact hw
      · rw [hds] at hout
        cases hout
    refine ⟨1, written, hw, ?_, ?_⟩
    · show (step fs strerror fromDir dest s).pc = _
      rw [step_failed hpc hout]
      exact if_pos hw
    · show s.directoryStack <:+ (step fs strerror fromDir dest s).directoryStack
      rw [step_failed hpc hout]
      exact suffix_rfl
  | ok ds =>
    have hds : ds.length ≠ 0 := by
      intro h0
      rw [length_eq_zero_iff.mp h0] at hout
      exact hne hout
    have hread : step fs strerror fromDir dest s =
        { s with pc := .entries current (calls + 1) ds.length ds } := step_read hpc hout
    have hentries : (step fs strerror fromDir dest s).pc =
        .entries current (calls + 1) ds.length ds := by rw [hread]
    obtain ⟨n, hn, hsuf⟩ := entries_run (h ds hout) hentries
    refine ⟨n + 1 + 1, ds.length, hds, ?_, ?_⟩
    · rw [Function.iterate_succ_apply', Function.iterate_succ_apply, step_buffer hn]
      exact if_pos hds
    · rw [Function.iterate_succ_apply', Function.iterate_succ_apply, step_buffer hn]
      have hsame : (step fs strerror fromDir dest s).directoryStack = s.directoryStack := by
        rw [hread]
      rwa [hsame] at hsuf

theorem ends_of_empty {calls written : ℕ} (hpc : s.pc = .reading current calls written)
    (h : outcome fs strerror current calls = .ok []) :
    ∃ n, ((step fs strerror fromDir dest)^[n] s).pc = .next ∧
      s.directoryStack <:+ ((step fs strerror fromDir dest)^[n] s).directoryStack := by
  have hread : step fs strerror fromDir dest s =
      { s with pc := .entries current (calls + 1) 0 [] } := step_read hpc h
  have htwo : (step fs strerror fromDir dest)^[2] s = { s with pc := .next } := by
    show step fs strerror fromDir dest (step fs strerror fromDir dest s) = _
    rw [hread]
    rfl
  have hsame : ((step fs strerror fromDir dest)^[2] s).directoryStack = s.directoryStack := by
    rw [htwo]
  exact ⟨2, by rw [htwo], [], hsame.symm⟩

/-- The `do` loop from some call on, when a later call reads nothing. -/
theorem iteration_run {k calls written : ℕ} (hpc : s.pc = .reading current calls written)
    (hle : calls ≤ k) (hempty : outcome fs strerror current k = .ok [])
    (hfree : AbortFree fs strerror fromDir dest current k)
    (hwritten : written ≠ 0 ∨ ∃ ds, outcome fs strerror current calls = .ok ds) :
    ∃ n, ((step fs strerror fromDir dest)^[n] s).pc = .next ∧
      s.directoryStack <:+ ((step fs strerror fromDir dest)^[n] s).directoryStack := by
  induction hm : k - calls generalizing s calls written with
  | zero =>
    have hk : calls = k := by omega
    rw [← hk] at hempty
    exact ends_of_empty hpc hempty
  | succ m ih =>
    by_cases hnow : outcome fs strerror current calls = .ok []
    · exact ends_of_empty hpc hnow
    · obtain ⟨n, written', hw, hn, hsuf⟩ := reading_run hpc hwritten hnow
        (hfree calls (by omega))
      obtain ⟨n', hn', hsuf'⟩ := ih hn (by omega) (.inl hw) (by omega)
      refine ⟨n' + n, ?_, ?_⟩
      · rw [Function.iterate_add_apply]
        exact hn'
      · rw [Function.iterate_add_apply]
        exact hsuf.trans hsuf'

/-- Every call that failed on the way to a state is reported in it. -/
theorem calls_reported {n m calls written : ℕ} {e : Error} (hm : m < n)
    (hpc : ((step fs strerror fromDir dest)^[m] s).pc = .reading current calls written)
    (h : outcome fs strerror current calls = .error e) :
    .onError current e ∈ ((step fs strerror fromDir dest)^[n] s).ops := by
  obtain ⟨k, rfl⟩ : ∃ k, n = k + (m + 1) := ⟨n - (m + 1), by omega⟩
  have hrecorded : .onError current e ∈ ((step fs strerror fromDir dest)^[m + 1] s).ops := by
    rw [Function.iterate_succ_apply', step_failed hpc h]
    exact mem_append_right _ mem_cons_self
  rw [Function.iterate_add_apply]
  exact (iterate_ops k _).subset hrecorded

/-! ## The loop does not end -/

/-- Where the iteration can be while neither the first call has failed nor a call has read nothing. -/
def Iterating (fs : FileSystem) (strerror : Errno → List Char) (fromDir dest current : Path) :
    WalkPc → Prop
  | .reading c calls written => c = current ∧ (calls = 0 ∨ written ≠ 0) ∧
      AbortFree fs strerror fromDir dest current calls
  | .entries c calls written left => c = current ∧ written ≠ 0 ∧
      ∃ before, outcome fs strerror current (calls - 1) = .ok (before ++ left) ∧ 0 < calls ∧
        (∀ d ∈ before, ¬ Aborts fs strerror fromDir dest current d) ∧
        AbortFree fs strerror fromDir dest current (calls - 1)
  | .aborted => True
  | .next => False
  | .done => False

theorem AbortFree.succ {k : ℕ} (h : AbortFree fs strerror fromDir dest current k)
    (hk : ∀ ds, outcome fs strerror current k = .ok ds → ∀ d ∈ ds,
      ¬ Aborts fs strerror fromDir dest current d) :
    AbortFree fs strerror fromDir dest current (k + 1) := by
  intro j hj
  by_cases hjk : j = k
  · rw [hjk]
    exact hk
  · exact h j (by omega)

/-- A turn keeps the iteration going. -/
theorem iterating_step (hfirst : ∀ e, outcome fs strerror current 0 ≠ .error e)
    (hempty : ∀ k, outcome fs strerror current k = .ok [] →
      ¬ AbortFree fs strerror fromDir dest current k)
    (h : Iterating fs strerror fromDir dest current s.pc) :
    Iterating fs strerror fromDir dest current (step fs strerror fromDir dest s).pc := by
  cases hpc : s.pc with
  | next =>
    rw [hpc] at h
    exact h.elim
  | done =>
    rw [hpc] at h
    exact h.elim
  | aborted =>
    have hstay : step fs strerror fromDir dest s = s := by rw [step, hpc]
    rw [hstay, hpc]
    trivial
  | reading c calls written =>
    rw [hpc] at h
    obtain ⟨rfl, hw, hfree⟩ := h
    cases hout : outcome fs strerror c calls with
    | error e =>
      -- not the first call, so the loop goes on with what an earlier one has written
      have hw' : written ≠ 0 := by
        rcases hw with h0 | hw
        · rw [h0] at hout
          exact absurd hout (hfirst e)
        · exact hw
      rw [step_failed hpc hout]
      show Iterating _ _ _ _ _ (afterBatch c (calls + 1) written)
      rw [afterBatch, if_pos hw']
      refine ⟨rfl, .inr hw', hfree.succ fun ds hds => ?_⟩
      rw [hout] at hds
      cases hds
    | ok ds =>
      have hds : ds.length ≠ 0 := by
        intro h0
        rw [length_eq_zero_iff.mp h0] at hout
        exact hempty calls hout hfree
      rw [step_read hpc hout]
      exact ⟨rfl, hds, [], hout, Nat.succ_pos calls, fun d hd => absurd hd not_mem_nil, hfree⟩
  | entries c calls written left =>
    rw [hpc] at h
    obtain ⟨rfl, hw, before, hout, hpos, hbefore, hfree⟩ := h
    cases left with
    | nil =>
      rw [step_buffer hpc]
      show Iterating _ _ _ _ _ (afterBatch c calls written)
      rw [afterBatch, if_pos hw]
      refine ⟨rfl, .inr hw, ?_⟩
      have hsucc := hfree.succ fun ds hds d hd => by
        rw [hout, append_nil] at hds
        cases hds
        exact hbefore d hd
      rwa [Nat.sub_add_cancel hpos] at hsucc
    | cons d left =>
      have hstep : step fs strerror fromDir dest s = walkEntry fs strerror fromDir dest c d
          { s with pc := .entries c calls written left } := by
        rw [step, hpc]
      rw [hstep]
      by_cases hab : Aborts fs strerror fromDir dest c d
      · rw [walkEntry_pc_of_aborts hab]
        trivial
      · rw [walkEntry_pc_of_not_aborts hab]
        refine ⟨rfl, hw, before ++ [d], ?_, hpos, fun d' hd' => ?_, hfree⟩
        · rw [hout, append_assoc]
          rfl
        · rcases mem_append.mp hd' with hd' | hd'
          · exact hbefore d' hd'
          · rw [mem_singleton.mp hd']
            exact hab

theorem iterating_iterate (hfirst : ∀ e, outcome fs strerror current 0 ≠ .error e)
    (hempty : ∀ k, outcome fs strerror current k = .ok [] →
      ¬ AbortFree fs strerror fromDir dest current k)
    (h : Iterating fs strerror fromDir dest current s.pc) (n : ℕ) :
    Iterating fs strerror fromDir dest current ((step fs strerror fromDir dest)^[n] s).pc := by
  induction n with
  | zero => exact h
  | succ n ih =>
    rw [Function.iterate_succ_apply']
    exact iterating_step hfirst hempty ih

theorem not_iterationEnds (ops : List WalkOp) (rest : List Path)
    (hfirst : ∀ e, outcome fs strerror current 0 ≠ .error e)
    (hempty : ∀ k, outcome fs strerror current k = .ok [] →
      ¬ AbortFree fs strerror fromDir dest current k) :
    ¬ IterationEnds fs strerror fromDir dest current ops rest := by
  rintro ⟨n, hn, -⟩
  have hiter := iterating_iterate (s := ⟨ops, rest, .reading current 0 0⟩) hfirst hempty
    ⟨rfl, .inl rfl, fun j hj => absurd hj (Nat.not_lt_zero j)⟩ n
  rw [hn] at hiter
  exact hiter

/-! ## Exactly when -/

/-- For every directory, every sequence of outcomes of `myGetDents` on it and every state of the walk:
the iteration ends as it should exactly when the first call fails, or some call reads nothing and no
entry read before it ends the process. -/
theorem iteration_ends_iff (fs : FileSystem) (strerror : Errno → List Char)
    (fromDir dest current : Path) (ops : List WalkOp) (rest : List Path) :
    IterationEnds fs strerror fromDir dest current ops rest ↔
      (∃ e, outcome fs strerror current 0 = .error e) ∨
        ∃ k, outcome fs strerror current k = .ok [] ∧
          AbortFree fs strerror fromDir dest current k := by
  constructor
  · intro hends
    by_contra hnot
    exact not_iterationEnds ops rest (fun e he => hnot (.inl ⟨e, he⟩))
      (fun k hk hfree => hnot (.inr ⟨k, hk, hfree⟩)) hends
  · intro h
    have hends : ∃ n, ((step fs strerror fromDir dest)^[n] ⟨ops, rest, .reading current 0 0⟩).pc =
        .next ∧ rest <:+
          ((step fs strerror fromDir dest)^[n] ⟨ops, rest, .reading current 0 0⟩).directoryStack := by
      rcases hout : outcome fs strerror current 0 with e | ds
      · refine ⟨1, ?_, ?_⟩
        · rw [Function.iterate_one, step_failed rfl hout]
          rfl
        · rw [Function.iterate_one, step_failed rfl hout]
          exact suffix_rfl
      · rcases h with ⟨e, he⟩ | ⟨k, hk, hfree⟩
        · rw [he] at hout
          cases hout
        · exact iteration_run rfl (Nat.zero_le k) hk hfree (.inr ⟨ds, hout⟩)
    obtain ⟨n, hn, hsuf⟩ := hends
    exact ⟨n, hn, hsuf, fun m hm calls written e => calls_reported hm⟩

/-- A file system in which the directory is removed after its first entries have been read. -/
def removedFs : FileSystem where
  openDir _ _ := .ok 0
  getdents _ k _ := if k = 0 then .ok [⟨.fifo, ['p']⟩] else .error ENOENT
  statx _ _ := .error ENOENT
  readlink _ _ := .error ENOENT
  symlink _ _ _ := .ok ()
  mkdir _ := .ok ()
  stat64 _ := .ok .dir

/-- Every call but the first fails, and the iteration never ends. -/
theorem removedFs_never_ends :
    (∀ k, 1 ≤ k → ∃ e, outcome removedFs (fun _ => []) ['s', '/'] k = .error e) ∧
      ¬ IterationEnds removedFs (fun _ => []) ['s', '/'] ['d', '/'] ['s', '/'] [] [['t', '/']] := by
  have hlater : ∀ k, 1 ≤ k → ∃ e, outcome removedFs (fun _ => []) ['s', '/'] k = .error e := by
    intro k hk
    have hcall : removedFs.getdents ['s', '/'] k = fun _ => .error ENOENT := by
      funext i
      exact if_neg (by omega)
    rw [outcome, hcall]
    exact ⟨_, rfl⟩
  have hzero : outcome removedFs (fun _ => []) ['s', '/'] 0 = .ok [⟨.fifo, ['p']⟩] := rfl
  refine ⟨hlater, not_iterationEnds _ _ (fun e he => ?_) fun k hk => ?_⟩
  · rw [hzero] at he
    cases he
  · by_cases h0 : k = 0
    · rw [h0, hzero] at hk
      cases hk
    · obtain ⟨e, he⟩ := hlater k (by omega)
      rw [he] at hk
      cases hk

end Walk

end Wcp
