import WcpVerified.Walk

/-!
# Proofs: what `retrySyscall` reports

`errno` is cleared once, before the loop, and an attempt that succeeds leaves it alone. So the loop
reads the failure before it when an attempt succeeds after an interrupted one: it is made again, and
in the end the call is reported as failed. `reports_last_iff` says that this is the only case in
which the outcome of the last attempt is not what is reported.
-/

namespace Wcp

variable {α : Type} (func : ℕ → Except Errno α)

/-- The attempt failed with one of the two codes after which another one is made. -/
def Transient (attempt : Except Errno α) : Prop := attempt = .error EINTR ∨ attempt = .error EAGAIN

/-- The attempt succeeded. -/
def Succeeded {ε : Type} (attempt : Except ε α) : Prop := ∃ a, attempt = .ok a

/-- The number of attempts `retrySyscall` makes. -/
def attemptsMade : ℕ := (retryLoop func 5 0 0).1

/-- What `retrySyscall` returns. -/
def errnoReturned : Errno := (retryLoop func 5 0 0).2

/-- The outcome of the last attempt is what is reported, and only a transient failure is followed by
another attempt. -/
structure ReportsLast : Prop where
  again : ∀ k, k + 1 < attemptsMade func → Transient (func k)
  some_attempt : 0 < attemptsMade func
  five_attempts : attemptsMade func ≤ 5
  zero_iff : errnoReturned func = 0 ↔ Succeeded (func (attemptsMade func - 1))
  code : ∀ e, func (attemptsMade func - 1) = .error e → errnoReturned func = e

/-- A call that succeeded is made no second time, and its caller does not report a failure. -/
def NotRepeated (reported : Prop) : Prop :=
  ∀ k < attemptsMade func, Succeeded (func k) → k + 1 = attemptsMade func ∧ reported

/-- One of the first five attempts succeeds, after others that all failed transiently. -/
def SucceedsLate : Prop :=
  ∃ k, 1 ≤ k ∧ k < 5 ∧ (∀ j < k, Transient (func j)) ∧ Succeeded (func k)

variable {func}

theorem Transient.not_succeeded {attempt : Except Errno α} (h : Transient attempt) :
    ¬ Succeeded attempt := by
  rintro ⟨a, rfl⟩
  rcases h with h | h <;> cases h

theorem transient_code {e : Errno} :
    (e == EINTR || e == EAGAIN) = true ↔ Transient (.error e : Except Errno α) := by
  simp [Transient]

theorem transient_ne_zero {e : Errno} (h : (e == EINTR || e == EAGAIN) = true) : e ≠ 0 := by
  rintro rfl
  simp [EINTR, EAGAIN] at h

/-! ## The loop -/

theorem le_retryLoop (left tries : ℕ) (errno : Errno) :
    tries ≤ (retryLoop func left tries errno).1 := by
  induction left generalizing tries errno with
  | zero => exact Nat.le_refl tries
  | succ left ih =>
    rw [retryLoop]
    split
    · exact Nat.le_of_succ_le (ih _ _)
    · exact Nat.le_succ tries

theorem lt_retryLoop_succ (left tries : ℕ) (errno : Errno) :
    tries < (retryLoop func (left + 1) tries errno).1 := by
  rw [retryLoop]
  split
  · exact le_retryLoop _ _ _
  · exact Nat.lt_succ_self tries

/-- An attempt that fails leaves its code, if it is the last. -/
theorem retryLoop_code {e : Errno} (left tries : ℕ) (errno : Errno)
    (h : func ((retryLoop func (left + 1) tries errno).1 - 1) = .error e) :
    (retryLoop func (left + 1) tries errno).2 = e := by
  induction left generalizing tries errno with
  | zero =>
    have hone : retryLoop func 1 tries errno = (tries + 1, errnoAfter (func tries) errno) := by
      rw [retryLoop, retryLoop, ite_self]
    rw [hone] at h ⊢
    show errnoAfter (func tries) errno = e
    rw [show func tries = .error e from h, errnoAfter]
  | succ left ih =>
    rw [retryLoop] at h ⊢
    by_cases ht : (errnoAfter (func tries) errno == EINTR
        || errnoAfter (func tries) errno == EAGAIN) = true
    · rw [if_pos ht] at h ⊢
      exact ih _ _ h
    · rw [if_neg ht] at h ⊢
      show errnoAfter (func tries) errno = e
      rw [show func tries = .error e from h, errnoAfter]

theorem retryAttempts_succ (left tries : ℕ) (errno : Errno) :
    retryAttempts func (left + 1) tries errno =
      if errnoAfter (func tries) errno == EINTR || errnoAfter (func tries) errno == EAGAIN then
        retryAttempts func left (tries + 1) (errnoAfter (func tries) errno)
      else if errnoAfter (func tries) errno = 0 then func tries
      else .error (errnoAfter (func tries) errno) := by
  rw [retryAttempts]
  cases hf : func tries with
  | ok a => rfl
  | error e =>
    rw [errnoAfter]
    by_cases h0 : e = 0
    · rw [if_pos h0]
    · rw [if_neg h0]

/-- `retrySyscall` is the loop: what the last attempt returned if `errno` is 0, and `errno`
otherwise. -/
theorem retryAttempts_eq (left tries : ℕ) (errno : Errno) :
    retryAttempts func (left + 1) tries errno =
      if (retryLoop func (left + 1) tries errno).2 = 0 then
        func ((retryLoop func (left + 1) tries errno).1 - 1)
      else .error (retryLoop func (left + 1) tries errno).2 := by
  induction left generalizing tries errno with
  | zero =>
    rw [retryAttempts_succ, retryLoop]
    by_cases ht : (errnoAfter (func tries) errno == EINTR
        || errnoAfter (func tries) errno == EAGAIN) = true
    · rw [if_pos ht, if_pos ht, retryLoop, if_neg (transient_ne_zero ht)]
      rfl
    · rw [if_neg ht, if_neg ht, Nat.add_sub_cancel]
  | succ left ih =>
    rw [retryAttempts_succ, retryLoop]
    by_cases ht : (errnoAfter (func tries) errno == EINTR
        || errnoAfter (func tries) errno == EAGAIN) = true
    · rw [if_pos ht, if_pos ht]
      exact ih _ _
    · rw [if_neg ht, if_neg ht, Nat.add_sub_cancel]

theorem retrySyscall_eq : retrySyscall func =
    if errnoReturned func = 0 then func (attemptsMade func - 1) else .error (errnoReturned func) :=
  retryAttempts_eq 4 0 0

/-- Attempts that all failed transiently are made one after the other, and the last of them leaves
its code. -/
theorem retryLoop_transient {k : ℕ} (hk : 1 ≤ k) (h : ∀ j < k, Transient (func j)) (left : ℕ) :
    ∃ e, (e == EINTR || e == EAGAIN) = true ∧
      retryLoop func (k + left) 0 0 = retryLoop func left k e := by
  induction k, hk using Nat.le_induction generalizing left with
  | base =>
    have hstep : ∀ e, func 0 = .error e → (e == EINTR || e == EAGAIN) = true →
        retryLoop func (1 + left) 0 0 = retryLoop func left 1 e := by
      intro e hf ht
      rw [Nat.add_comm, retryLoop, hf]
      simp only [errnoAfter, ht, if_true, Nat.zero_add]
    rcases h 0 Nat.one_pos with hf | hf
    · exact ⟨EINTR, rfl, hstep _ hf rfl⟩
    · exact ⟨EAGAIN, rfl, hstep _ hf rfl⟩
  | succ k hk ih =>
    obtain ⟨e, -, he⟩ := ih (fun j hj => h j (Nat.lt_succ_of_lt hj)) (left + 1)
    have hstep : ∀ e', func k = .error e' → (e' == EINTR || e' == EAGAIN) = true →
        retryLoop func (k + 1 + left) 0 0 = retryLoop func left (k + 1) e' := by
      intro e' hf ht
      rw [show k + 1 + left = k + (left + 1) by omega, he, retryLoop, hf]
      simp only [errnoAfter, ht, if_true]
    rcases h k (Nat.lt_succ_self k) with hf | hf
    · exact ⟨EINTR, rfl, hstep _ hf rfl⟩
    · exact ⟨EAGAIN, rfl, hstep _ hf rfl⟩

/-- After a late success the loop goes on, or is left with the code of the failure before it. -/
theorem SucceedsLate.outcome (h : SucceedsLate func) : ∃ k, Succeeded (func k) ∧
    (k + 1 < attemptsMade func ∨ k + 1 = attemptsMade func ∧ errnoReturned func ≠ 0) := by
  obtain ⟨k, hk, hk5, htrans, a, ha⟩ := h
  obtain ⟨left, hleft⟩ : ∃ left, 5 = k + (left + 1) := ⟨4 - k, by omega⟩
  obtain ⟨e, he, hloop⟩ := retryLoop_transient hk htrans (left + 1)
  -- the attempt leaves `errno` as it is, so the loop takes it for another transient failure
  have hnext : retryLoop func 5 0 0 = retryLoop func left (k + 1) e := by
    rw [hleft, hloop, retryLoop, ha]
    simp only [errnoAfter, he, if_true]
  refine ⟨k, ⟨a, ha⟩, ?_⟩
  rw [attemptsMade, errnoReturned, hnext]
  cases left with
  | zero => exact .inr ⟨rfl, transient_ne_zero he⟩
  | succ left => exact .inl (lt_retryLoop_succ left (k + 1) e)

/-- The loop from a point that only transient failures lead to, when no success comes late. -/
theorem retryLoop_of_not_late (hlate : ¬ SucceedsLate func) (left tries : ℕ) (errno : Errno)
    (h5 : tries + left = 5) (hbefore : ∀ j < tries, Transient (func j))
    (hlast : tries = 0 ∧ errno = 0 ∨ 0 < tries ∧ func (tries - 1) = .error errno) (hsome : 0 < tries ∨ 0 < left) :
    (∀ k, k + 1 < (retryLoop func left tries errno).1 → Transient (func k)) ∧
      0 < (retryLoop func left tries errno).1 ∧ (retryLoop func left tries errno).1 ≤ 5 ∧
      (Succeeded (func ((retryLoop func left tries errno).1 - 1)) ∧
          (retryLoop func left tries errno).2 = 0 ∨
        func ((retryLoop func left tries errno).1 - 1) =
          .error (retryLoop func left tries errno).2) := by
  induction left generalizing tries errno with
  | zero =>
    have hpos : 0 < tries := by omega
    have hfail : func (tries - 1) = .error errno := by
      rcases hlast with ⟨h0, -⟩ | ⟨-, hf⟩
      · omega
      · exact hf
    rw [retryLoop]
    exact ⟨fun k hk => hbefore k (by omega), hpos, by omega, .inr hfail⟩
  | succ left ih =>
    rw [retryLoop]
    cases hf : func tries with
    | ok a =>
      -- the first attempt, as no later one succeeds
      have h0 : tries = 0 := by
        by_contra hne
        exact hlate ⟨tries, by omega, by omega, hbefore, a, hf⟩
      have herrno : errno = 0 := by
        rcases hlast with ⟨-, he⟩ | ⟨hpos, -⟩
        · exact he
        · omega
      rw [errnoAfter, herrno, if_neg (by decide), h0]
      exact ⟨fun k hk => by omega, by omega, by omega, .inl ⟨⟨a, h0 ▸ hf⟩, rfl⟩⟩
    | error e =>
      rw [errnoAfter]
      by_cases ht : (e == EINTR || e == EAGAIN) = true
      · rw [if_pos ht]
        refine ih (tries + 1) e (by omega) (fun j hj => ?_) (.inr ⟨Nat.succ_pos tries, hf⟩)
          (.inl (Nat.succ_pos tries))
        by_cases hjt : j = tries
        · rw [hjt, hf]
          exact transient_code.mp ht
        · exact hbefore j (by omega)
      · rw [if_neg ht]
        exact ⟨fun k hk => hbefore k (by simpa using hk), Nat.succ_pos tries, by simp; omega, .inr hf⟩

/-! ## What is reported -/

theorem ReportsLast.of_not_late (hcodes : ∀ k e, func k = .error e → e ≠ 0)
    (h : ¬ SucceedsLate func) : ReportsLast func := by
  obtain ⟨hagain, hpos, h5, hlast⟩ := retryLoop_of_not_late h 5 0 0 rfl
    (fun j hj => absurd hj (Nat.not_lt_zero j)) (.inl ⟨rfl, rfl⟩) (.inr (by decide))
  refine ⟨hagain, hpos, h5, ⟨fun h0 => ?_, fun hs => ?_⟩, fun e => retryLoop_code 4 0 0⟩
  · rcases hlast with ⟨hs, -⟩ | hf
    · exact hs
    · exact absurd h0 (hcodes _ _ hf)
  · rcases hlast with ⟨-, h0⟩ | hf
    · exact h0
    · obtain ⟨a, ha⟩ := hs
      exact absurd (ha.symm.trans hf) (by simp)

theorem ReportsLast.not_late (h : ReportsLast func) : ¬ SucceedsLate func := by
  intro hlate
  obtain ⟨k, hk, hagain | ⟨hlast, hne⟩⟩ := hlate.outcome
  · exact (h.again k hagain).not_succeeded hk
  · refine hne (h.zero_iff.mpr ?_)
    rw [← hlast, Nat.add_sub_cancel]
    exact hk

/-- A caller that succeeds when `retrySyscall` returns 0. -/
theorem notRepeated_iff (hcodes : ∀ k e, func k = .error e → e ≠ 0) {reported : Prop}
    (hreported : reported ↔ errnoReturned func = 0) :
    NotRepeated func reported ↔ ¬ SucceedsLate func := by
  constructor
  · intro h hlate
    obtain ⟨k, hk, hagain | ⟨hlast, hne⟩⟩ := hlate.outcome
    · exact absurd (h k (by omega) hk).1 (by omega)
    · exact hne (hreported.mp (h k (by omega) hk).2)
  · intro hlate k hk hs
    have hr := ReportsLast.of_not_late hcodes hlate
    have hlast : k + 1 = attemptsMade func := by
      by_contra hne
      exact (hr.again k (by omega)).not_succeeded hs
    refine ⟨hlast, hreported.mpr (hr.zero_iff.mpr ?_)⟩
    rw [← hlast, Nat.add_sub_cancel]
    exact hs

/-- Any caller of `retrySyscall` can tell by its result that it returned 0. -/
theorem succeeded_retrySyscall (hcodes : ∀ k e, func k = .error e → e ≠ 0) :
    Succeeded (retrySyscall func) ↔ errnoReturned func = 0 := by
  rw [retrySyscall_eq]
  constructor
  · rintro ⟨a, ha⟩
    by_contra hne
    rw [if_neg hne] at ha
    cases ha
  · intro h0
    rw [if_pos h0]
    cases hf : func (attemptsMade func - 1) with
    | ok a => exact ⟨a, rfl⟩
    | error e =>
      have he : errnoReturned func = e := retryLoop_code 4 0 0 hf
      exact absurd (he.symm.trans h0) (hcodes _ _ hf)

/-! ## The callers -/

section Callers

variable (strerror : Errno → List Char) (path : Path)

theorem succeeded_myStatx (answers : ℕ → Except Errno Statx) :
    Succeeded (myStatx strerror path answers) ↔ Succeeded (retrySyscall answers) := by
  rw [myStatx]
  cases retrySyscall answers with
  | ok sb => exact ⟨fun _ => ⟨sb, rfl⟩, fun _ => ⟨sb, rfl⟩⟩
  | error e => simp [Succeeded]

theorem succeeded_myGetDents (answers : ℕ → Except Errno (List Dirent)) :
    Succeeded (myGetDents strerror path answers) ↔ Succeeded (retrySyscall answers) := by
  rw [myGetDents]
  cases retrySyscall answers with
  | ok entries => exact ⟨fun _ => ⟨entries, rfl⟩, fun _ => ⟨entries, rfl⟩⟩
  | error e => simp [Succeeded]

theorem succeeded_myReadlink (answers : ℕ → Except Errno Path) :
    Succeeded (myReadlink strerror path answers) ↔ Succeeded (retrySyscall answers) := by
  rw [myReadlink]
  cases retrySyscall answers with
  | ok target => exact ⟨fun _ => ⟨target, rfl⟩, fun _ => ⟨_, rfl⟩⟩
  | error e => simp [Succeeded]

/-- The copy of a link whose target could be read does nothing but create it. -/
theorem copyLink_ops_iff (fs : FileSystem) {linkDest destPath : Path} (s : WalkState)
    (h : myReadlink strerror path (fs.readlink path) = .ok linkDest) :
    (Walk.copyLink fs strerror path destPath s).ops = s.ops ++ [.symlink linkDest destPath] ↔
      Succeeded (retrySyscall (fs.symlink linkDest destPath)) := by
  rw [Walk.copyLink, h]
  cases hr : retrySyscall (fs.symlink linkDest destPath) with
  | ok u => simp [hr, Walk.record, Succeeded]
  | error e => simp [hr, Walk.record, Succeeded]

end Callers

/-- `retrySyscall` reports its last attempt, and its callers neither make a call again that
succeeded nor report it as failed, exactly when none of the first five attempts is a success that
comes after interrupted ones. -/
theorem reports_last_iff (strerror : Errno → List Char) :
    (∀ {α : Type} (func : ℕ → Except Errno α), (∀ k e, func k = .error e → e ≠ 0) →
      (ReportsLast func ↔ ¬ SucceedsLate func)) ∧
    (∀ path (answers : ℕ → Except Errno Statx), (∀ k e, answers k = .error e → e ≠ 0) →
      (NotRepeated answers (Succeeded (myStatx strerror path answers)) ↔ ¬ SucceedsLate answers)) ∧
    (∀ path (answers : ℕ → Except Errno (List Dirent)), (∀ k e, answers k = .error e → e ≠ 0) →
      (NotRepeated answers (Succeeded (myGetDents strerror path answers)) ↔
        ¬ SucceedsLate answers)) ∧
    (∀ path (answers : ℕ → Except Errno Path), (∀ k e, answers k = .error e → e ≠ 0) →
      (NotRepeated answers (Succeeded (myReadlink strerror path answers)) ↔
        ¬ SucceedsLate answers)) ∧
    (∀ (fs : FileSystem) fullPath destPath linkDest (s : WalkState),
      (∀ k e, fs.symlink linkDest destPath k = .error e → e ≠ 0) →
      myReadlink strerror fullPath (fs.readlink fullPath) = .ok linkDest →
      (NotRepeated (fs.symlink linkDest destPath)
          ((Walk.copyLink fs strerror fullPath destPath s).ops =
            s.ops ++ [.symlink linkDest destPath]) ↔
        ¬ SucceedsLate (fs.symlink linkDest destPath))) := by
  refine ⟨fun func hcodes => ?_, fun path answers hcodes => ?_, fun path answers hcodes => ?_,
    fun path answers hcodes => ?_, fun fs fullPath destPath linkDest s hcodes hread => ?_⟩
  · exact ⟨ReportsLast.not_late, ReportsLast.of_not_late hcodes⟩
  · apply notRepeated_iff hcodes
    rw [succeeded_myStatx, succeeded_retrySyscall hcodes]
  · apply notRepeated_iff hcodes
    rw [succeeded_myGetDents, succeeded_retrySyscall hcodes]
  · apply notRepeated_iff hcodes
    rw [succeeded_myReadlink, succeeded_retrySyscall hcodes]
  · apply notRepeated_iff hcodes
    rw [copyLink_ops_iff strerror fullPath fs s hread, succeeded_retrySyscall hcodes]

/-- Attempts the first of which is interrupted, while the others are all answered so. -/
def interruptedOnce (answer : Except Errno Statx) (k : ℕ) : Except Errno Statx :=
  if k = 0 then .error EINTR else answer

theorem interruptedOnce_codes {answer : Except Errno Statx} (h : ∀ e, answer = .error e → e ≠ 0)
    (k : ℕ) (e : Errno) (hk : interruptedOnce answer k = .error e) : e ≠ 0 := by
  unfold interruptedOnce at hk
  split at hk
  · cases hk
    decide
  · exact h e hk

/-- A failure after an interrupted attempt is reported as it is. -/
theorem interruptedOnce_reported :
    (∀ k e, interruptedOnce (.error ENOENT) k = .error e → e ≠ 0) ∧
      ReportsLast (interruptedOnce (.error ENOENT)) ∧
      NotRepeated (interruptedOnce (.error ENOENT))
        (Succeeded (myStatx (fun _ => []) [] (interruptedOnce (.error ENOENT)))) := by
  have hcodes : ∀ k e, interruptedOnce (.error ENOENT) k = .error e → e ≠ 0 :=
    interruptedOnce_codes fun e h => by cases h; decide
  have hlate : ¬ SucceedsLate (interruptedOnce (.error ENOENT)) := by
    rintro ⟨k, hk, -, -, a, ha⟩
    rw [interruptedOnce, if_neg (by omega)] at ha
    cases ha
  exact ⟨hcodes, ((reports_last_iff fun _ => []).1 _ hcodes).mpr hlate,
    ((reports_last_iff fun _ => []).2.1 _ _ hcodes).mpr hlate⟩

/-- After an interrupted attempt the other four are all made, although they succeed, and the call is
reported as failed. -/
theorem interruptedOnce_not_reported :
    (∀ k e, interruptedOnce (.ok ⟨.reg, 0, 0, 0⟩) k = .error e → e ≠ 0) ∧
      attemptsMade (interruptedOnce (.ok ⟨.reg, 0, 0, 0⟩)) = 5 ∧
      Succeeded (interruptedOnce (.ok ⟨.reg, 0, 0, 0⟩) 4) ∧
      errnoReturned (interruptedOnce (.ok ⟨.reg, 0, 0, 0⟩)) = EINTR ∧
      ¬ ReportsLast (interruptedOnce (.ok ⟨.reg, 0, 0, 0⟩)) := by
  refine ⟨interruptedOnce_codes (fun e h => by cases h), by decide, ⟨_, rfl⟩, by decide, ?_⟩
  intro h
  exact (h.again 1 (by decide)).not_succeeded ⟨_, rfl⟩

end Wcp
