import WcpVerified.ProgressLine

/-!
# Proofs: the layout of the progress lines and the wait between them

The bound of `centreAlign`'s loop is an unsigned difference: when the centre is wider than the line it
wraps, and the 32-bit counter never reaches it. The carry of the wait is made for more than
1000000000 nanoseconds, so one reading of the clock leads to a deadline of exactly that many.
-/

namespace Wcp

open MachineWord

/-! ## Layout -/

/-- A computation with a bound on its rounds returns `r` when the bound is large enough. -/
def Returns {β : Type} (f : ℕ → Option β) (r : β) : Prop := ∃ fuel, f fuel = some r

theorem toS32_natCast {n : ℕ} (h : n < 2 ^ 31) : toS32 n = n := by
  unfold toS32
  rw [Nat.mod_eq_of_lt (by omega), if_pos h]

/-- `k` rounds of the loop of `leftPad` and `rightPad`. -/
theorem iterate_pad (padChar : Char) (pad : List Char) (i : ℤ) (k : ℕ) :
    (fun p : List Char × ℤ => (p.1 ++ [padChar], p.2 + 1))^[k] (pad, i) =
      (pad ++ List.replicate k padChar, i + k) := by
  induction k with
  | zero => simp
  | succ k ih =>
    rw [Function.iterate_succ_apply', ih]
    simp [List.replicate_succ', add_assoc]

/-- `k` rounds of the loop of `centreAlign`. -/
theorem iterate_centre (str : List Char) {i : ℕ} (hi : i < 2 ^ 32) (k : ℕ) :
    (fun p : List Char × ℕ => (p.1 ++ [' '], (p.2 + 1) % 2 ^ 32))^[k] (str, i) =
      (str ++ List.replicate k ' ', (i + k) % 2 ^ 32) := by
  induction k with
  | zero =>
    rw [Nat.add_zero, Nat.mod_eq_of_lt hi, List.replicate_zero, List.append_nil]
    rfl
  | succ k ih =>
    rw [Function.iterate_succ_apply', ih]
    simp [List.replicate_succ', add_assoc]

/-- The loop of `leftPad` and `rightPad` fills up to its bound. -/
theorem padLoop_eq (bound : ℤ) (padChar : Char) {pad : List Char} (h : pad.length < 2 ^ 31) :
    padLoop bound padChar ((bound - pad.length).toNat + 1) pad =
      some (pad ++ List.replicate (bound - pad.length).toNat padChar) := by
  rw [padLoop, toS32_natCast h, WhileLoop.run_iterate, iterate_pad]
  · rfl
  · intro k hk
    rw [iterate_pad]
    simp only [decide_eq_true_eq]
    omega
  · rw [iterate_pad]
    simp only [decide_eq_false_iff_not]
    omega

section Pad

variable {left str : List Char} {targetLength : ℤ}

theorem leftPad_returns (hleft : left.length < 2 ^ 31) (hstr : str.length < 2 ^ 31)
    (ht : targetLength < 2 ^ 31) (hov : -2 ^ 31 ≤ targetLength - str.length) (padChar : Char) :
    Returns (leftPad left str targetLength padChar)
      (left ++ List.replicate (targetLength - str.length - left.length).toNat padChar ++ str) := by
  refine ⟨(targetLength - str.length - left.length).toNat + 1, ?_⟩
  rw [leftPad, toS32_natCast hstr, subS32, if_pos ⟨hov, by omega⟩]
  show (padLoop _ _ _ _).bind _ = _
  rw [padLoop_eq _ _ hleft]
  rfl

theorem rightPad_returns (hleft : left.length < 2 ^ 31) (hstr : str.length < 2 ^ 31)
    (ht : targetLength < 2 ^ 31) (hov : -2 ^ 31 ≤ targetLength - str.length) :
    Returns (rightPad left str targetLength)
      (str ++ (left ++ List.replicate (targetLength - str.length - left.length).toNat ' ')) := by
  refine ⟨(targetLength - str.length - left.length).toNat + 1, ?_⟩
  rw [rightPad, toS32_natCast hstr, subS32, if_pos ⟨hov, by omega⟩]
  show (padLoop _ _ _ _).bind _ = _
  rw [padLoop_eq _ _ hleft]
  rfl

/-- An overflow leaves `leftPad` and `rightPad` without a meaning. -/
theorem subS32_eq_none (h : targetLength - str.length < -2 ^ 31) (hstr : str.length < 2 ^ 31) :
    subS32 targetLength (toS32 str.length) = none := by
  rw [toS32_natCast hstr, subS32, if_neg (by omega)]

/-- `leftPad` returns a string of the length it was asked for, or one without padding. -/
def PadsLeft (left str : List Char) (targetLength : ℤ) (padChar : Char) : Prop :=
  ∃ r, Returns (leftPad left str targetLength padChar) r ∧
    (r.length : ℤ) = max targetLength (left.length + str.length)

/-- The same for `rightPad`. -/
def PadsRight (left str : List Char) (targetLength : ℤ) : Prop :=
  ∃ r, Returns (rightPad left str targetLength) r ∧
    (r.length : ℤ) = max targetLength (left.length + str.length)

theorem padsLeft_iff (hleft : left.length < 2 ^ 31) (hstr : str.length < 2 ^ 31)
    (ht : targetLength < 2 ^ 31) (padChar : Char) :
    PadsLeft left str targetLength padChar ↔ -2 ^ 31 ≤ targetLength - str.length := by
  constructor
  · rintro ⟨r, ⟨fuel, hr⟩, -⟩
    by_contra hov
    rw [leftPad, subS32_eq_none (by omega) hstr] at hr
    cases hr
  · intro hov
    refine ⟨_, leftPad_returns hleft hstr ht hov padChar, ?_⟩
    simp only [List.length_append, List.length_replicate, Nat.cast_add]
    omega

theorem padsRight_iff (hleft : left.length < 2 ^ 31) (hstr : str.length < 2 ^ 31)
    (ht : targetLength < 2 ^ 31) :
    PadsRight left str targetLength ↔ -2 ^ 31 ≤ targetLength - str.length := by
  constructor
  · rintro ⟨r, ⟨fuel, hr⟩, -⟩
    by_contra hov
    rw [rightPad, subS32_eq_none (by omega) hstr] at hr
    cases hr
  · intro hov
    refine ⟨_, rightPad_returns hleft hstr ht hov, ?_⟩
    simp only [List.length_append, List.length_replicate, Nat.cast_add]
    omega

end Pad

section Centre

variable {left centre : List Char} {lineWidth : ℕ}

theorem centreAlign_returns (hleft : left.length < 2 ^ 31) (hw : lineWidth < 2 ^ 31)
    (h : centre.length / 2 ≤ lineWidth / 2) : Returns (centreAlign left centre lineWidth)
      (left ++ List.replicate (lineWidth / 2 - centre.length / 2 - left.length) ' ' ++ centre) := by
  refine ⟨lineWidth / 2 - centre.length / 2 - left.length + 1, ?_⟩
  rw [centreAlign, subU64_of_le h (by omega), Nat.mod_eq_of_lt (by omega : left.length < 2 ^ 32),
    WhileLoop.run_iterate, iterate_centre _ (by omega)]
  · rfl
  · intro k hk
    rw [iterate_centre _ (by omega)]
    simp only [decide_eq_true_eq]
    omega
  · rw [iterate_centre _ (by omega)]
    simp only [decide_eq_false_iff_not]
    omega

/-- With a centre wider than the line the counter stays below the bound for good. -/
theorem centreAlign_eq_none (hc : centre.length < 2 ^ 31)
    (h : lineWidth / 2 < centre.length / 2) (fuel : ℕ) :
    centreAlign left centre lineWidth fuel = none := by
  have hbound : 2 ^ 32 ≤ subU64 (lineWidth / 2) (centre.length / 2) := by
    unfold subU64
    omega
  rw [centreAlign, WhileLoop.run_eq_none (fun p : List Char × ℕ => p.2 < 2 ^ 32)]
  · rfl
  · intro p hp
    exact decide_eq_true (hp.trans_le hbound)
  · intro p _
    exact Nat.mod_lt _ (by omega)
  · exact Nat.mod_lt _ (by omega)

end Centre

/-- `centreAlign` returns what it should exactly when the centre is not wider than the line, half by
half; `leftPad` and `rightPad` do exactly when their subtraction does not overflow, as it cannot for
the lengths they are called with. -/
theorem layout_total_iff (left str : List Char) (hleft : left.length < 2 ^ 31)
    (hstr : str.length < 2 ^ 31) :
    (∀ lineWidth < 2 ^ 31, Returns (centreAlign left str lineWidth)
        (left ++ List.replicate (max left.length (lineWidth / 2 - str.length / 2) - left.length) ' '
          ++ str) ↔ str.length / 2 ≤ lineWidth / 2) ∧
    (∀ (targetLength : ℤ) (padChar : Char), -2 ^ 31 ≤ targetLength → targetLength < 2 ^ 31 →
      (PadsLeft left str targetLength padChar ∧ PadsRight left str targetLength ↔
        -2 ^ 31 ≤ targetLength - str.length)) := by
  constructor
  · intro lineWidth hw
    constructor
    · rintro ⟨fuel, hr⟩
      by_contra hlt
      rw [centreAlign_eq_none hstr (by omega)] at hr
      cases hr
    · intro hle
      have hmax : max left.length (lineWidth / 2 - str.length / 2) - left.length =
          lineWidth / 2 - str.length / 2 - left.length := by omega
      rw [hmax]
      exact centreAlign_returns hleft hw hle
  · intro targetLength padChar _ ht
    rw [padsLeft_iff hleft hstr ht, padsRight_iff hleft hstr ht, and_self]

/-- A centre of three bytes in a line of ten. -/
theorem layout_ten_columns :
    Returns (centreAlign ['a'] ['x', 'y', 'z'] 10) ['a', ' ', ' ', ' ', 'x', 'y', 'z'] ∧
      PadsLeft ['a'] ['x', 'y', 'z'] 10 ' ' ∧ PadsRight ['a'] ['x', 'y', 'z'] 10 := by
  have h := layout_total_iff ['a'] ['x', 'y', 'z'] (by decide) (by decide)
  exact ⟨(h.1 10 (by decide)).mpr (by decide), (h.2 10 ' ' (by decide) (by decide)).mpr (by decide)⟩

/-- Without a width `centreAlign` does not return, whatever it is given to centre. -/
theorem centreAlign_no_width :
    ("Calculating, found: 0.00 B".toList.length < 2 ^ 31) ∧
      ∀ r, ¬ Returns (centreAlign [] "Calculating, found: 0.00 B".toList 0) r := by
  refine ⟨by decide, ?_⟩
  rintro r ⟨fuel, hr⟩
  rw [centreAlign_eq_none (by decide) (by decide)] at hr
  cases hr

/-! ## The wait -/

/-- A normalised time. -/
def Timespec.Normalised (t : Timespec) : Prop := 0 ≤ t.tvNsec ∧ t.tvNsec < 1000000000

/-- The time in nanoseconds. -/
def Timespec.nanoseconds (t : Timespec) : ℤ := t.tvSec * 1000000000 + t.tvNsec

theorem timeoutTime_eq (reading : Timespec) : timeoutTime reading =
    if reading.tvNsec + 250000000 > 1000000000 then
      ⟨reading.tvSec + 1, reading.tvNsec + 250000000 - 1000000000⟩
    else ⟨reading.tvSec, reading.tvNsec + 250000000⟩ := by
  have hsec : ⌊updateIntervalSeconds⌋ = 0 := by
    rw [Int.floor_eq_iff]
    norm_num [updateIntervalSeconds]
  have hnsec : ⌊(updateIntervalSeconds - ⌊updateIntervalSeconds⌋) * 1000000000⌋ = 250000000 := by
    rw [hsec, Int.floor_eq_iff]
    norm_num [updateIntervalSeconds]
  rw [timeoutTime, hnsec, hsec, add_zero]

/-- The deadline is a quarter of a second after the reading, always. -/
theorem timeoutTime_nanoseconds (reading : Timespec) :
    (timeoutTime reading).nanoseconds = reading.nanoseconds + 250000000 := by
  rw [timeoutTime_eq]
  split
  · simp only [Timespec.nanoseconds]
    ring
  · simp only [Timespec.nanoseconds]
    ring

theorem timeoutTime_normalised_iff {reading : Timespec} (h : reading.Normalised) :
    (timeoutTime reading).Normalised ↔ reading.tvNsec ≠ 750000000 := by
  obtain ⟨h0, h1⟩ := h
  rw [timeoutTime_eq]
  by_cases hgt : reading.tvNsec + 250000000 > 1000000000
  · rw [if_pos hgt]
    refine ⟨fun _ => by omega, fun _ => ⟨?_, ?_⟩⟩
    · show 0 ≤ reading.tvNsec + 250000000 - 1000000000
      omega
    · show reading.tvNsec + 250000000 - 1000000000 < 1000000000
      omega
  · rw [if_neg hgt]
    constructor
    · rintro ⟨-, hlt⟩
      have : reading.tvNsec + 250000000 < 1000000000 := hlt
      omega
    · intro hne
      constructor
      · show 0 ≤ reading.tvNsec + 250000000
        omega
      · show reading.tvNsec + 250000000 < 1000000000
        omega

section Wait

variable {isDone : ℕ → Bool} {clock : ℕ → Timespec} {timedlock : ℕ → Timespec → Errno}

/-- What `pthread_mutex_timedlock` answers on a mutex that is held: it refuses a time that is not
normalised, and otherwise gets the mutex or times out. -/
def TimedlockAnswers (timedlock : ℕ → Timespec → Errno) : Prop :=
  ∀ n t, (t.Normalised → timedlock n t = 0 ∨ timedlock n t = ETIMEDOUT) ∧
    (¬ t.Normalised → timedlock n t = EINVAL)

/-- A turn aborts only with a deadline that is not normalised, and then it does. -/
theorem loopTurn_aborted_iff (htl : TimedlockAnswers timedlock) {n : ℕ} {done : Bool}
    {reading : Timespec} : loopTurn done reading (timedlock n) = .aborted ↔
      done = false ∧ ¬ (timeoutTime reading).Normalised := by
  unfold loopTurn
  cases done with
  | true => simp
  | false =>
    by_cases hn : (timeoutTime reading).Normalised
    · rcases (htl n _).1 hn with he | he
      · simp [he, hn]
      · simp [he, hn, ETIMEDOUT]
    · simp [(htl n _).2 hn, hn, EINVAL, ETIMEDOUT]

/-- The loop aborts in the turn that gets such a deadline. -/
theorem loopAfter_aborted (htl : TimedlockAnswers timedlock) {n : ℕ}
    (hloop : loopAfter isDone clock timedlock n = .looping) (hdone : isDone n = false)
    (h : ¬ (timeoutTime (clock n)).Normalised) :
    loopAfter isDone clock timedlock (n + 1) = .aborted := by
  rw [loopAfter, hloop]
  exact (loopTurn_aborted_iff htl).mpr ⟨hdone, h⟩

/-- With normalised deadlines it never aborts. -/
theorem loopAfter_ne_aborted (htl : TimedlockAnswers timedlock)
    (h : ∀ n, (timeoutTime (clock n)).Normalised) (n : ℕ) :
    loopAfter isDone clock timedlock n ≠ .aborted := by
  induction n with
  | zero => exact LoopStage.noConfusion
  | succ n ih =>
    rw [loopAfter]
    cases hstage : loopAfter isDone clock timedlock n with
    | looping =>
      intro hab
      exact ((loopTurn_aborted_iff htl).mp hab).2 (h n)
    | left => exact LoopStage.noConfusion
    | aborted => exact absurd hstage ih

/-- In every iteration of the loop, the deadline is normalised and exactly 250 ms after the reading
unless the reading has 750000000 nanoseconds. A loop that never reads such a time is never aborted, and
one that does is aborted by it. -/
theorem deadline_valid_iff (isDone : ℕ → Bool) (htl : TimedlockAnswers timedlock) (hclock : ∀ n, (clock n).Normalised) :
    (∀ n, (timeoutTime (clock n)).Normalised ∧
        (timeoutTime (clock n)).nanoseconds = (clock n).nanoseconds + 250000000 ↔
      (clock n).tvNsec ≠ 750000000) ∧
    ((∀ n, (clock n).tvNsec ≠ 750000000) → ∀ n, loopAfter isDone clock timedlock n ≠ .aborted) ∧
    ∀ n, loopAfter isDone clock timedlock n = .looping → isDone n = false →
      (clock n).tvNsec = 750000000 → loopAfter isDone clock timedlock (n + 1) = .aborted := by
  refine ⟨fun n => ?_, fun h => ?_, fun n hloop hdone hns => ?_⟩
  · rw [timeoutTime_normalised_iff (hclock n)]
    exact and_iff_left (timeoutTime_nanoseconds (clock n))
  · apply loopAfter_ne_aborted htl
    intro n
    exact (timeoutTime_normalised_iff (hclock n)).mpr (h n)
  · apply loopAfter_aborted htl hloop hdone
    intro hn
    exact (timeoutTime_normalised_iff (hclock n)).mp hn hns

end Wait

/-- `pthread_mutex_timedlock` on a mutex that stays held. -/
def heldTimedlock (_ : ℕ) (t : Timespec) : Errno :=
  if 0 ≤ t.tvNsec ∧ t.tvNsec < 1000000000 then ETIMEDOUT else EINVAL

theorem heldTimedlock_answers : TimedlockAnswers heldTimedlock := by
  intro n t
  refine ⟨fun h => .inr ?_, fun h => ?_⟩
  · exact if_pos h
  · exact if_neg h

/-- A clock that always reads just under a full second. -/
theorem deadline_after_carry :
    (timeoutTime ⟨5, 999999999⟩).Normalised ∧
      ∀ n, loopAfter (fun _ => false) (fun _ => ⟨5, 999999999⟩) heldTimedlock n ≠ .aborted := by
  have hr : Timespec.Normalised ⟨5, 999999999⟩ := ⟨by decide, by decide⟩
  have h := deadline_valid_iff (fun _ => false) heldTimedlock_answers
    (fun _ => hr : ∀ _ : ℕ, Timespec.Normalised ⟨5, 999999999⟩)
  exact ⟨((h.1 0).mpr (by decide)).1, h.2.1 fun _ => by decide⟩

/-- A reading of 750000000 nanoseconds ends the process in the first turn. -/
theorem deadline_of_three_quarters :
    Timespec.Normalised ⟨5, 750000000⟩ ∧ timeoutTime ⟨5, 750000000⟩ = ⟨5, 1000000000⟩ ∧
      ¬ (timeoutTime ⟨5, 750000000⟩).Normalised ∧ TimedlockAnswers heldTimedlock ∧
      loopAfter (fun _ => false) (fun _ => ⟨5, 750000000⟩) heldTimedlock 1 = .aborted := by
  have hr : Timespec.Normalised ⟨5, 750000000⟩ := ⟨by decide, by decide⟩
  have hn : ¬ (timeoutTime ⟨5, 750000000⟩).Normalised := by
    rw [timeoutTime_normalised_iff hr]
    decide
  refine ⟨hr, ?_, hn, heldTimedlock_answers, ?_⟩
  · rw [timeoutTime_eq]
    rfl
  · exact loopAfter_aborted heldTimedlock_answers rfl rfl hn

end Wcp
