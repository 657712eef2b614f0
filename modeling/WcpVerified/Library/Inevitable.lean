import Mathlib
import WcpVerified.Library.Transition

/-!
# What every run reaches

`Inevitably R P s`: every run of `R` from `s` reaches a state with `P` after finitely many steps,
and none gets stuck before. A measure proves it; a set of states that a run need not leave, or in
which it gets stuck, refutes it.
-/

namespace Transition

variable {σ : Type*} {R : σ → σ → Prop} {P Q : σ → Prop} {s : σ}

/-- Every run from `s` is bound to reach `P`. -/
inductive Inevitably (R : σ → σ → Prop) (P : σ → Prop) : σ → Prop where
  | now {s : σ} (h : P s) : Inevitably R P s
  | later {s : σ} (hex : ∃ s', R s s') (h : ∀ s', R s s' → Inevitably R P s') : Inevitably R P s

namespace Inevitably

/-- An invariant under which a run either has arrived or goes on with a smaller measure. -/
theorem of_measure (I : σ → Prop) (m : σ → ℕ)
    (hstep : ∀ s, I s → P s ∨ ((∃ s', R s s') ∧ ∀ s', R s s' → I s' ∧ m s' < m s)) (h : I s) :
    Inevitably R P s := by
  induction hm : m s using Nat.strong_induction_on generalizing s with
  | _ k ih =>
    rcases hstep s h with hP | ⟨hex, hall⟩
    · exact .now hP
    · refine .later hex fun s' hs' => ?_
      obtain ⟨hI, hlt⟩ := hall s' hs'
      exact ih (m s') (hm ▸ hlt) hI rfl

theorem mono (h : Inevitably R P s) (hPQ : ∀ s, P s → Q s) : Inevitably R Q s := by
  induction h with
  | now h => exact .now (hPQ _ h)
  | later hex _ ih => exact .later hex ih

end Inevitably

/-- A set of states without `P` in which a run can stay for ever, or is stuck. -/
theorem not_inevitably (I : σ → Prop)
    (hI : ∀ s, I s → ¬ P s ∧ ((∀ s', ¬ R s s') ∨ ∃ s', R s s' ∧ I s')) (h : I s) :
    ¬ Inevitably R P s := by
  intro hinev
  induction hinev with
  | now hP => exact (hI _ h).1 hP
  | later hex _ ih =>
    rcases (hI _ h).2 with hstuck | ⟨s', hs', hI'⟩
    · obtain ⟨s', hs'⟩ := hex
      exact hstuck s' hs'
    · exact ih s' hs' hI'

/-! ## Turns of one party -/

namespace System

variable {ℓ : Type*} (S : System σ ℓ) (own : ℓ → Prop) (ok : σ → ℓ → Prop)

/-- A step of the others. -/
def Other (s s' : σ) : Prop := ∃ l, ¬ own l ∧ ok s l ∧ S.step s l = some s'

/-- One step of the party whose steps are `own`, after any number of steps of the others. -/
def Turn (s s' : σ) : Prop :=
  ∃ t l, Relation.ReflTransGen (S.Other own ok) s t ∧ own l ∧ ok t l ∧ S.step t l = some s'

variable {S own ok}

/-- A party is bound to reach `P` when it always has a step to take, each of them arrives or lowers a
measure, and the others change neither the invariant nor the measure. -/
theorem inevitably_of_turns (I : σ → Prop) (m : σ → ℕ)
    (hother : ∀ s l s', I s → ¬ own l → ok s l → S.step s l = some s' → I s' ∧ m s' = m s)
    (hex : ∀ s, I s → ∃ l s', own l ∧ ok s l ∧ S.step s l = some s')
    (hown : ∀ s l s', I s → own l → ok s l → S.step s l = some s' → P s' ∨ I s' ∧ m s' < m s)
    (h : I s) : Inevitably (S.Turn own ok) P s := by
  induction hm : m s using Nat.strong_induction_on generalizing s with
  | _ k ih =>
    obtain ⟨l, s', hl, hok, hs'⟩ := hex s h
    refine .later ⟨s', s, l, .refl, hl, hok, hs'⟩ ?_
    rintro u ⟨t, l, hothers, hl, hok, hu⟩
    have ht : I t ∧ m t = m s := by
      clear hok hu
      induction hothers with
      | refl => exact ⟨h, rfl⟩
      | tail _ hstep ih' =>
        obtain ⟨l, hl, hok, hs⟩ := hstep
        obtain ⟨hI, he⟩ := hother _ l _ ih'.1 hl hok hs
        exact ⟨hI, he.trans ih'.2⟩
    rcases hown t l u ht.1 hl hok hu with hP | ⟨hI, hlt⟩
    · exact .now hP
    · exact ih (m u) (by omega) hI rfl

end System

end Transition
