import Mathlib

/-!
# Pools of slots and their holders

A pool has one flag a slot. Slots are acquired by holders, passed on and released; a pool is
conserved when the slots marked used are exactly those held, each by a single holder.
-/

namespace Pool

variable {ι : Type*}

/-- Every used slot has one holder, and every slot held is marked used. -/
structure Conserved (used : List Bool) (holder : ι → Option ℕ) : Prop where
  held : ∀ o i, holder o = some i → used[i]? = some true
  owned : ∀ i, used[i]? = some true → ∃ o, holder o = some i
  unique : ∀ o p i, holder o = some i → holder p = some i → o = p

namespace Conserved

variable {used : List Bool} {holder holder' : ι → Option ℕ} {o p : ι} {i : ℕ}

/-- A pool none of whose slots is used or held. -/
theorem free (n : ℕ) (h : ∀ o, holder o = none) : Conserved (List.replicate n false) holder where
  held o i ho := by rw [h o] at ho; cases ho
  owned i hi := by simp [List.getElem?_replicate] at hi
  unique o p i ho := by rw [h o] at ho; cases ho

theorem of_eq (h : Conserved used holder) (he : ∀ o, holder' o = holder o) :
    Conserved used holder' := by
  have : holder' = holder := funext he
  exact this ▸ h

/-- A holder without a slot takes a free one. -/
theorem acquire (h : Conserved used holder) (hi : used[i]? = some false)
    (ho' : holder' o = some i) (hother : ∀ p, p ≠ o → holder' p = holder p)
    (ho : holder o = none) : Conserved (used.set i true) holder' := by
  have hlt : i < used.length := (List.getElem?_eq_some_iff.mp hi).1
  -- nobody holds the slot yet
  have hfresh : ∀ p, holder p ≠ some i := by
    intro p hp
    rw [h.held p i hp] at hi
    cases hi
  refine ⟨fun p j hp => ?_, fun j hj => ?_, fun p q j hp hq => ?_⟩
  · by_cases hpo : p = o
    · subst hpo
      rw [ho'] at hp
      cases hp
      rw [List.getElem?_set_self hlt]
    · rw [hother p hpo] at hp
      have hne : i ≠ j := by
        rintro rfl
        exact hfresh p hp
      rw [List.getElem?_set_ne hne]
      exact h.held p j hp
  · by_cases hij : i = j
    · subst hij
      exact ⟨o, ho'⟩
    · rw [List.getElem?_set_ne hij] at hj
      obtain ⟨p, hp⟩ := h.owned j hj
      have hpo : p ≠ o := by
        rintro rfl
        rw [ho] at hp
        cases hp
      exact ⟨p, by rw [hother p hpo, hp]⟩
  · by_cases hpo : p = o <;> by_cases hqo : q = o
    · exact hpo.trans hqo.symm
    · rw [hpo, ho'] at hp
      rw [hother q hqo] at hq
      cases hp
      exact absurd hq (hfresh q)
    · rw [hqo, ho'] at hq
      rw [hother p hpo] at hp
      cases hq
      exact absurd hp (hfresh p)
    · rw [hother p hpo] at hp
      rw [hother q hqo] at hq
      exact h.unique p q j hp hq

/-- A holder releases its slot. -/
theorem release (h : Conserved used holder) (ho : holder o = some i) (ho' : holder' o = none)
    (hother : ∀ p, p ≠ o → holder' p = holder p) : Conserved (used.set i false) holder' := by
  have hlt : i < used.length := (List.getElem?_eq_some_iff.mp (h.held o i ho)).1
  have hback : ∀ p j, holder' p = some j → p ≠ o ∧ holder p = some j := by
    intro p j hp
    have hpo : p ≠ o := by
      rintro rfl
      rw [ho'] at hp
      cases hp
    exact ⟨hpo, hother p hpo ▸ hp⟩
  refine ⟨fun p j hp => ?_, fun j hj => ?_, fun p q j hp hq => ?_⟩
  · obtain ⟨hpo, hp⟩ := hback p j hp
    have hne : i ≠ j := by
      rintro rfl
      exact hpo (h.unique p o i hp ho)
    rw [List.getElem?_set_ne hne]
    exact h.held p j hp
  · by_cases hij : i = j
    · subst hij
      rw [List.getElem?_set_self hlt] at hj
      cases hj
    · rw [List.getElem?_set_ne hij] at hj
      obtain ⟨p, hp⟩ := h.owned j hj
      have hpo : p ≠ o := by
        rintro rfl
        rw [ho] at hp
        exact hij (Option.some.inj hp)
      exact ⟨p, by rw [hother p hpo, hp]⟩
  · exact h.unique p q j (hback p j hp).2 (hback q j hq).2

/-- A holder passes its slot on to one that has none. -/
theorem transfer (h : Conserved used holder) (hop : o ≠ p) (ho : holder o = some i)
    (hp : holder p = none) (ho' : holder' o = none) (hp' : holder' p = some i)
    (hother : ∀ q, q ≠ o → q ≠ p → holder' q = holder q) : Conserved used holder' := by
  have hback : ∀ q j, holder' q = some j → q = p ∧ j = i ∨ q ≠ p ∧ q ≠ o ∧ holder q = some j := by
    intro q j hq
    by_cases hqp : q = p
    · rw [hqp, hp'] at hq
      exact .inl ⟨hqp, (Option.some.inj hq).symm⟩
    · have hqo : q ≠ o := by
        rintro rfl
        rw [ho'] at hq
        cases hq
      exact .inr ⟨hqp, hqo, hother q hqo hqp ▸ hq⟩
  refine ⟨fun q j hq => ?_, fun j hj => ?_, fun q q' j hq hq' => ?_⟩
  · rcases hback q j hq with ⟨-, rfl⟩ | ⟨-, -, hq⟩
    · exact h.held o j ho
    · exact h.held q j hq
  · obtain ⟨q, hq⟩ := h.owned j hj
    by_cases hqo : q = o
    · rw [hqo, ho] at hq
      exact ⟨p, hp'.trans hq⟩
    · have hqp : q ≠ p := by
        rintro rfl
        rw [hp] at hq
        cases hq
      exact ⟨q, by rw [hother q hqo hqp, hq]⟩
  · rcases hback q j hq with ⟨rfl, rfl⟩ | ⟨-, hqo, hq⟩ <;>
    rcases hback q' j hq' with ⟨hqp', hji⟩ | ⟨-, hqo', hq'⟩
    · exact hqp'.symm
    · exact absurd (h.unique q' o j hq' ho) hqo'
    · subst hji
      exact absurd (h.unique q o j hq ho) hqo
    · exact h.unique q q' j hq hq'

/-- When nobody holds a slot, all slots are free. -/
theorem countP_free (h : Conserved used holder) (hn : ∀ o, holder o = none) :
    used.countP (!·) = used.length := by
  rw [List.countP_eq_length]
  intro b hb
  obtain ⟨i, hi⟩ := List.mem_iff_getElem?.mp hb
  cases b with
  | false => rfl
  | true =>
    obtain ⟨o, ho⟩ := h.owned i hi
    rw [hn o] at ho
    cases ho

end Conserved

end Pool
