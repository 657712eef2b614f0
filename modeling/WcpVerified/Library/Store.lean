import Mathlib

/-!
# Stores of objects with fresh addresses

A store holds the objects of one class that a program has allocated. Addresses are handed out in
increasing order and never reused, so that a pointer kept after its object was destroyed is seen to
dangle: `get?` of it is `none` for ever. `sum` adds up a quantity over the objects that are alive.
-/

/-- A store: the next fresh address, and the objects alive. -/
structure Store (α : Type*) where
  /-- The next address to be handed out. -/
  next : ℕ
  /-- The object at an address, if it was allocated and not yet destroyed. -/
  get? : ℕ → Option α
  /-- Nothing lives at an address that was not handed out. -/
  fresh : ∀ i, next ≤ i → get? i = none

namespace Store

variable {α : Type*}

/-- The store of a program that has allocated nothing. -/
def empty : Store α := ⟨0, fun _ => none, fun _ _ => rfl⟩

/-- Allocate `a` at the next address. -/
def push (s : Store α) (a : α) : Store α where
  next := s.next + 1
  get? := Function.update s.get? s.next (some a)
  fresh i hi := by
    rw [Function.update_of_ne (by omega)]
    exact s.fresh i (by omega)

/-- Change the object at `i`, if there is one. -/
def modify (s : Store α) (i : ℕ) (g : α → α) : Store α where
  next := s.next
  get? := Function.update s.get? i ((s.get? i).map g)
  fresh j hj := by
    by_cases h : j = i
    · subst h; simp [s.fresh j hj]
    · rw [Function.update_of_ne h]; exact s.fresh j hj

/-- Destroy the object at `i`. -/
def erase (s : Store α) (i : ℕ) : Store α where
  next := s.next
  get? := Function.update s.get? i none
  fresh j hj := by
    by_cases h : j = i
    · subst h; simp
    · rw [Function.update_of_ne h]; exact s.fresh j hj

variable {s : Store α} {i j : ℕ} {a : α}

@[simp] theorem next_push : (s.push a).next = s.next + 1 := rfl
@[simp] theorem next_modify {g : α → α} : (s.modify i g).next = s.next := rfl
@[simp] theorem next_erase : (s.erase i).next = s.next := rfl

theorem lt_next (h : s.get? i = some a) : i < s.next := by
  by_contra hn
  rw [s.fresh i (by omega)] at h
  cases h

@[simp] theorem get?_push_self : (s.push a).get? s.next = some a := by simp [push]

theorem get?_push (j : ℕ) : (s.push a).get? j = if j = s.next then some a else s.get? j := by
  by_cases h : j = s.next <;> simp [push, h]

theorem get?_push_of_some {b : α} (h : s.get? j = some b) : (s.push a).get? j = some b := by
  have := lt_next h
  rw [get?_push, if_neg (by omega), h]

theorem get?_modify {g : α → α} (j : ℕ) :
    (s.modify i g).get? j = if j = i then (s.get? i).map g else s.get? j := by
  by_cases h : j = i <;> simp [modify, h]

@[simp] theorem get?_modify_eq_none {g : α → α} :
    (s.modify i g).get? j = none ↔ s.get? j = none := by
  rw [get?_modify]
  split
  · rename_i h
    rw [Option.map_eq_none_iff, h]
  · exact Iff.rfl

theorem get?_modify_self {g : α → α} (h : s.get? i = some a) :
    (s.modify i g).get? i = some (g a) := by simp [get?_modify, h]

theorem get?_modify_of_ne {g : α → α} (h : j ≠ i) : (s.modify i g).get? j = s.get? j := by
  simp [get?_modify, h]

/-- Where a changed object comes from. -/
theorem exists_of_get?_modify {g : α → α} {b : α} (h : (s.modify i g).get? j = some b) :
    ∃ a, s.get? j = some a ∧ (j = i ∧ b = g a ∨ j ≠ i ∧ b = a) := by
  by_cases hj : j = i
  · subst hj
    rw [get?_modify, if_pos rfl] at h
    obtain ⟨a, ha, rfl⟩ := Option.map_eq_some_iff.mp h
    exact ⟨a, ha, .inl ⟨rfl, rfl⟩⟩
  · rw [get?_modify_of_ne hj] at h
    exact ⟨b, h, .inr ⟨hj, rfl⟩⟩

theorem get?_erase (j : ℕ) : (s.erase i).get? j = if j = i then none else s.get? j := by
  by_cases h : j = i <;> simp [erase, h]

@[simp] theorem get?_erase_self : (s.erase i).get? i = none := by simp [get?_erase]

theorem get?_erase_of_ne (h : j ≠ i) : (s.erase i).get? j = s.get? j := by
  simp [get?_erase, h]

theorem of_get?_erase (h : (s.erase i).get? j = some a) : j ≠ i ∧ s.get? j = some a := by
  rw [get?_erase] at h
  split at h
  · cases h
  · exact ⟨‹_›, h⟩

theorem of_get?_push {b : α} (h : (s.push a).get? j = some b) :
    j = s.next ∧ b = a ∨ j ≠ s.next ∧ s.get? j = some b := by
  rw [get?_push] at h
  split at h
  · cases h; exact .inl ⟨‹_›, rfl⟩
  · exact .inr ⟨‹_›, h⟩

/-! ## Sums over the objects alive -/

/-- The sum of `f` over the objects alive. -/
def sum (s : Store α) (f : ℕ → α → ℕ) : ℕ :=
  ∑ i ∈ Finset.range s.next, (s.get? i).elim 0 (f i)

/-- The number of objects alive. -/
def size (s : Store α) : ℕ := s.sum fun _ _ => 1

variable {f : ℕ → α → ℕ}

@[simp] theorem sum_empty : (empty : Store α).sum f = 0 := by simp [sum, empty]

theorem sum_push : (s.push a).sum f = s.sum f + f s.next a := by
  unfold sum
  rw [next_push, Finset.sum_range_succ]
  congr 1
  · refine Finset.sum_congr rfl fun j hj => ?_
    rw [get?_push, if_neg (by have := Finset.mem_range.mp hj; omega)]
  · simp

/-- Changing the objects at one address changes the sum by that object's part. -/
theorem sum_update_eq (s' : Store α) (hn : s'.next = s.next) (hi : i < s.next)
    (h : ∀ j, j ≠ i → s'.get? j = s.get? j) :
    s'.sum f + (s.get? i).elim 0 (f i) = s.sum f + (s'.get? i).elim 0 (f i) := by
  have hmem : i ∈ Finset.range s.next := Finset.mem_range.mpr hi
  unfold sum
  rw [hn, ← Finset.add_sum_erase _ _ hmem, ← Finset.add_sum_erase (Finset.range s.next) _ hmem]
  have : ∑ j ∈ (Finset.range s.next).erase i, (s'.get? j).elim 0 (f j) =
      ∑ j ∈ (Finset.range s.next).erase i, (s.get? j).elim 0 (f j) := by
    refine Finset.sum_congr rfl fun j hj => ?_
    rw [h j (Finset.ne_of_mem_erase hj)]
  omega

theorem sum_modify {g : α → α} (h : s.get? i = some a) :
    (s.modify i g).sum f + f i a = s.sum f + f i (g a) := by
  have := sum_update_eq (s := s) (f := f) (s.modify i g) rfl (lt_next h)
    fun j hj => get?_modify_of_ne hj
  simpa [h, get?_modify_self h] using this

theorem sum_erase (h : s.get? i = some a) : (s.erase i).sum f + f i a = s.sum f := by
  have := sum_update_eq (s := s) (f := f) (s.erase i) rfl (lt_next h)
    fun j hj => get?_erase_of_ne hj
  simpa [h] using this

/-- A change that keeps `f` of the object keeps the sum. -/
theorem sum_modify_eq {g : α → α} (hg : ∀ a, s.get? i = some a → f i (g a) = f i a) :
    (s.modify i g).sum f = s.sum f := by
  cases h : s.get? i with
  | some a =>
    have := sum_modify (f := f) (g := g) h
    have := hg a h
    omega
  | none =>
    unfold sum
    refine Finset.sum_congr rfl fun j _ => ?_
    by_cases hj : j = i
    · subst hj; simp [get?_modify, h]
    · rw [get?_modify_of_ne hj]

theorem le_sum (h : s.get? i = some a) : f i a ≤ s.sum f := by
  have := Finset.single_le_sum (f := fun j => (s.get? j).elim 0 (f j)) (fun _ _ => Nat.zero_le _)
    (Finset.mem_range.mpr (lt_next h))
  simpa [sum, h] using this

/-- Two objects. -/
theorem add_le_sum {b : α} (hi : s.get? i = some a) (hj : s.get? j = some b) (hij : i ≠ j) :
    f i a + f j b ≤ s.sum f := by
  have h1 := sum_erase (f := f) hi
  have h2 := le_sum (s := s.erase i) (f := f) (i := j) (a := b)
    (by rw [get?_erase_of_ne hij.symm]; exact hj)
  omega

theorem sum_eq_zero (h : ∀ i a, s.get? i = some a → f i a = 0) : s.sum f = 0 := by
  refine Finset.sum_eq_zero fun i _ => ?_
  cases hi : s.get? i with
  | none => rfl
  | some a => exact h i a hi

theorem sum_le_sum {g : ℕ → α → ℕ} (h : ∀ i a, s.get? i = some a → f i a ≤ g i a) :
    s.sum f ≤ s.sum g := by
  refine Finset.sum_le_sum fun i _ => ?_
  cases hi : s.get? i with
  | none => exact le_rfl
  | some a => exact h i a hi

theorem exists_of_sum_pos (h : 0 < s.sum f) : ∃ i a, s.get? i = some a ∧ 0 < f i a := by
  by_contra hc
  push Not at hc
  have := sum_eq_zero (s := s) (f := f) fun i a hi => by have := hc i a hi; omega
  omega

theorem sum_congr {g : ℕ → α → ℕ} (h : ∀ i a, s.get? i = some a → f i a = g i a) :
    s.sum f = s.sum g := by
  refine Finset.sum_congr rfl fun i _ => ?_
  cases hi : s.get? i with
  | none => rfl
  | some a => exact h i a hi

theorem sum_add {g : ℕ → α → ℕ} : (s.sum fun i a => f i a + g i a) = s.sum f + s.sum g := by
  unfold sum
  rw [← Finset.sum_add_distrib]
  refine Finset.sum_congr rfl fun i _ => ?_
  cases s.get? i <;> rfl

theorem size_pos (h : s.get? i = some a) : 0 < s.size := le_sum (f := fun _ _ => 1) h

theorem size_eq_zero : s.size = 0 ↔ ∀ i, s.get? i = none := by
  constructor
  · intro h i
    cases hi : s.get? i with
    | none => rfl
    | some a => have := size_pos hi; omega
  · intro h
    exact sum_eq_zero fun i a hi => by rw [h i] at hi; cases hi

end Store
