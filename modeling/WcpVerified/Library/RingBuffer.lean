import Mathlib

/-!
# Ring buffers with wrapping counters

A ring of `2 ^ k` slots is addressed by counters of `w` bits that run on forever and wrap: the slot of
a counter is its low `k` bits, and the number of elements between two counters is their difference.
The elements from a head on, read slot by slot, are a list; as long as there are at most `2 ^ k` of
them, writing behind the last one appends to the list, and moving the head on drops from its front,
whatever the counters have wrapped to.
-/

namespace RingBuffer

variable {w : ℕ} {α : Type*}

/-- The mask of a ring of `2 ^ k` slots. -/
def mask (w k : ℕ) : BitVec w := BitVec.ofNat w (2 ^ k - 1)

/-- The `n` elements from the counter `head` on. -/
def window (m : BitVec w) (mem : BitVec w → α) (head : BitVec w) : ℕ → List α
  | 0 => []
  | n + 1 => mem (head &&& m) :: window m mem (head + 1) n

section Window

variable {m : BitVec w} {mem : BitVec w → α} {head : BitVec w}

@[simp] theorem length_window (n : ℕ) : (window m mem head n).length = n := by
  induction n generalizing head with
  | zero => rfl
  | succ n ih => simp only [window, List.length_cons, ih]

theorem add_one_add_ofNat (head : BitVec w) (n : ℕ) :
    head + 1 + BitVec.ofNat w n = head + BitVec.ofNat w (n + 1) := by
  rw [BitVec.add_assoc, BitVec.ofNat_add, BitVec.add_comm 1]
  rfl

theorem window_add (a b : ℕ) : window m mem head (a + b) =
    window m mem head a ++ window m mem (head + BitVec.ofNat w a) b := by
  induction a generalizing head with
  | zero => simp [window]
  | succ a ih =>
    rw [Nat.succ_add, window, window, ih, add_one_add_ofNat]
    rfl

theorem window_succ (n : ℕ) : window m mem head (n + 1) =
    window m mem head n ++ [mem ((head + BitVec.ofNat w n) &&& m)] := by
  rw [window_add]
  rfl

/-- Reading from further on. -/
theorem window_drop {a n : ℕ} (h : a ≤ n) :
    window m mem (head + BitVec.ofNat w a) (n - a) = (window m mem head n).drop a := by
  obtain ⟨b, rfl⟩ := Nat.exists_eq_add_of_le h
  rw [window_add, List.drop_left' (length_window a), Nat.add_sub_cancel_left]

/-- Only the slots of the window matter. -/
theorem window_congr {mem' : BitVec w → α} {n : ℕ}
    (h : ∀ i < n, mem' ((head + BitVec.ofNat w i) &&& m) = mem ((head + BitVec.ofNat w i) &&& m)) :
    window m mem' head n = window m mem head n := by
  induction n with
  | zero => rfl
  | succ n ih =>
    rw [window_succ, window_succ, ih fun i hi => h i (Nat.lt_succ_of_lt hi), h n (Nat.lt_succ_self n)]

end Window

section Slots

variable {k : ℕ}

/-- The slot of a counter is its low bits. -/
theorem toNat_and_mask (hk : k ≤ w) (i : BitVec w) : (i &&& mask w k).toNat = i.toNat % 2 ^ k := by
  have hle : 2 ^ k ≤ 2 ^ w := Nat.pow_le_pow_right (by decide) hk
  have hpos := Nat.two_pow_pos k
  rw [BitVec.toNat_and, mask, BitVec.toNat_ofNat, Nat.mod_eq_of_lt (by omega),
    Nat.and_two_pow_sub_one_eq_mod]

theorem slot_lt (hk : k ≤ w) (i : BitVec w) : (i &&& mask w k).toNat < 2 ^ k := by
  rw [toNat_and_mask hk]
  exact Nat.mod_lt _ (Nat.two_pow_pos k)

/-- Different elements of a window are in different slots. -/
theorem slot_inj (hk : k ≤ w) (head : BitVec w) {a b : ℕ} (ha : a < 2 ^ k) (hb : b < 2 ^ k)
    (h : (head + BitVec.ofNat w a) &&& mask w k = (head + BitVec.ofNat w b) &&& mask w k) : a = b := by
  have hdvd : 2 ^ k ∣ 2 ^ w := Nat.pow_dvd_pow 2 hk
  have hslot : ∀ c, ((head + BitVec.ofNat w c) &&& mask w k).toNat = (head.toNat + c) % 2 ^ k := by
    intro c
    rw [toNat_and_mask hk, BitVec.toNat_add, BitVec.toNat_ofNat, Nat.add_mod_mod,
      Nat.mod_mod_of_dvd _ hdvd]
  have hnat := congrArg BitVec.toNat h
  rw [hslot, hslot] at hnat
  have hmod : a ≡ b [MOD 2 ^ k] := Nat.ModEq.add_left_cancel' head.toNat hnat
  exact Nat.ModEq.eq_of_lt_of_lt hmod ha hb

/-- Writing behind the last element of a window that is not full appends to it. -/
theorem window_update [DecidableEq (BitVec w)] (hk : k ≤ w) (mem : BitVec w → α) (head : BitVec w)
    {n : ℕ} (hn : n < 2 ^ k) (a : α) :
    window (mask w k) (Function.update mem ((head + BitVec.ofNat w n) &&& mask w k) a) head (n + 1) =
      window (mask w k) mem head n ++ [a] := by
  rw [window_succ, Function.update_self]
  refine congrArg (· ++ [a]) (window_congr fun i hi => ?_)
  refine Function.update_of_ne (fun hc => ?_) _ _
  have heq := slot_inj hk head (hi.trans hn) hn hc
  omega

end Slots

section Counters

variable {head tail : BitVec w}

/-- The counter that is as far behind the head as the tail is the tail. -/
theorem head_add_distance (head tail : BitVec w) :
    head + BitVec.ofNat w (tail - head).toNat = tail := by
  rw [BitVec.ofNat_toNat, BitVec.setWidth_eq]
  exact add_sub_cancel head tail

/-- The number of elements grows with the tail, also when the tail wraps. -/
theorem toNat_succ_sub (head tail : BitVec w) (h : (tail - head).toNat + 1 < 2 ^ w) :
    (tail + 1 - head).toNat = (tail - head).toNat + 1 := by
  have hw : 1 < 2 ^ w := by omega
  have hone : (1 : BitVec w).toNat = 1 := Nat.mod_eq_of_lt hw
  rw [add_sub_right_comm, BitVec.toNat_add, hone, Nat.mod_eq_of_lt h]

/-- It shrinks when the head moves on. -/
theorem toNat_sub_add {a : ℕ} (h : a ≤ (tail - head).toNat) :
    (tail - (head + BitVec.ofNat w a)).toNat = (tail - head).toNat - a := by
  have hlt : a < 2 ^ w := h.trans_lt (BitVec.isLt _)
  have hnat : (BitVec.ofNat w a).toNat = a := by rw [BitVec.toNat_ofNat, Nat.mod_eq_of_lt hlt]
  have hle : BitVec.ofNat w a ≤ tail - head := by
    rw [BitVec.le_def, hnat]
    exact h
  rw [← sub_sub, BitVec.toNat_sub_of_le hle, hnat]

end Counters

end RingBuffer
