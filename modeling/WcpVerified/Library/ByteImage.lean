import Mathlib

/-!
# Memory and file contents as byte images

A memory is a function from addresses to bytes, a file a list of bytes. `store` and `load` access a
range of memory, `pread` and `pwrite` a range of a file: a write past the end of a file first fills
the gap with zeros, and a write of no bytes changes nothing.
-/

namespace ByteImage

variable {β : Type*}

/-- The memory after `bytes` were stored from address `addr` on. -/
def store (mem : ℕ → β) (addr : ℕ) (bytes : List β) : ℕ → β :=
  fun a => if addr ≤ a then (bytes[a - addr]?).getD (mem a) else mem a

/-- The `len` bytes of memory from address `addr` on. -/
def load (mem : ℕ → β) (addr len : ℕ) : List β :=
  (List.range len).map fun i => mem (addr + i)

/-- The at most `len` bytes of a file from `off` on. -/
def pread (content : List β) (off len : ℕ) : List β :=
  (content.drop off).take len

/-- The file after `bytes` were written at `off`. -/
def pwrite [Zero β] (content : List β) (off : ℕ) : (bytes : List β) → List β
  | [] => content
  | b :: bytes =>
    content.take off ++ List.replicate (off - content.length) 0 ++ (b :: bytes)
      ++ content.drop (off + (b :: bytes).length)

/-! ## Memory -/

theorem store_of_lt {mem : ℕ → β} {addr a : ℕ} {bytes : List β} (h : a < addr) :
    store mem addr bytes a = mem a := by
  rw [store, if_neg (by omega)]

theorem store_of_ge {mem : ℕ → β} {addr a : ℕ} {bytes : List β} (h : addr + bytes.length ≤ a) :
    store mem addr bytes a = mem a := by
  rw [store, if_pos (by omega), List.getElem?_eq_none (by omega), Option.getD_none]

theorem store_of_getElem? {mem : ℕ → β} {addr i : ℕ} {bytes : List β} {b : β}
    (h : bytes[i]? = some b) : store mem addr bytes (addr + i) = b := by
  rw [store, if_pos (by omega), Nat.add_sub_cancel_left, h, Option.getD_some]

@[simp] theorem length_load {mem : ℕ → β} {addr len : ℕ} : (load mem addr len).length = len := by
  simp [load]

theorem getElem?_load {mem : ℕ → β} {addr len i : ℕ} (h : i < len) :
    (load mem addr len)[i]? = some (mem (addr + i)) := by
  simp [load, h]

/-! ## Files -/

theorem getElem?_pread {content : List β} {off len i : ℕ} (h : i < len) :
    (pread content off len)[i]? = content[off + i]? := by
  rw [pread, List.getElem?_take, if_pos h, List.getElem?_drop]

theorem length_pread {content : List β} {off len : ℕ} (h : off + len ≤ content.length) :
    (pread content off len).length = len := by
  rw [pread, List.length_take, List.length_drop]
  omega

theorem pread_append (content : List β) (off k len : ℕ) :
    pread content off k ++ pread content (off + k) len = pread content off (k + len) := by
  rw [pread, pread, pread, ← List.drop_drop, List.take_add]

/-! ## Memory that holds a part of a file -/

/-- Memory that holds a range of a file. -/
def Holds (mem : ℕ → β) (addr : ℕ) (content : List β) (off len : ℕ) : Prop :=
  ∀ i < len, content[off + i]? = some (mem (addr + i))

section Holds

variable {mem : ℕ → β} {addr off len j k : ℕ} {content : List β}

theorem Holds.mono (h : Holds mem addr content off len) (hk : k ≤ len) :
    Holds mem addr content off k := fun i hi => h i (by omega)

/-- Reading the bytes that follow extends the range. -/
theorem Holds.store (h : Holds mem addr content off k) (len : ℕ)
    (hlen : off + k + len ≤ content.length) :
    Holds (store mem (addr + k) (pread content (off + k) len)) addr content off (k + len) := by
  intro i hi
  by_cases hik : i < k
  · rw [store_of_lt (by omega)]
    exact h i hik
  · obtain ⟨j, rfl⟩ := Nat.exists_eq_add_of_le (Nat.le_of_not_lt hik)
    have hj : j < len := by omega
    have hget : (pread content (off + k) len)[j]? = some (content[off + k + j]) := by
      rw [getElem?_pread hj, List.getElem?_eq_getElem]
    rw [← Nat.add_assoc addr, store_of_getElem? hget, ← Nat.add_assoc off, List.getElem?_eq_getElem]

/-- Storing elsewhere leaves the range alone. -/
theorem Holds.store_of_apart {a : ℕ} {bytes : List β} (h : Holds mem addr content off len)
    (hout : a + bytes.length ≤ addr ∨ addr + len ≤ a) :
    Holds (ByteImage.store mem a bytes) addr content off len := by
  intro i hi
  rw [h i hi]
  rcases hout with hout | hout
  · rw [store_of_ge (by omega)]
  · rw [store_of_lt (by omega)]

theorem Holds.load_eq (h : Holds mem addr content off len) (hk : k + j ≤ len) :
    load mem (addr + k) j = pread content (off + k) j := by
  refine List.ext_getElem? fun i => ?_
  by_cases hi : i < j
  · rw [getElem?_load hi, getElem?_pread hi, Nat.add_assoc, Nat.add_assoc]
    exact (h (k + i) (by omega)).symm
  · rw [List.getElem?_eq_none (by simpa using hi), List.getElem?_eq_none]
    simp only [pread, List.length_take]
    omega

end Holds

section Write

variable [Zero β] {content bytes : List β} {off len : ℕ}

theorem length_pwrite :
    (pwrite content off bytes).length =
      if bytes = [] then content.length else max content.length (off + bytes.length) := by
  cases bytes with
  | nil => rfl
  | cons b bs =>
    simp only [pwrite, List.length_append, List.length_take, List.length_replicate,
      List.length_drop, List.length_cons, reduceCtorEq, if_false]
    omega

theorem length_pwrite_le {n : ℕ} (hc : content.length ≤ n) (hb : off + bytes.length ≤ n) :
    (pwrite content off bytes).length ≤ n := by
  rw [length_pwrite]
  split <;> omega

/-- Inside the range written, the file holds what was written. -/
theorem getElem?_pwrite_mem {i : ℕ} (h : i < bytes.length) :
    (pwrite content off bytes)[off + i]? = bytes[i]? := by
  cases bytes with
  | nil => simp at h
  | cons b bs =>
    have hlen : (content.take off ++ List.replicate (off - content.length) (0 : β)).length
        = off := by
      simp only [List.length_append, List.length_take, List.length_replicate]
      omega
    rw [pwrite, List.append_assoc, List.getElem?_append_right (by omega), hlen,
      Nat.add_sub_cancel_left, List.getElem?_append_left h]

/-- Before the range written, bytes that were there stay. -/
theorem getElem?_pwrite_of_lt {i : ℕ} (h : i < off) (hi : i < content.length) :
    (pwrite content off bytes)[i]? = content[i]? := by
  cases bytes with
  | nil => rfl
  | cons b bs =>
    rw [pwrite, List.append_assoc, List.append_assoc,
      List.getElem?_append_left (by rw [List.length_take]; omega), List.getElem?_take, if_pos h]

/-- After the range written, bytes that were there stay. -/
theorem getElem?_pwrite_of_ge {i : ℕ} (h : off + bytes.length ≤ i) (hi : i < content.length) :
    (pwrite content off bytes)[i]? = content[i]? := by
  cases bytes with
  | nil => rfl
  | cons b bs =>
    have hlen : (content.take off ++ List.replicate (off - content.length) (0 : β)
        ++ (b :: bs)).length = off + (b :: bs).length := by
      simp only [List.length_append, List.length_take, List.length_replicate]
      omega
    rw [pwrite, List.getElem?_append_right (by omega), hlen, List.getElem?_drop]
    congr 1
    omega

/-- Outside the range written, bytes that were there stay. -/
theorem getElem?_pwrite_of_notMem {i : ℕ} {b : β} (h : i < off ∨ off + bytes.length ≤ i)
    (hi : content[i]? = some b) : (pwrite content off bytes)[i]? = some b := by
  have hlt := (List.getElem?_eq_some_iff.mp hi).1
  rcases h with h | h
  · rw [getElem?_pwrite_of_lt h hlt, hi]
  · rw [getElem?_pwrite_of_ge h hlt, hi]

/-- Two writes, one right after the other in the file. -/
theorem pwrite_pwrite (content : List β) (off : ℕ) (bytes bytes' : List β) :
    pwrite (pwrite content off bytes) (off + bytes.length) bytes' =
      pwrite content off (bytes ++ bytes') := by
  cases bytes with
  | nil => rfl
  | cons b bs =>
    cases bytes' with
    | nil => rw [List.append_nil]; rfl
    | cons b' bs' =>
      have hlen : (content.take off ++ List.replicate (off - content.length) (0 : β)
          ++ (b :: bs)).length = off + (b :: bs).length := by
        simp only [List.length_append, List.length_take, List.length_replicate]
        omega
      have hgap : off + (b :: bs).length - (pwrite content off (b :: bs)).length = 0 := by
        rw [length_pwrite]
        simp only [reduceCtorEq, if_false]
        omega
      rw [pwrite, hgap]
      simp only [pwrite, List.replicate_zero, List.append_nil]
      rw [List.take_left' hlen, List.drop_append, List.drop_eq_nil_of_le (by omega), hlen,
        List.drop_drop, List.nil_append, List.append_assoc _ (b :: bs)]
      congr 2
      simp only [List.append_eq, List.length_cons, List.length_append]
      omega

/-- Writing back what the file holds changes nothing. -/
theorem pwrite_pread_self (h : off + len ≤ content.length) :
    pwrite content off (pread content off len) = content := by
  have hlen := length_pread h
  cases hb : pread content off len with
  | nil => rfl
  | cons b bs =>
    rw [hb] at hlen
    rw [pwrite, hlen, ← hb, Nat.sub_eq_zero_of_le (by omega), List.replicate_zero, List.append_nil,
      pread, ← List.drop_drop, List.append_assoc, List.take_append_drop, List.take_append_drop]

end Write

/-! ## Files that hold the same bytes -/

/-- A file holds the bytes of `data` from `lo` up to `hi`, each at its place. -/
def Matches (content data : List β) (lo hi : ℕ) : Prop :=
  ∀ q, lo ≤ q → q < hi → ∃ c, data[q]? = some c ∧ content[q]? = some c

section Matches

variable {content data : List β} {lo mid hi off k : ℕ}

theorem Matches.mono {hi' : ℕ} (h : Matches content data lo hi) (hle : hi' ≤ hi) :
    Matches content data lo hi' := fun q hlo hhi => h q hlo (by omega)

theorem matches_self (content data : List β) (lo : ℕ) : Matches content data lo lo :=
  fun q hlo hhi => by omega

theorem Matches.append (h : Matches content data lo mid) (h' : Matches content data mid hi) :
    Matches content data lo hi := by
  intro q hlo hhi
  by_cases hq : q < mid
  · exact h q hlo hq
  · exact h' q (by omega) hhi

variable [Zero β]

theorem matches_pwrite (hk : off + k ≤ data.length) :
    Matches (pwrite content off (pread data off k)) data off (off + k) := by
  intro q hlo hhi
  obtain ⟨i, rfl⟩ := Nat.exists_eq_add_of_le hlo
  have hi : i < k := by omega
  refine ⟨data[off + i], List.getElem?_eq_getElem _, ?_⟩
  rw [getElem?_pwrite_mem (by rw [length_pread hk]; exact hi), getElem?_pread hi,
    List.getElem?_eq_getElem]

/-- Bytes of `data` that are written to their place keep what holds bytes of `data`. -/
theorem Matches.pwrite (h : Matches content data lo hi) (hk : off + k ≤ data.length) :
    Matches (pwrite content off (pread data off k)) data lo hi := by
  intro q hlo hhi
  by_cases hin : off ≤ q ∧ q < off + k
  · exact matches_pwrite hk q hin.1 hin.2
  · obtain ⟨c, hc, hcontent⟩ := h q hlo hhi
    refine ⟨c, hc, getElem?_pwrite_of_notMem ?_ hcontent⟩
    rw [length_pread hk]
    omega

omit [Zero β] in
theorem eq_of_matches (hlen : content.length ≤ data.length)
    (h : Matches content data 0 data.length) : content = data := by
  refine List.ext_getElem? fun q => ?_
  by_cases hq : q < data.length
  · obtain ⟨c, hc, hcontent⟩ := h q (Nat.zero_le q) hq
    rw [hc, hcontent]
  · rw [List.getElem?_eq_none (by omega), List.getElem?_eq_none (by omega)]

end Matches

end ByteImage
