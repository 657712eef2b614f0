import WcpVerified.Liburing

/-!
# Proofs: the rings are queues

The counters of a ring wrap, and its slots are used again and again. The entries between the counters
are still the entries that were put in, in order: getting a slot and filling it appends one, the
kernel takes from the front, and an entry that is queued is never written over.
-/

namespace Wcp

open List MachineWord RingBuffer

/-- A ring is far smaller than its counters can count. -/
theorem pow_lt_of_order_lt {k : ℕ} (h : k < 31) : 2 ^ k < 2 ^ 31 :=
  Nat.pow_lt_pow_right (by decide) h

theorem toNat_entries {k : ℕ} (h : k ≤ 31) : (BitVec.ofNat 32 (2 ^ k)).toNat = 2 ^ k := by
  have hle : 2 ^ k ≤ 2 ^ 31 := Nat.pow_le_pow_right (by decide) h
  rw [BitVec.toNat_ofNat, Nat.mod_eq_of_lt (by omega)]

/-! ## The submission ring -/

namespace IoUringSq

variable {α : Type} {k : ℕ} {sq : IoUringSq α}

/-- A submission ring of `2 ^ k` entries. `array` holds the slots of the entries that the kernel can
see. -/
structure Wf (k : ℕ) (sq : IoUringSq α) : Prop where
  order_lt : k < 31
  kringMask : sq.kringMask = mask 32 k
  kringEntries : sq.kringEntries = BitVec.ofNat 32 (2 ^ k)
  sqeHead : sq.sqeHead = sq.ktail
  visible : (sq.ktail - sq.khead).toNat ≤ (sq.sqeTail - sq.khead).toNat
  length_le : (sq.sqeTail - sq.khead).toNat ≤ 2 ^ k
  array : ∀ i < (sq.ktail - sq.khead).toNat,
    sq.array ((sq.khead + BitVec.ofNat 32 i) &&& mask 32 k) =
      (sq.khead + BitVec.ofNat 32 i) &&& mask 32 k

theorem Wf.order_le (h : Wf k sq) : k ≤ 32 := by
  have := h.order_lt
  omega

theorem queued_eq (h : Wf k sq) :
    sq.queued = window (mask 32 k) sq.sqes sq.khead (sq.sqeTail - sq.khead).toNat := by
  rw [queued, h.kringMask]

theorem length_queued (sq : IoUringSq α) : sq.queued.length = (sq.sqeTail - sq.khead).toNat :=
  length_window _

/-- A slot is free exactly if fewer than `2 ^ k` entries are queued, and filling it appends. -/
theorem getSqe_spec (h : Wf k sq) (e : α) :
    match sq.getSqe with
    | (some slot, sq') => sq.queued.length < 2 ^ k ∧ Wf k (sq'.prep slot e) ∧
        (sq'.prep slot e).queued = sq.queued ++ [e]
    | (none, _) => sq.queued.length = 2 ^ k := by
  have hpow := pow_lt_of_order_lt h.order_lt
  have hle := h.length_le
  have hsucc := toNat_succ_sub sq.khead sq.sqeTail (by omega)
  have hiff : sq.sqeTail + 1 - sq.khead ≤ sq.kringEntries ↔ sq.queued.length < 2 ^ k := by
    rw [BitVec.le_def, hsucc, h.kringEntries, toNat_entries h.order_lt.le, length_queued]
    omega
  unfold getSqe
  by_cases hfree : sq.sqeTail + 1 - sq.khead ≤ sq.kringEntries
  · rw [if_pos hfree]
    have hlt := hiff.mp hfree
    rw [length_queued] at hlt
    refine ⟨hiff.mp hfree, ⟨h.order_lt, h.kringMask, h.kringEntries, h.sqeHead, ?_, ?_, h.array⟩, ?_⟩
    · show (sq.ktail - sq.khead).toNat ≤ (sq.sqeTail + 1 - sq.khead).toNat
      have := h.visible
      omega
    · show (sq.sqeTail + 1 - sq.khead).toNat ≤ 2 ^ k
      omega
    · show window sq.kringMask (Function.update sq.sqes (sq.sqeTail &&& sq.kringMask) e) sq.khead
        (sq.sqeTail + 1 - sq.khead).toNat = _
      have happend := window_update h.order_le sq.sqes sq.khead hlt e
      rw [head_add_distance] at happend
      rw [hsucc, queued_eq h, h.kringMask]
      exact happend
  · rw [if_neg hfree]
    have hge := mt hiff.mpr hfree
    show sq.queued.length = 2 ^ k
    rw [length_queued] at hge ⊢
    omega

theorem prepAll_spec (es : List α) (h : Wf k sq) :
    match sq.prepAll es with
    | some sq' => Wf k sq' ∧ sq'.queued = sq.queued ++ es
    | none => 2 ^ k < sq.queued.length + es.length := by
  induction es generalizing sq with
  | nil => exact ⟨h, (append_nil _).symm⟩
  | cons e es ih =>
    have hget := getSqe_spec h e
    show match (match sq.getSqe with
        | (some slot, sq') => prepAll es (prep slot e sq')
        | (none, _) => none) with
      | some sq' => Wf k sq' ∧ sq'.queued = sq.queued ++ e :: es
      | none => 2 ^ k < sq.queued.length + (e :: es).length
    rcases hsq : sq.getSqe with ⟨slot | slot, sq'⟩
    · rw [hsq] at hget
      show _ < _ + (es.length + 1)
      simp only at hget
      omega
    · rw [hsq] at hget
      obtain ⟨-, hwf, hqueued⟩ := hget
      have hrest := ih hwf
      dsimp only
      rcases hall : prepAll es (prep slot e sq') with _ | sq''
      · rw [hall] at hrest
        show _ < _ + (es.length + 1)
        simp only [hqueued, length_append, length_singleton] at hrest
        omega
      · rw [hall] at hrest
        refine ⟨hrest.1, ?_⟩
        rw [hrest.2, hqueued, append_assoc]
        rfl

/-- The loop of `__io_uring_flush_sq` makes every entry visible. -/
theorem fillArray_spec {n : ℕ} (h : Wf k sq) (hn : (sq.sqeTail - sq.ktail).toNat = n) :
    Wf k (sq.fillArray n) ∧ (sq.fillArray n).queued = sq.queued ∧
      (sq.fillArray n).ktail = (sq.fillArray n).sqeTail := by
  induction n generalizing sq with
  | zero =>
    refine ⟨h, rfl, ?_⟩
    have hzero : sq.sqeTail - sq.ktail = 0 := BitVec.eq_of_toNat_eq hn
    exact (sub_eq_zero.mp hzero).symm
  | succ n ih =>
    have hpow := pow_lt_of_order_lt h.order_lt
    have hle := h.length_le
    have hvis := h.visible
    -- how far the tails are behind the head
    have hdist : (sq.sqeTail - sq.ktail).toNat =
        (sq.sqeTail - sq.khead).toNat - (sq.ktail - sq.khead).toNat := by
      have hsub := toNat_sub_add hvis
      rwa [head_add_distance] at hsub
    have hlt : (sq.ktail - sq.khead).toNat < 2 ^ k := by omega
    have hsucc := toNat_succ_sub sq.khead sq.ktail (by omega)
    refine ih ⟨h.order_lt, h.kringMask, h.kringEntries, ?_, ?_, hle, ?_⟩ ?_
    · show sq.sqeHead + 1 = sq.ktail + 1
      rw [h.sqeHead]
    · show (sq.ktail + 1 - sq.khead).toNat ≤ (sq.sqeTail - sq.khead).toNat
      omega
    · intro i hi
      show Function.update sq.array _ _ ((sq.khead + BitVec.ofNat 32 i) &&& mask 32 k) = _
      have hi : i < (sq.ktail + 1 - sq.khead).toNat := hi
      rw [hsucc] at hi
      rw [h.kringMask, h.sqeHead]
      rcases Nat.lt_succ_iff_lt_or_eq.mp hi with hold | rfl
      · rw [Function.update_of_ne, h.array i hold]
        intro hc
        rw [← head_add_distance sq.khead sq.ktail] at hc
        have heq := slot_inj h.order_le sq.khead (hold.trans hlt) hlt hc
        omega
      · rw [head_add_distance, Function.update_self]
    · show (sq.sqeTail - (sq.ktail + 1)).toNat = n
      have hone : (1 : ℕ) ≤ (sq.sqeTail - sq.ktail).toNat := by omega
      have hsub := toNat_sub_add hone
      rw [hn] at hsub
      exact hsub

theorem flushSq_spec (h : Wf k sq) :
    Wf k sq.flushSq.2 ∧ sq.flushSq.2.queued = sq.queued ∧
      sq.flushSq.2.ktail = sq.flushSq.2.sqeTail ∧ sq.flushSq.1.toNat = sq.queued.length := by
  have hfill : Wf k sq.flushSq.2 ∧ sq.flushSq.2.queued = sq.queued ∧
      sq.flushSq.2.ktail = sq.flushSq.2.sqeTail := by
    unfold flushSq
    dsimp only
    split
    · rename_i heq
      exact ⟨h, rfl, h.sqeHead.symm.trans heq⟩
    · rw [h.sqeHead]
      exact fillArray_spec h rfl
  obtain ⟨hwf, hqueued, htail⟩ := hfill
  refine ⟨hwf, hqueued, htail, ?_⟩
  show (sq.flushSq.2.ktail - sq.flushSq.2.khead).toNat = _
  rw [htail, ← length_queued, hqueued]

/-- The kernel takes the entries that it can see from the front, and drops none. -/
theorem consume_spec {m : ℕ} (h : Wf k sq) (hm : m ≤ (sq.ktail - sq.khead).toNat) :
    (sq.consume m).1 = sq.queued.take m ∧ Wf k (sq.consume m).2 ∧
      (sq.consume m).2.queued = sq.queued.drop m := by
  induction m generalizing sq with
  | zero => exact ⟨rfl, h, rfl⟩
  | succ m ih =>
    have hvis := h.visible
    have hone : ∀ {t : U32}, 1 ≤ (t - sq.khead).toNat →
        (t - (sq.khead + 1)).toNat = (t - sq.khead).toNat - 1 := fun hle => toNat_sub_add hle
    have hk := hone (t := sq.ktail) (by omega)
    have ht := hone (t := sq.sqeTail) (by omega)
    -- the head moves by one
    have hwf : Wf k { sq with khead := sq.khead + 1 } := by
      refine ⟨h.order_lt, h.kringMask, h.kringEntries, h.sqeHead, ?_, ?_, fun i hi => ?_⟩
      · show (sq.ktail - (sq.khead + 1)).toNat ≤ (sq.sqeTail - (sq.khead + 1)).toNat
        omega
      · show (sq.sqeTail - (sq.khead + 1)).toNat ≤ 2 ^ k
        have := h.length_le
        omega
      · have hi : i < (sq.ktail - (sq.khead + 1)).toNat := hi
        have hslot := h.array (i + 1) (by omega)
        rw [← add_one_add_ofNat] at hslot
        exact hslot
    have hqueued : sq.queued = sq.sqes (sq.khead &&& mask 32 k) ::
        IoUringSq.queued { sq with khead := sq.khead + 1 } := by
      rw [queued_eq h, queued_eq hwf]
      show _ = _ :: window (mask 32 k) sq.sqes (sq.khead + 1) (sq.sqeTail - (sq.khead + 1)).toNat
      rw [ht, show (sq.sqeTail - sq.khead).toNat = (sq.sqeTail - sq.khead).toNat - 1 + 1 by omega]
      rfl
    have hindex : sq.array (sq.khead &&& sq.kringMask) = sq.khead &&& mask 32 k := by
      have hslot := h.array 0 (by omega)
      rw [h.kringMask]
      simpa using hslot
    have hrange : sq.khead &&& mask 32 k < sq.kringEntries := by
      have hlt := h.order_lt
      rw [BitVec.lt_def, h.kringEntries, toNat_entries hlt.le]
      exact slot_lt (by omega) _
    obtain ⟨hbatch, hrest, hdrop⟩ := ih hwf (by
      show m ≤ (sq.ktail - (sq.khead + 1)).toNat
      omega)
    refine ⟨?_, hrest, ?_⟩
    · simp only [consume]
      rw [hindex, if_pos hrange, hbatch, hqueued]
      rfl
    · rw [hqueued]
      exact hdrop

end IoUringSq

/-! ## The completion ring -/

namespace IoUringCq

variable {β : Type} {k : ℕ} {cq : IoUringCq β}

/-- A completion ring of `2 ^ k` entries that has never been full. -/
structure Wf (k : ℕ) (cq : IoUringCq β) : Prop where
  order_le : k ≤ 31
  kringMask : cq.kringMask = mask 32 k
  kringEntries : cq.kringEntries = BitVec.ofNat 32 (2 ^ k)
  overflow : cq.overflow = []

theorem length_posted (cq : IoUringCq β) : cq.posted.length = (cq.ktail - cq.khead).toNat :=
  length_window _

/-- Posting to a ring with room appends. -/
theorem post_spec (h : Wf k cq) (c : β) (hroom : cq.posted.length < 2 ^ k) :
    Wf k (cq.post c) ∧ (cq.post c).posted = cq.posted ++ [c] := by
  have hle : 2 ^ k ≤ 2 ^ 31 := Nat.pow_le_pow_right (by decide) h.order_le
  have horder := h.order_le
  rw [length_posted] at hroom
  have hsucc := toNat_succ_sub cq.khead cq.ktail (by omega)
  have hfree : cq.ktail - cq.khead < cq.kringEntries ∧ cq.overflow.isEmpty = true := by
    rw [BitVec.lt_def, h.kringEntries, toNat_entries h.order_le, h.overflow]
    exact ⟨hroom, rfl⟩
  unfold post
  rw [if_pos hfree]
  refine ⟨⟨h.order_le, h.kringMask, h.kringEntries, h.overflow⟩, ?_⟩
  have happend := window_update (by omega : k ≤ 32) cq.cqes cq.khead hroom c
  rw [head_add_distance] at happend
  unfold posted
  rw [hsucc, h.kringMask]
  exact happend

/-- A ring that has never been full is peeked without the kernel. -/
theorem getCqe_spec (h : Wf k cq) : cq.getCqe = (cq.posted.head?, cq) := by
  have hpeek : cq.peekCqe = cq.posted.head? := by
    unfold peekCqe posted
    split
    · rename_i hzero
      rw [hzero]
      rfl
    · rename_i hne
      have hpos : (cq.ktail - cq.khead).toNat ≠ 0 := fun hc => hne (BitVec.eq_of_toNat_eq hc)
      obtain ⟨n, hn⟩ := Nat.exists_eq_succ_of_ne_zero hpos
      rw [hn]
      rfl
  unfold getCqe needsFlush
  rw [hpeek, h.overflow]
  cases cq.posted.head? <;> rfl

/-- A completion that is seen leaves the ring at its front. -/
theorem cqeSeen_spec (h : Wf k cq) (hpos : 0 < cq.posted.length) :
    Wf k cq.cqeSeen ∧ cq.cqeSeen.posted = cq.posted.drop 1 := by
  have hseen : cq.cqeSeen = { cq with khead := cq.khead + 1 } := by
    unfold cqeSeen cqAdvance
    rw [if_neg (by decide)]
  rw [length_posted] at hpos
  rw [hseen]
  refine ⟨⟨h.order_le, h.kringMask, h.kringEntries, h.overflow⟩, ?_⟩
  show window cq.kringMask cq.cqes (cq.khead + 1) (cq.ktail - (cq.khead + 1)).toNat = _
  rw [posted, ← window_drop (show 1 ≤ (cq.ktail - cq.khead).toNat from hpos)]
  exact congrArg (window _ _ _) (toNat_sub_add hpos)

end IoUringCq

end Wcp
