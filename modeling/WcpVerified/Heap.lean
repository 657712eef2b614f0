import Mathlib

/-!
# `Heap`: the slab allocator of the copy buffers

The arena is `blocks` blocks of `blockSize` bytes, starting at the address `data`. `usedList` has
one flag a block. (`Config::VALGRIND_MODE` is a constant `false`, so its branches are left out.)
-/

namespace Wcp

/-- A heap as its constructor makes it: `alignment` is a power of two, as the constructor asserts,
`aligned_alloc` returned an address that is a multiple of it, and the arena lies in the address
space. -/
structure Heap where
  blocks : ℕ
  blockSize : ℕ
  alignment : ℕ
  data : ℕ
  alignment_pow : ∃ k, alignment = 2 ^ k
  data_aligned : alignment ∣ data
  arena_le : data + blocks * blockSize ≤ 2 ^ 64

namespace Heap

/-- The address of block `i`. -/
def blockAddr (h : Heap) (i : ℕ) : ℕ := h.data + h.blockSize * i

/-- `getBlock`: the first block that is not used, now marked used. -/
def getBlock (h : Heap) (usedList : List Bool) : Option ℕ × List Bool :=
  match usedList.findIdx? (!·) with
  | some i => (some (h.blockAddr i), usedList.set i true)
  | none => (none, usedList)

/-- The index `returnBlock` computes from an address. -/
def blockIndex (h : Heap) (block : ℕ) : ℕ := (block - h.data) / h.blockSize

/-- `returnBlock`. -/
def returnBlock (h : Heap) (usedList : List Bool) (block : ℕ) : List Bool :=
  usedList.set (h.blockIndex block) false

/-- `getFreeBlocksCount`. -/
def getFreeBlocksCount (usedList : List Bool) : ℕ := usedList.countP (!·)

end Heap

end Wcp
