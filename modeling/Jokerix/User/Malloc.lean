import Jokerix.Heap.BuddyBlocks
import Jokerix.Lib.Bytes

/-!
# The user heap

`malloc` and `free` of `user/malloc.c`. The buddy tree is the kernel's in unsigned arithmetic, with
`-1` wrapped to the largest `uint32` as the mark of failure; the loops of the two copies are the
same. Where the linker puts the array `HEAP` is a parameter.
-/

namespace Jokerix.User

open TreeArray

def userHeapSize : ℕ := 0x1000
def minBlockSize : ℕ := 0x20
def heapBlockNum : ℕ := 0x80

/-- The place of the array `HEAP` in the address space. -/
structure HeapRegion where
  base : ℕ
  pos : 0 < base
  fits : base + userHeapSize ≤ 2 ^ 64

/-- The heap: the buddy tree and the memory that holds `HEAP`. -/
structure UserHeap where
  region : HeapRegion
  tree : BuddyTree
  mem : Bytes.Memory

def initHeap (h : UserHeap) : UserHeap :=
  { h with tree := buddyInit h.tree heapBlockNum }

/-- Round a 32-bit unsigned integer up to a power of two. -/
def fixSize (size : BitVec 32) : BitVec 32 :=
  let n := size - 1
  let n := n ||| n >>> 1
  let n := n ||| n >>> 2
  let n := n ||| n >>> 4
  let n := n ||| n >>> 8
  let n := n ||| n >>> 16
  n + 1

/-- The request of `buddyAlloc` in blocks, rounded to a power of two. -/
def buddyRequest (size : BitVec 32) : BitVec 32 :=
  if size ≤ 0 then 1
  else if isPowerOf2 size then size
  else fixSize size

/-- Allocate `size` blocks: the offset of the first block, or `-1`; `none` when the descent does
not end. -/
def buddyAlloc (t : BuddyTree) (size : BitVec 32) : Option (BitVec 32 × BuddyTree) :=
  let size := buddyRequest size
  if t.longest 0 < size.toNat then some (-1, t)
  else
    match buddyDescend t.longest size.toNat (t.size + 1) t.size 0 with
    | none => none
    | some index =>
      let longest := Function.update t.longest index 0
      let offset := BitVec.ofNat 32 (index + 1) * size - BitVec.ofNat 32 t.size
      some (offset, { t with longest := buddyAllocUp longest index index })

/-- The number of blocks `malloc` asks for. -/
def mallocBlocks (size : BitVec 32) : BitVec 32 := (size - 1) / BitVec.ofNat 32 minBlockSize + 1

/-- The number of bytes `malloc` clears. -/
def mallocBytes (size : BitVec 32) : ℕ :=
  (fixSize (mallocBlocks size) * BitVec.ofNat 32 minBlockSize).toNat

/-- Allocate `size` bytes: the address and the heap after it. -/
def malloc (h : UserHeap) (size : BitVec 32) : Except Halt (ℕ × UserHeap) :=
  if size = 0 then .ok (0, h)
  else
    match buddyAlloc h.tree (mallocBlocks size) with
    | none => .error .diverge
    | some (block, tree) =>
      if block = -1 then .error (.panic "Malloc failed!\n")
      else
        let beginAddr := h.region.base + (block * BitVec.ofNat 32 minBlockSize).toNat
        .ok (beginAddr,
          { h with tree := tree, mem := Bytes.fill h.mem beginAddr (mallocBytes size) 0 })

def free (h : UserHeap) (ptr : ℕ) : UserHeap :=
  if ptr < h.region.base then h
  else if ptr > h.region.base + userHeapSize - minBlockSize then h
  else { h with tree := buddyFree h.tree ((ptr - h.region.base) / minBlockSize) }

/-! ### Sizes -/

lemma toNat_or_ushiftRight (n : BitVec 32) (k : ℕ) :
    (n ||| n >>> k).toNat = n.toNat ||| n.toNat >>> k := by
  rw [BitVec.toNat_or, BitVec.toNat_ushiftRight]

lemma toNat_fixSize {n : BitVec 32} (h1 : 1 ≤ n.toNat) (h2 : n.toNat ≤ 2 ^ 31) :
    (fixSize n).toNat = 2 ^ Nat.clog 2 n.toNat := by
  have h0 := toNat_ofNat_sub_one h1 n.isLt
  rw [BitVec.ofNat_toNat, BitVec.setWidth_eq] at h0
  have hs := PowTwo.smear_add_one h1 n.isLt.le
  have hval : 2 ^ Nat.clog 2 n.toNat ≤ 2 ^ 31 :=
    Nat.pow_le_pow_right two_pos (Nat.clog_le_of_le_pow h2)
  simp only [fixSize]
  rw [BitVec.toNat_add, toNat_or_ushiftRight, toNat_or_ushiftRight, toNat_or_ushiftRight,
    toNat_or_ushiftRight, toNat_or_ushiftRight, h0]
  change (PowTwo.smear (n.toNat - 1) + 1) % 2 ^ 32 = _
  rw [hs, Nat.mod_eq_of_lt (by omega)]

/-- The request is rounded to the least power of two that is large enough. -/
lemma toNat_buddyRequest {n : BitVec 32} (h1 : 1 ≤ n.toNat) (h2 : n.toNat ≤ 2 ^ 31) :
    (buddyRequest n).toNat = 2 ^ Nat.clog 2 n.toNat := by
  have hpos : ¬ n ≤ 0 := by
    have hzero : (0 : BitVec 32).toNat = 0 := rfl
    rw [BitVec.le_def]
    omega
  have hiff := isPowerOf2_iff h1 n.isLt
  rw [BitVec.ofNat_toNat, BitVec.setWidth_eq] at hiff
  rw [buddyRequest, if_neg hpos]
  split_ifs with hp
  · exact (PowTwo.pow_clog_of_isPowerOfTwo (hiff.mp hp)).symm
  · exact toNat_fixSize h1 h2

lemma toNat_mallocBlocks {size : BitVec 32} (h : size ≠ 0) :
    (mallocBlocks size).toNat = (size.toNat - 1) / minBlockSize + 1 := by
  have hpos : size.toNat ≠ 0 := fun h0 => h (BitVec.eq_of_toNat_eq h0)
  have hlt := size.isLt
  have h0 := toNat_ofNat_sub_one (by omega : 1 ≤ size.toNat) hlt
  rw [BitVec.ofNat_toNat, BitVec.setWidth_eq] at h0
  have hone : (1 : BitVec 32).toNat = 1 := rfl
  have hblock : (BitVec.ofNat 32 minBlockSize).toNat = minBlockSize := rfl
  rw [mallocBlocks, BitVec.toNat_add, BitVec.toNat_udiv, h0, hone, hblock]
  simp only [minBlockSize]
  omega

lemma mallocBlocks_bounds {size : BitVec 32} (h : size ≠ 0) :
    1 ≤ (mallocBlocks size).toNat ∧ (mallocBlocks size).toNat ≤ 2 ^ 27 ∧
      size.toNat ≤ (mallocBlocks size).toNat * minBlockSize ∧
      (mallocBlocks size).toNat = (size.toNat + (minBlockSize - 1)) / minBlockSize := by
  have hpos : size.toNat ≠ 0 := fun h0 => h (BitVec.eq_of_toNat_eq h0)
  have hlt := size.isLt
  rw [toNat_mallocBlocks h]
  simp only [minBlockSize]
  omega

/-- The clearing covers the rounded size; above `2 ^ 26` blocks the product would wrap. -/
lemma mallocBytes_eq {size : BitVec 32} (h : size ≠ 0) (hle : (mallocBlocks size).toNat ≤ 2 ^ 26) :
    mallocBytes size = 2 ^ Nat.clog 2 (mallocBlocks size).toNat * minBlockSize := by
  obtain ⟨h1, h2, _⟩ := mallocBlocks_bounds h
  have hval : 2 ^ Nat.clog 2 (mallocBlocks size).toNat ≤ 2 ^ 26 :=
    Nat.pow_le_pow_right two_pos (Nat.clog_le_of_le_pow hle)
  rw [mallocBytes, BitVec.toNat_mul, toNat_fixSize h1 (by omega), BitVec.toNat_ofNat]
  simp only [minBlockSize]
  omega

/-! ### What the two operations do -/

/-- The depth of the buddy tree of a user program. -/
def heapDepth : ℕ := 7

lemma heapBlockNum_eq : heapBlockNum = 2 ^ heapDepth := rfl

/-- The bytes of a tree node: the address of the first one and their number. -/
def nodeRange (base p : ℕ) : ℕ × ℕ :=
  (base + (nodeBlock heapDepth p).1 * minBlockSize, (nodeBlock heapDepth p).2 * minBlockSize)

lemma nodeRange_inside (base : ℕ) {p : ℕ} (hp : IsNode heapDepth p) :
    0 < (nodeRange base p).2 ∧ base ≤ (nodeRange base p).1 ∧
      (nodeRange base p).1 + (nodeRange base p).2 ≤ base + userHeapSize := by
  have hfit := (nodeBlock_aligned hp).2
  have hpos : 0 < (nodeBlock heapDepth p).2 := Nat.two_pow_pos _
  simp only [nodeRange, minBlockSize, userHeapSize, heapDepth] at *
  omega

/-- The allocator is the kernel's, with its result as a 32-bit pattern. -/
lemma buddyAlloc_eq (t : BuddyTree) {n : BitVec 32} (h1 : 1 ≤ n.toNat) (h2 : n.toNat ≤ 2 ^ 30) :
    buddyAlloc t n =
      (Jokerix.buddyAlloc t n.toNat).map fun r => (BitVec.ofInt 32 r.1, r.2) := by
  have hreq := toNat_buddyRequest h1 (by omega)
  have hreq' := buddyRequest_eq h1 h2
  simp only [buddyAlloc, Jokerix.buddyAlloc, hreq', hreq, Int.toNat_natCast]
  split_ifs
  · rfl
  · rcases buddyDescend t.longest (2 ^ Nat.clog 2 n.toNat : ℕ) (t.size + 1) t.size 0 with _ | index
    · rfl
    · simp only [Option.map_some, Option.some.injEq, Prod.mk.injEq, and_true]
      have hsize : buddyRequest n = BitVec.ofInt 32 (2 ^ Nat.clog 2 n.toNat : ℕ) := by
        rw [BitVec.ofInt_natCast, ← hreq, BitVec.ofNat_toNat, BitVec.setWidth_eq]
      rw [Int.sub_eq_add_neg, BitVec.ofInt_add, BitVec.ofInt_neg, BitVec.ofInt_mul, hsize,
        BitVec.ofInt_natCast, BitVec.sub_eq_add_neg]
      rfl

section
variable {h : UserHeap} {live : Finset ℕ}

/-- `malloc` of a positive size panics without a long enough run, and otherwise returns the first
byte of an uncovered, wholly free node of the rounded size, which it clears. -/
theorem malloc_spec (hr : Represents heapDepth live h.tree) {size : BitVec 32} (hsize : size ≠ 0) :
    (nodeRun heapDepth live 1 < 2 ^ Nat.clog 2 (mallocBlocks size).toNat ∧
      malloc h size = .error (.panic "Malloc failed!\n")) ∨
    2 ^ Nat.clog 2 (mallocBlocks size).toNat ≤ nodeRun heapDepth live 1 ∧
    ∃ p tree, IsNode heapDepth p ∧ Uncovered live p ∧
      (nodeRange h.region.base p).2 = mallocBytes size ∧
      mallocBytes size = 2 ^ Nat.clog 2 (mallocBlocks size).toNat * minBlockSize ∧
      Represents heapDepth (insert p live) tree ∧
      malloc h size = .ok ((nodeRange h.region.base p).1,
        { h with
          tree := tree
          mem := Bytes.fill h.mem (nodeRange h.region.base p).1 (mallocBytes size) 0 }) := by
  obtain ⟨h1, h2, _⟩ := mallocBlocks_bounds hsize
  have heq := buddyAlloc_eq h.tree h1 (by omega)
  rcases buddyAlloc_spec hr h1 (by omega) with
    ⟨hlt, hfail⟩ | ⟨hge, p, tree, hp, hun, _, hh, hok, hr'⟩
  · left
    refine ⟨hlt, ?_⟩
    rw [hfail] at heq
    simp only [malloc, if_neg hsize, heq, Option.map_some]
    rfl
  · right
    obtain ⟨_, hfit⟩ := nodeBlock_aligned hp
    have hrun : 2 ^ Nat.clog 2 (mallocBlocks size).toNat ≤ 2 ^ heapDepth := by
      rw [← hh]
      exact Nat.pow_le_pow_right two_pos (Nat.sub_le _ _)
    have hblocks := Nat.le_pow_clog (by omega : 1 < 2) (mallocBlocks size).toNat
    have hbytes := mallocBytes_eq hsize (by simp only [heapDepth] at hrun; omega)
    have hrange : (nodeRange h.region.base p).2 = mallocBytes size := by
      rw [hbytes, nodeRange, nodeBlock, hh]
    refine ⟨hge, p, tree, hp, hun, hrange, hbytes, hr', ?_⟩
    -- the offset and its product with the block size do not wrap
    have hpos : 0 < (nodeBlock heapDepth p).2 := Nat.two_pow_pos _
    have hlt : (nodeBlock heapDepth p).1 < 128 :=
      calc (nodeBlock heapDepth p).1 < 2 ^ heapDepth := by omega
        _ = 128 := rfl
    change Jokerix.buddyAlloc h.tree _ = some (((nodeBlock heapDepth p).1 : ℤ), tree) at hok
    rw [hok, Option.map_some, BitVec.ofInt_natCast] at heq
    have hto : (BitVec.ofNat 32 (nodeBlock heapDepth p).1).toNat = (nodeBlock heapDepth p).1 := by
      rw [BitVec.toNat_ofNat, Nat.mod_eq_of_lt (by omega)]
    have hne : BitVec.ofNat 32 (nodeBlock heapDepth p).1 ≠ -1 := by
      intro heq'
      have hval : (-1 : BitVec 32).toNat = 2 ^ 32 - 1 := rfl
      rw [heq', hval] at hto
      omega
    have haddr : (BitVec.ofNat 32 (nodeBlock heapDepth p).1 * BitVec.ofNat 32 minBlockSize).toNat =
        (nodeBlock heapDepth p).1 * minBlockSize := by
      have hblock : (BitVec.ofNat 32 minBlockSize).toNat = minBlockSize := rfl
      rw [BitVec.toNat_mul, hto, hblock, Nat.mod_eq_of_lt]
      simp only [minBlockSize]
      omega
    simp only [malloc, if_neg hsize, heq, if_neg hne, haddr]
    rfl

/-- `free` of the first byte of a live node makes exactly that node free. -/
theorem free_spec (hr : Represents heapDepth live h.tree) {a : ℕ} (ha : a ∈ live) :
    Represents heapDepth (live.erase a) (free h (nodeRange h.region.base a).1).tree ∧
      (free h (nodeRange h.region.base a).1).mem = h.mem ∧
      (free h (nodeRange h.region.base a).1).region = h.region := by
  have han := hr.node a ha
  have hfit := (nodeBlock_aligned han).2
  have hpos : 0 < (nodeBlock heapDepth a).2 := Nat.two_pow_pos _
  have hblock : ((nodeRange h.region.base a).1 - h.region.base) / minBlockSize =
      (nodeBlock heapDepth a).1 := by
    simp only [nodeRange]
    rw [Nat.add_sub_cancel_left, Nat.mul_div_cancel _ (by decide)]
  have hnot1 : ¬ (nodeRange h.region.base a).1 < h.region.base := by simp only [nodeRange]; omega
  have hnot2 : ¬ (nodeRange h.region.base a).1 > h.region.base + userHeapSize - minBlockSize := by
    simp only [nodeRange, minBlockSize, userHeapSize, heapDepth] at *
    omega
  have hab : Above a ((nodeBlock heapDepth a).1 + 2 ^ heapDepth) :=
    above_of_mem_leaves ((mem_blockSet han).mp ⟨le_refl _, by omega⟩)
  rw [free, if_neg hnot1, if_neg hnot2, hblock]
  exact ⟨buddyFree_spec hr ha (by omega) hab, rfl, rfl⟩

lemma initHeap_represents (h : UserHeap) : Represents heapDepth ∅ (initHeap h).tree := by
  rw [initHeap, heapBlockNum_eq]
  exact buddyInit_represents h.tree (by decide)

end

end Jokerix.User
