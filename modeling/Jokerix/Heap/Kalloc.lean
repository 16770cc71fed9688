import Jokerix.Heap.BuddyOps
import Jokerix.Lib.Bytes

/-!
# The kernel heap

`kalloc` and `kfree` over the buddy tree and the bytes of the array `HEAP`. Where the linker puts
`HEAP` is a parameter.
-/

namespace Jokerix

open TreeArray

/-- The place of the array `HEAP` in the address space. -/
structure HeapRegion where
  base : ℕ
  pos : 0 < base
  fits : base + kernelHeapSize ≤ 2 ^ 64

/-- The heap: the buddy tree and the memory that holds `HEAP`. -/
structure KernelHeap where
  region : HeapRegion
  tree : BuddyTree
  mem : Bytes.Memory

def initHeap (h : KernelHeap) : KernelHeap :=
  { h with tree := buddyInit h.tree heapBlockNum }

/-- The number of blocks `kalloc` asks for. The test is a logical `&&`, so it holds of every
positive size. -/
def kallocBlocks (size : BitVec 32) : ℕ :=
  if size.toInt ≠ 0 ∧ minBlockSize - 1 ≠ 0 then (size.toInt / minBlockSize + 1).toNat
  else (size.toInt / minBlockSize).toNat

/-- The number of bytes `kalloc` clears. -/
def kallocBytes (size : BitVec 32) : ℕ :=
  (fixSize (BitVec.ofNat 32 (kallocBlocks size))).toNat * minBlockSize

/-- Allocate `size` bytes: the address and the heap after it. -/
def kalloc (h : KernelHeap) (size : BitVec 32) : Except Halt (ℕ × KernelHeap) :=
  if size.toInt ≤ 0 then .ok (0, h)
  else
    match buddyAlloc h.tree (kallocBlocks size) with
    | none => .error .diverge
    | some (block, tree) =>
      if block = -1 then .error (.panic "Malloc failed!\n")
      else
        let beginAddr := h.region.base + (block * minBlockSize).toNat
        .ok (beginAddr,
          { h with tree := tree, mem := Bytes.fill h.mem beginAddr (kallocBytes size) 0 })

def kfree (h : KernelHeap) (ptr : ℕ) : KernelHeap :=
  if ptr < h.region.base then h
  else if ptr > h.region.base + kernelHeapSize - minBlockSize then h
  else { h with tree := buddyFree h.tree ((ptr - h.region.base) / minBlockSize) }

/-! ### Sizes and addresses of nodes -/

/-- The depth of the kernel's buddy tree. -/
def heapDepth : ℕ := 17

lemma heapBlockNum_eq : heapBlockNum = 2 ^ heapDepth := rfl

/-- The first block of a tree node: its place in its level times its size. -/
def nodeOffset (p : ℕ) : ℕ := (p - 2 ^ Nat.log 2 p) * 2 ^ height heapDepth p

/-- The address of the first byte of a tree node. -/
def nodeAddr (base p : ℕ) : ℕ := base + nodeOffset p * minBlockSize

/-- The number of bytes of a tree node. -/
def nodeBytes (p : ℕ) : ℕ := 2 ^ height heapDepth p * minBlockSize

lemma kallocBlocks_bounds {size : BitVec 32} (h : 0 < size.toInt) :
    1 ≤ kallocBlocks size ∧ kallocBlocks size ≤ 2 ^ 25 ∧
      size.toInt < kallocBlocks size * minBlockSize := by
  have hlt := BitVec.toInt_lt (x := size)
  have hne : size.toInt ≠ 0 ∧ minBlockSize - 1 ≠ 0 := ⟨by omega, by decide⟩
  rw [kallocBlocks, if_pos hne]
  simp only [minBlockSize]
  norm_num at hlt ⊢
  omega

lemma kallocBytes_eq {size : BitVec 32} (h : 0 < size.toInt) :
    kallocBytes size = 2 ^ Nat.clog 2 (kallocBlocks size) * minBlockSize := by
  obtain ⟨h1, h2, _⟩ := kallocBlocks_bounds h
  rw [kallocBytes, toNat_fixSize h1 (by omega)]

/-- The bytes that are cleared cover the size asked for. -/
lemma le_kallocBytes {size : BitVec 32} (h : 0 < size.toInt) :
    size.toInt ≤ kallocBytes size := by
  obtain ⟨h1, _, h3⟩ := kallocBlocks_bounds h
  have hle := Nat.le_pow_clog (by omega : 1 < 2) (kallocBlocks size)
  have hmul := Nat.mul_le_mul_right minBlockSize hle
  rw [kallocBytes_eq h]
  omega

lemma nodeBytes_pos (p : ℕ) : 0 < nodeBytes p :=
  Nat.mul_pos (Nat.two_pow_pos _) (by decide)

/-- The offset as the code computes it. -/
lemma nodeOffset_eq {p : ℕ} (hp : IsNode heapDepth p) :
    nodeOffset p = p * 2 ^ height heapDepth p - 2 ^ heapDepth := by
  have hle := hp.log_le
  rw [nodeOffset, Nat.sub_mul, ← pow_add, height, Nat.add_sub_cancel' hle]

/-- The bytes of a node lie inside `HEAP`. -/
lemma nodeAddr_inside (base : ℕ) {p : ℕ} (hp : IsNode heapDepth p) :
    base ≤ nodeAddr base p ∧ nodeAddr base p + nodeBytes p ≤ base + kernelHeapSize := by
  obtain ⟨hlow, hhigh⟩ := hp.bounds
  have hsucc : (p + 1) * 2 ^ height heapDepth p =
      p * 2 ^ height heapDepth p + 2 ^ height heapDepth p := by ring
  have hoff := nodeOffset_eq hp
  simp only [nodeAddr, nodeBytes, minBlockSize, kernelHeapSize, heapDepth] at *
  omega

/-- Incomparable nodes have disjoint byte ranges. -/
lemma nodeAddr_disjoint (base : ℕ) {p q : ℕ} (hp : IsNode heapDepth p) (hq : IsNode heapDepth q)
    (hpq : ¬ Above p q) (hqp : ¬ Above q p) :
    nodeAddr base p + nodeBytes p ≤ nodeAddr base q ∨
      nodeAddr base q + nodeBytes q ≤ nodeAddr base p := by
  have hsep := leaves_separate (d := heapDepth) hpq hqp
  have hp1 := hp.bounds.1
  have hq1 := hq.bounds.1
  have hps : (p + 1) * 2 ^ height heapDepth p =
      p * 2 ^ height heapDepth p + 2 ^ height heapDepth p := by ring
  have hqs : (q + 1) * 2 ^ height heapDepth q =
      q * 2 ^ height heapDepth q + 2 ^ height heapDepth q := by ring
  have hpo := nodeOffset_eq hp
  have hqo := nodeOffset_eq hq
  simp only [nodeAddr, nodeBytes, minBlockSize, heapDepth] at *
  omega

/-! ### What the two operations do -/

/-- `kalloc` of a positive size panics without a long enough run, and otherwise returns the first
byte of an uncovered, wholly free node of the rounded size, which it clears. -/
theorem kalloc_spec {live : Finset ℕ} {h : KernelHeap} (hr : Represents heapDepth live h.tree)
    {size : BitVec 32} (hpos : 0 < size.toInt) :
    (nodeRun heapDepth live 1 < 2 ^ Nat.clog 2 (kallocBlocks size) ∧
      kalloc h size = .error (.panic "Malloc failed!\n")) ∨
    ∃ p tree, IsNode heapDepth p ∧ Uncovered live p ∧ (∀ a ∈ live, ¬ Above p a) ∧
      nodeBytes p = kallocBytes size ∧ Represents heapDepth (insert p live) tree ∧
      kalloc h size = .ok (nodeAddr h.region.base p,
        { h with
          tree := tree
          mem := Bytes.fill h.mem (nodeAddr h.region.base p) (nodeBytes p) 0 }) := by
  obtain ⟨h1, h2, _⟩ := kallocBlocks_bounds hpos
  have hle : ¬ size.toInt ≤ 0 := by omega
  rcases buddyAlloc_spec hr h1 (by omega) with ⟨hlt, hfail⟩ | ⟨_, p, t', hp, hun, hno, hh, hok, hr'⟩
  · left
    refine ⟨hlt, ?_⟩
    simp only [kalloc, if_neg hle, hfail, if_true]
  · right
    have hbytes : nodeBytes p = kallocBytes size := by rw [nodeBytes, hh, kallocBytes_eq hpos]
    refine ⟨p, t', hp, hun, hno, hbytes, hr', ?_⟩
    simp only [kalloc, if_neg hle, hok]
    rw [if_neg (by omega)]
    have haddr : ((p * 2 ^ height heapDepth p - 2 ^ heapDepth : ℕ) * (minBlockSize : ℤ)).toNat =
        nodeOffset p * minBlockSize := by
      rw [← Nat.cast_mul, Int.toNat_natCast, nodeOffset_eq hp]
    rw [haddr, hbytes]
    rfl

/-- `kfree` of any address inside a live node, up to the first byte of the last block of `HEAP`,
makes exactly that node free. -/
theorem kfree_inside {live : Finset ℕ} {h : KernelHeap} (hr : Represents heapDepth live h.tree)
    {a ptr : ℕ} (ha : a ∈ live) (hlow : nodeAddr h.region.base a ≤ ptr)
    (hhigh : ptr < nodeAddr h.region.base a + nodeBytes a)
    (hlast : ptr ≤ h.region.base + kernelHeapSize - minBlockSize) :
    Represents heapDepth (live.erase a) (kfree h ptr).tree ∧ (kfree h ptr).mem = h.mem ∧
      (kfree h ptr).region = h.region := by
  have han := hr.node a ha
  have hb := nodeOffset_eq han
  have hbounds := han.bounds
  have hsucc : (a + 1) * 2 ^ height heapDepth a =
      a * 2 ^ height heapDepth a + 2 ^ height heapDepth a := by ring
  have hpow : 2 ^ (heapDepth + 1) = 2 * 2 ^ heapDepth := pow_succ' 2 _
  simp only [nodeAddr, nodeBytes, minBlockSize] at hlow hhigh hlast
  -- the block that the address lies in is one of the node's
  set b := (ptr - h.region.base) / minBlockSize with hbdef
  simp only [minBlockSize] at hbdef
  have hb1 : nodeOffset a ≤ b := by omega
  have hb2 : b < nodeOffset a + 2 ^ height heapDepth a := by omega
  have hleaf : Above a (b + 2 ^ heapDepth) :=
    ⟨height heapDepth a, leaf_above_iff.mpr ⟨by omega, by omega⟩⟩
  have hnot1 : ¬ ptr < h.region.base := by omega
  have hnot2 : ¬ ptr > h.region.base + kernelHeapSize - minBlockSize := by
    simp only [minBlockSize]
    omega
  rw [kfree, if_neg hnot1, if_neg hnot2]
  exact ⟨buddyFree_spec hr ha (by omega) hleaf, rfl, rfl⟩

/-- `kfree` of the first address of a live node makes exactly that node free. -/
theorem kfree_spec {live : Finset ℕ} {h : KernelHeap} (hr : Represents heapDepth live h.tree)
    {a : ℕ} (ha : a ∈ live) :
    Represents heapDepth (live.erase a) (kfree h (nodeAddr h.region.base a)).tree ∧
      (kfree h (nodeAddr h.region.base a)).mem = h.mem ∧
      (kfree h (nodeAddr h.region.base a)).region = h.region := by
  obtain ⟨hin1, hin2⟩ := nodeAddr_inside h.region.base (hr.node a ha)
  have hbytes : minBlockSize ≤ nodeBytes a := Nat.le_mul_of_pos_left _ (Nat.two_pow_pos _)
  have hpos := nodeBytes_pos a
  exact kfree_inside hr ha (le_refl _) (by omega) (by omega)

/-- After `initHeap` every block is free. -/
lemma initHeap_represents (h : KernelHeap) : Represents heapDepth ∅ (initHeap h).tree := by
  rw [initHeap, heapBlockNum_eq]
  exact buddyInit_represents h.tree (by decide)

end Jokerix
