import Jokerix.Lib.Bytes

/-!
# Blocks and inodes of SimpleFS

The layout of an image, as `mkfs/simplefs.h` and `kernel/fs.h` declare it. Both programs read and
write an `Inode` in place, at the offsets that its fields have in C.
-/

namespace Jokerix

def blockSize : ℕ := 4096
def typeFile : ℕ := 0
def typeDir : ℕ := 1

/-- The length of the array `direct`. -/
def directNum : ℕ := 12

def sizeofInode : ℕ := 96

structure Inode where
  size : ℕ
  type : ℕ
  filename : ℕ → UInt8
  blocks : ℕ
  direct : ℕ → ℕ
  indirect : ℕ

/-- The fields of the inode at an address. -/
def readInode (mem : Bytes.Memory) (a : ℕ) : Inode where
  size := Bytes.loadLE 4 mem a
  type := Bytes.loadLE 4 mem (a + 4)
  filename := fun i => mem (a + 8 + i)
  blocks := Bytes.loadLE 4 mem (a + 40)
  direct := fun i => Bytes.loadLE 4 mem (a + 44 + 4 * i)
  indirect := Bytes.loadLE 4 mem (a + 92)

/-- Store an inode at an address, field by field. -/
def storeInode (mem : Bytes.Memory) (a : ℕ) (n : Inode) : Bytes.Memory :=
  let mem := Bytes.storeLE 4 mem a n.size
  let mem := Bytes.storeLE 4 mem (a + 4) n.type
  let mem := Bytes.store mem (a + 8) ((List.range 32).map n.filename)
  let mem := Bytes.storeLE 4 mem (a + 40) n.blocks
  let mem := Bytes.storeArray 4 mem (a + 44) n.direct directNum
  Bytes.storeLE 4 mem (a + 92) n.indirect

/-! ### Reading back -/

section
variable {mem mem' : Bytes.Memory} {a x : ℕ}

lemma storeInode_of_not_mem {n : Inode} (h : x < a ∨ a + sizeofInode ≤ x) :
    storeInode mem a n x = mem x := by
  simp only [sizeofInode] at h
  have hlen : ((List.range 32).map n.filename).length = 32 := by simp
  simp only [storeInode]
  rw [Bytes.storeLE_of_not_mem (by omega),
    Bytes.storeArray_of_not_mem (by simp only [directNum]; omega),
    Bytes.storeLE_of_not_mem (by omega), Bytes.store_of_not_mem (by omega),
    Bytes.storeLE_of_not_mem (by omega), Bytes.storeLE_of_not_mem (by omega)]

/-- Two inodes that agree on all fields a program may use. -/
structure Inode.Agrees (n n' : Inode) : Prop where
  size : n.size = n'.size
  type : n.type = n'.type
  filename : ∀ i < 32, n.filename i = n'.filename i
  blocks : n.blocks = n'.blocks
  direct : ∀ i < directNum, n.direct i = n'.direct i
  indirect : n.indirect = n'.indirect

/-- What is left of the fields in 32 bits. -/
def Inode.wrap (n : Inode) : Inode where
  size := n.size % 2 ^ 32
  type := n.type % 2 ^ 32
  filename := n.filename
  blocks := n.blocks % 2 ^ 32
  direct := fun i => n.direct i % 2 ^ 32
  indirect := n.indirect % 2 ^ 32

/-- An inode reads back as it was stored. -/
lemma readInode_storeInode (mem : Bytes.Memory) (a : ℕ) (n : Inode) :
    (readInode (storeInode mem a n) a).Agrees n.wrap := by
  have hlen : ((List.range 32).map n.filename).length = 32 := by simp
  have hpow : (256 : ℕ) ^ 4 = 2 ^ 32 := by norm_num
  simp only [readInode, storeInode, Inode.wrap]
  constructor
  · simp only
    rw [Bytes.loadLE_storeLE_of_disjoint (by omega), Bytes.loadLE_congr fun y h1 h2 =>
      (Bytes.storeArray_of_not_mem (by omega)).trans <|
        (Bytes.storeLE_of_not_mem (by omega)).trans <|
          (Bytes.store_of_not_mem (by omega)).trans (Bytes.storeLE_of_not_mem (by omega)),
      Bytes.loadLE_storeLE_same, hpow]
  · simp only
    rw [Bytes.loadLE_storeLE_of_disjoint (by omega), Bytes.loadLE_congr fun y h1 h2 =>
      (Bytes.storeArray_of_not_mem (by omega)).trans <|
        (Bytes.storeLE_of_not_mem (by omega)).trans (Bytes.store_of_not_mem (by omega)),
      Bytes.loadLE_storeLE_same, hpow]
  · intro i hi
    simp only
    rw [Bytes.storeLE_of_not_mem (by omega), Bytes.storeArray_of_not_mem (by omega),
      Bytes.storeLE_of_not_mem (by omega), Bytes.store_of_mem (by omega) (by omega),
      Nat.add_sub_cancel_left, List.getD_eq_getElem _ _ (by omega)]
    simp
  · simp only
    rw [Bytes.loadLE_storeLE_of_disjoint (by omega),
      Bytes.loadLE_congr (fun y h1 h2 => Bytes.storeArray_of_not_mem (by omega)),
      Bytes.loadLE_storeLE_same, hpow]
  · intro i hi
    simp only
    rw [Bytes.loadLE_storeLE_of_disjoint (by simp only [directNum] at hi; omega),
      Bytes.loadLE_storeArray hi, hpow]
  · simp only
    rw [Bytes.loadLE_storeLE_same, hpow]

/-- Reading an inode depends on its own bytes only. -/
lemma readInode_congr (h : ∀ y, a ≤ y → y < a + sizeofInode → mem' y = mem y) :
    (readInode mem' a).Agrees (readInode mem a) := by
  simp only [sizeofInode] at h
  simp only [readInode]
  have hload : ∀ {b}, a ≤ b → b + 4 ≤ a + 96 →
      Bytes.loadLE 4 mem' b = Bytes.loadLE 4 mem b := fun h1 h2 =>
    Bytes.loadLE_congr fun y h3 h4 => h y (by omega) (by omega)
  refine ⟨hload (by omega) (by omega), hload (by omega) (by omega),
    fun i hi => h _ (by omega) (by omega), hload (by omega) (by omega), fun i hi => ?_,
    hload (by omega) (by omega)⟩
  simp only [directNum] at hi
  exact hload (by omega) (by omega)

end

end Jokerix
