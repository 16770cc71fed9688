import Jokerix.Fs.Inode
import Jokerix.Vm.Mapping

/-!
# The file driver of the kernel

`kernel/fs.c` over a memory that holds the image: `initFs`, `lookup` and `readall`, with the string
functions of `kernel/string.c`. Block numbers are passed as `int`, and so is the number of bytes
that `readall` has left.
-/

namespace Jokerix

/-! ### Strings -/

/-- The length of the string at an address; each address is looked at once. -/
def strlenFrom (str : ℕ → UInt8) (num : ℕ) : ℕ → ℕ
  | 0 => num
  | fuel + 1 => if str num = 0 then num else strlenFrom str (num + 1) fuel

def strlen (str : ℕ → UInt8) : ℕ := strlenFrom str 0 (2 ^ 64)

/-- The string at an address, up to its final zero. -/
def cString (str : ℕ → UInt8) : List UInt8 := (List.range (strlen str)).map str

/-- `0` for equal strings, `1` for different ones. -/
def strcmp (str1 str2 : List UInt8) : ℕ :=
  if str1.length ≠ str2.length then 1
  else if (List.zip str1 str2).any fun c => c.1 != c.2 then 1
  else 0

lemma strcmp_eq_zero_iff {str1 str2 : List UInt8} : strcmp str1 str2 = 0 ↔ str1 = str2 := by
  rw [strcmp]
  constructor
  · intro h
    split_ifs at h with hlen hany
    simp only [ne_eq, not_not] at hlen
    refine List.ext_getElem hlen fun i h1 h2 => ?_
    by_contra hne
    refine hany (List.any_eq_true.mpr ⟨(str1[i], str2[i]), ?_, by simpa using hne⟩)
    exact List.mem_iff_getElem.mpr ⟨i, by simp [h1, h2], by simp⟩
  · rintro rfl
    rw [if_neg (by simp), if_neg]
    simp only [List.any_eq_true, not_exists, not_and]
    intro c hc
    obtain ⟨i, hi, rfl⟩ := List.mem_iff_getElem.mp hc
    simp

def slash : UInt8 := 47
def dot : List UInt8 := [46]
def dotdot : List UInt8 := [46, 46]

/-! ### Finding an inode -/

/-- The image `_fs_img_start` and the global `ROOT_INODE`. -/
structure SimpleFs where
  img : ℕ
  root : ℕ

/-- The address of a block. The product is an `int`. -/
def kernelBlockAddr (img blockNum : ℕ) : ℕ :=
  (img + ((BitVec.ofNat 32 (blockNum * blockSize)).signExtend 64).toNat) % 2 ^ 64

/-- The root inode follows the free map; the super block has the number of its blocks at offset
12. -/
def initFs (mem : Bytes.Memory) (img : ℕ) : SimpleFs where
  img := img
  root := kernelBlockAddr img (Bytes.loadLE 4 mem (img + 12) + 1)

/-- The inodes of the entries from the third on of a directory, in the order of the search. -/
def candidates (fs : SimpleFs) (mem : Bytes.Memory) (node : ℕ) : List ℕ :=
  let n := readInode mem node
  let blockNum := (BitVec.ofNat 32 n.blocks).toInt
  let direct := fun i => kernelBlockAddr fs.img (n.direct i)
  let indirect := fun i =>
    kernelBlockAddr fs.img (Bytes.loadLE 4 mem (kernelBlockAddr fs.img n.indirect + 4 * (i - 12)))
  if blockNum ≤ 12 then (List.range' 2 (blockNum.toNat - 2)).map direct
  else (List.range' 2 10).map direct ++ (List.range' 12 (blockNum.toNat - 12)).map indirect

/-- The first part of a path, and what follows the slash behind it. -/
def nextPart (filename : List UInt8) : List UInt8 × List UInt8 :=
  (filename.takeWhile (· ≠ slash), (filename.dropWhile (· ≠ slash)).tail)

lemma nextPart_lt {c : UInt8} {cs : List UInt8} :
    (nextPart (c :: cs)).2.length < (c :: cs).length := by
  have hle := (List.dropWhile_suffix (· ≠ slash) (l := c :: cs)).length_le
  simp only [nextPart, List.length_tail, List.length_cons] at *
  omega

/-- A leading slash is skipped and starts the search at the root. -/
def leadingSlash (fs : SimpleFs) (node : ℕ) : List UInt8 → ℕ × List UInt8
  | [] => (node, [])
  | c :: cs => if c = slash then (fs.root, cs) else (node, c :: cs)

lemma leadingSlash_le (fs : SimpleFs) (node : ℕ) (filename : List UInt8) :
    (leadingSlash fs node filename).2.length ≤ filename.length := by
  cases filename with
  | nil => rfl
  | cons c cs =>
    rw [leadingSlash]
    split_ifs <;> simp

/-- The address of the inode that a path leads to, `0` for none. -/
def lookup (fs : SimpleFs) (mem : Bytes.Memory) (node : ℕ) (filename : List UInt8) : ℕ :=
  let node' := (leadingSlash fs node filename).1
  let node' := if node' = 0 then fs.root else node'
  match h : (leadingSlash fs node filename).2 with
  | [] => node'
  | c :: cs =>
    if (readInode mem node').type ≠ typeDir then 0
    else
      let cTarget := (nextPart (c :: cs)).1
      have : (nextPart (c :: cs)).2.length < filename.length :=
        lt_of_lt_of_le nextPart_lt (h ▸ leadingSlash_le fs node filename)
      if strcmp dot cTarget = 0 then lookup fs mem node' (nextPart (c :: cs)).2
      else if strcmp dotdot cTarget = 0 then
        lookup fs mem (kernelBlockAddr fs.img ((readInode mem node').direct 1))
          (nextPart (c :: cs)).2
      else
        match (candidates fs mem node').find? fun candidate =>
          strcmp (cString (readInode mem candidate).filename) cTarget = 0 with
        | none => 0
        | some candidate => lookup fs mem candidate (nextPart (c :: cs)).2
termination_by filename.length

/-! ### Reading a file -/

def copyByteToBuf (mem : Bytes.Memory) (src dst : ℕ) (length : ℤ) : Bytes.Memory :=
  copyBytes mem dst src length.toNat

/-- The variables of `readall`, and the ranges of addresses it has read; no function reads these. -/
structure ReadState where
  mem : Bytes.Memory
  buf : ℕ
  l : ℤ
  reads : List (ℕ × ℕ)

/-- The body of the loops: copy what is left of a block, or the whole of it. -/
def readBlock (s : ReadState) (src : ℕ) : ReadState :=
  let copySize := if s.l ≥ 4096 then 4096 else s.l
  { mem := copyByteToBuf s.mem src s.buf copySize
    buf := ((s.buf + copySize) % 2 ^ 64).toNat
    l := s.l - copySize
    reads := s.reads ++ [(src, copySize.toNat)] }

def readDirect (img node : ℕ) (s : ReadState) (i : ℕ) : ReadState :=
  readBlock s (kernelBlockAddr img ((readInode s.mem node).direct i))

/-- The same through the entry `i` of the indirect block. -/
def readIndirect (img indirect : ℕ) (s : ReadState) (i : ℕ) : ReadState :=
  let s := { s with reads := s.reads ++ [(indirect + 4 * i, 4)] }
  readBlock s (kernelBlockAddr img (Bytes.loadLE 4 s.mem (indirect + 4 * i)))

/-- Read a file into a buffer. -/
def readall (img : ℕ) (mem : Bytes.Memory) (node buf : ℕ) : Except Halt ReadState :=
  let n := readInode mem node
  if n.type ≠ typeFile then .error (.panic "Cannot read a directory!\n")
  else
    let b := (BitVec.ofNat 32 n.blocks).toInt
    let s : ReadState := ⟨mem, buf, (BitVec.ofNat 32 n.size).toInt, [(node, sizeofInode)]⟩
    if b ≤ 12 then .ok ((List.range b.toNat).foldl (readDirect img node) s)
    else
      let s := (List.range 12).foldl (readDirect img node) s
      let indirect := kernelBlockAddr img (readInode s.mem node).indirect
      .ok ((List.range (b - 12).toNat).foldl (readIndirect img indirect) s)

end Jokerix
