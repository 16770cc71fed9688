import Jokerix.Fs.Reader

/-!
# The packer of the image

`mkfs/mksfs.c`: the recursive `walk` over a directory of the host, which writes the image, and
`main`. The array `Image` lies at address `0`. What an uninitialised local variable holds and how
large the blocks of `malloc` are is a parameter.
-/

namespace Jokerix

/-! ### The directory of the host -/

/-- The name of a directory entry. -/
structure FileName where
  bytes : List UInt8
  ne_nil : bytes ≠ []
  length_le : bytes.length ≤ 31
  no_nul : (0 : UInt8) ∉ bytes
  no_slash : slash ∉ bytes

/-- What `readdir` yields for a directory, entry by entry. The entries `.` and `..` are not
followed, so it does not matter what they are. -/
inductive Listing where
  | nil
  | file (name : FileName) (content : List UInt8) (rest : Listing)
  | dir (name : FileName) (sub rest : Listing)
  | other (name : FileName) (rest : Listing)

/-! ### The state of the packer -/

/-- The number of blocks of an image. -/
def blockNum : ℕ := 256

def freemapNum : ℕ := 1
def magicNum : ℕ := 0x4D534653

/-- The number of bytes of an image. -/
def imageSize : ℕ := blockNum * blockSize

/-- What a block is used for. Inodes are numbered in the order in which `walk` declares them. -/
inductive Use where
  | superBlock
  | freemap
  | inode (n : ℕ)
  /-- The block at a position of a file. -/
  | data (n i : ℕ)
  | indirect (n : ℕ)
  deriving DecidableEq

/-- The globals of the packer, with the number of inodes declared so far and the uses of blocks so
far; no function reads the latter. -/
structure Packer where
  image : Bytes.Memory
  freemap : ℕ → Bool
  freenum : ℕ
  declared : ℕ
  uses : List (ℕ × Use)

/-- What the host leaves open: what local variables hold before they are assigned, the inode with a
number and the text of the super block, and how many bytes there really are in a block that `malloc`
was asked for with some size. -/
structure Leftover where
  inode : ℕ → Inode
  info : ℕ → UInt8
  usable : ℕ → ℕ

/-- The text of `printf` in `getFreeBlock`, which then calls `exit`. -/
def getFreeBlockFailed : Halt := .panic "get free block failed!\n"

/-- Mark a block as used. -/
def Packer.mark (s : Packer) (i : ℕ) (use : Use) : Packer :=
  { s with
    freemap := Function.update s.freemap i true
    freenum := (s.freenum + 2 ^ 32 - 1) % 2 ^ 32
    uses := s.uses ++ [(i, use)] }

/-- The lowest free block. -/
def getFreeBlock (s : Packer) (use : Use) : Except Halt (ℕ × Packer) :=
  match (List.range blockNum).find? fun i => !s.freemap i with
  | none => .error getFreeBlockFailed
  | some i => .ok (i, s.mark i use)

def copyInodeToBlock (s : Packer) (blockNum : ℕ) (n : Inode) : Packer :=
  { s with image := storeInode s.image (blockNum * blockSize) n }

/-- `inaddr[i] = block` in an indirect block. -/
def Packer.setEntry (s : Packer) (n indirect i block : ℕ) : Packer :=
  { s with
    image := Bytes.storeLE 4 s.image (indirect * blockSize + 4 * i) block
    uses := s.uses ++ [(indirect, .indirect n)] }

/-- The same when the entry lies inside the array `Image`. -/
def setIndirect (s : Packer) (n indirect i block : ℕ) : Except Halt Packer :=
  if indirect * blockSize + 4 * i + 4 ≤ imageSize then .ok (s.setEntry n indirect i block)
  else .error .fault

/-- Enter a block into an inode at a position, as `walk` does for the blocks of a file and for the
entries of a directory: directly, or through the indirect block, which is allocated when the field
for it is zero. -/
def setBlock (s : Packer) (n : ℕ) (inode : Inode) (i block : ℕ) : Except Halt (Inode × Packer) :=
  if i < directNum then
    .ok ({ inode with direct := Function.update inode.direct i block }, s)
  else if inode.indirect = 0 then do
    let (indirect, s) ← getFreeBlock s (.indirect n)
    let s ← setIndirect s n indirect (i - directNum) block
    .ok ({ inode with indirect }, s)
  else do
    let s ← setIndirect s n inode.indirect (i - directNum) block
    .ok (inode, s)

/-! ### Packing files and directories -/

/-- The bytes of a name and the final zero. -/
def setName (filename : ℕ → UInt8) (name : List UInt8) : ℕ → UInt8 :=
  fun i => if i < name.length then name.getD i 0 else if i = name.length then 0 else filename i

/-- The loop that copies the `l` bytes of a file that are left, which needs at most `l` turns. -/
def copyFile (n : ℕ) : ℕ → List UInt8 → ℕ → ℕ → Inode → Packer → Except Halt (Inode × Packer)
  | 0, _, _, _, finode, s => .ok (finode, s)
  | turns + 1, data, l, blockIndex, finode, s =>
    if l = 0 then .ok (finode, s)
    else do
      let (ffb, s) ← getFreeBlock s (.data n blockIndex)
      let size := if blockSize < l then blockSize else l
      let image := Bytes.store s.image (ffb * blockSize) (data.take size)
      let (finode, s) ← setBlock { s with image } n finode blockIndex ffb
      copyFile n turns (data.drop size) (l - size) (blockIndex + 1) finode s

/-- The number of blocks that the inode of a file of some size claims, in 32 bits. -/
def fileBlocks (size : ℕ) : ℕ := (size + 2 ^ 32 - 1) % 2 ^ 32 / blockSize + 1

/-- The path of an entry: `malloc` and `sprintf`. The size that is asked for has no byte for the
slash, so that the final zero is stored outside of the block unless the block has a byte to
spare. -/
def entryPath (z : Leftover) (dirName name : List UInt8) : Except Halt (List UInt8) :=
  let size := dirName.length + name.length + 1
  if size + 1 ≤ z.usable size then .ok (dirName ++ slash :: name) else .error .fault

/-- Pack a regular file: the block of its inode. -/
def packFile (z : Leftover) (dirName name content : List UInt8) (s : Packer) :
    Except Halt (ℕ × Packer) := do
  let n := s.declared
  -- the host finds the file under this path
  let _ ← entryPath z dirName name
  let size := content.length % 2 ^ 32
  let finode := { z.inode n with
    type := typeFile
    filename := setName (z.inode n).filename name
    size := size
    blocks := fileBlocks size }
  let (blockNum, s) ← getFreeBlock { s with declared := n + 1 } (.inode n)
  let (finode, s) ← copyFile n size content size 0 finode s
  .ok (blockNum, copyInodeToBlock s blockNum finode)

/-- The name of the directory that is packed. -/
def rootdir : List UInt8 := "rootfs".toList.map fun c => UInt8.ofNat c.toNat

/-- What `walk` does before its loop: the entries `.` and, in the root, `..`. -/
def openDir (dirName : List UInt8) (nowInode : Inode) (nowInodeNum : ℕ) : Inode :=
  let nowInode := { nowInode with direct := Function.update nowInode.direct 0 nowInodeNum }
  if strcmp dirName rootdir = 0 then
    { nowInode with direct := Function.update nowInode.direct 1 nowInodeNum }
  else nowInode

/-- The inode of a new directory before it is walked. -/
def newDirInode (old : Inode) (name : List UInt8) (blockNum nowInodeNum : ℕ) : Inode :=
  { old with
    size := 0
    type := typeDir
    filename := setName old.filename name
    direct := Function.update (Function.update old.direct 0 blockNum) 1 nowInodeNum }

/-- The loop of `walk` from the entry `emptyIndex` on. The number `n` is that of `nowInode`, whose
block is `nowInodeNum`. -/
def walkEntries (z : Leftover) : Listing → List UInt8 → ℕ → ℕ → Inode → ℕ → Packer →
    Except Halt (Inode × ℕ × Packer)
  | .nil, _, _, _, nowInode, emptyIndex, s => .ok (nowInode, emptyIndex, s)
  | .other _ rest, dirName, n, nowInodeNum, nowInode, emptyIndex, s =>
    walkEntries z rest dirName n nowInodeNum nowInode emptyIndex s
  | .file name content rest, dirName, n, nowInodeNum, nowInode, emptyIndex, s =>
    if strcmp name.bytes dot = 0 ∨ strcmp name.bytes dotdot = 0 then
      walkEntries z rest dirName n nowInodeNum nowInode emptyIndex s
    else do
      let (blockNum, s) ← packFile z dirName name.bytes content s
      let (nowInode, s) ← setBlock s n nowInode emptyIndex blockNum
      walkEntries z rest dirName n nowInodeNum nowInode (emptyIndex + 1) s
  | .dir name sub rest, dirName, n, nowInodeNum, nowInode, emptyIndex, s =>
    if strcmp name.bytes dot = 0 ∨ strcmp name.bytes dotdot = 0 then
      walkEntries z rest dirName n nowInodeNum nowInode emptyIndex s
    else do
      let c := s.declared
      let (blockNum, s) ← getFreeBlock { s with declared := c + 1 } (.inode c)
      let dinode := newDirInode (z.inode c) name.bytes blockNum nowInodeNum
      let tmp ← entryPath z dirName name.bytes
      -- the call `walk(tmp, &dinode, blockNum)`
      let (dinode, blocks, s) ← walkEntries z sub tmp c blockNum (openDir tmp dinode blockNum) 2 s
      let s := copyInodeToBlock s blockNum { dinode with blocks }
      let (nowInode, s) ← setBlock s n nowInode emptyIndex blockNum
      walkEntries z rest dirName n nowInodeNum nowInode (emptyIndex + 1) s

def walk (z : Leftover) (d : Listing) (dirName : List UInt8) (n nowInodeNum : ℕ) (nowInode : Inode)
    (s : Packer) : Except Halt (Inode × Packer) := do
  let (nowInode, blocks, s) ←
    walkEntries z d dirName n nowInodeNum (openDir dirName nowInode nowInodeNum) 2 s
  .ok ({ nowInode with blocks }, s)

/-! ### The whole image -/

/-- A byte of the free map on the disk: one bit for each of eight blocks. -/
def freemapByte (freemap : ℕ → Bool) (i : ℕ) : UInt8 :=
  UInt8.ofNat ((List.range 8).foldl (fun c j => if freemap (i * 8 + j) then c ||| 2 ^ j else c) 0)

def superBlockInfo : List UInt8 := "SimpleFS By JokerDebug".toList.map fun c => UInt8.ofNat c.toNat

/-- Store the super block at the beginning of the image. -/
def storeSuperBlock (mem : Bytes.Memory) (unusedBlocks : ℕ) (info : ℕ → UInt8) : Bytes.Memory :=
  let mem := Bytes.storeLE 4 mem 0 magicNum
  let mem := Bytes.storeLE 4 mem 4 blockNum
  let mem := Bytes.storeLE 4 mem 8 unusedBlocks
  let mem := Bytes.storeLE 4 mem 12 freemapNum
  Bytes.store mem 16 ((List.range 32).map (setName info superBlockInfo))

/-- The block of the root inode. -/
def rootBlock : ℕ := freemapNum + 1

/-- The globals when `walk` is called: the super block, the free map and the root inode are used. -/
def packerStart : Packer where
  image := fun _ => 0
  freemap := fun b => decide (b ≤ rootBlock)
  freenum := blockNum - (freemapNum + 2)
  declared := 1
  uses := [(0, .superBlock), (1, .freemap), (rootBlock, .inode 0)]

/-- The root inode before `walk`. -/
def newRootInode (z : Leftover) : Inode :=
  { z.inode 0 with size := 0, type := typeDir, filename := setName (z.inode 0).filename [slash] }

/-- `main` on the entries of the directory `rootfs`. -/
def mksfs (z : Leftover) (root : Listing) : Except Halt Packer := do
  let (rootInode, s) ← walk z root rootdir 0 rootBlock (newRootInode z) packerStart
  let image := storeSuperBlock s.image s.freenum z.info
  let image := Bytes.store image blockSize ((List.range (blockNum / 8)).map (freemapByte s.freemap))
  .ok (copyInodeToBlock { s with image } rootBlock rootInode)

end Jokerix
