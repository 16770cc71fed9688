import Jokerix.Fs.Blocks

/-!
# What the packer writes

`LaidOut` says that the entries of a directory lie in the image, each file and each directory with
an inode and blocks of its own. As long as there are free blocks, `walk` lays out every tree.
-/

namespace Jokerix

/-- The number of blocks that the bytes of a file take. -/
def dataBlocks (size : ℕ) : ℕ := (size + blockSize - 1) / blockSize

/-- The number of entries of a directory. -/
def Listing.count : Listing → ℕ
  | .nil => 0
  | .file _ _ rest => rest.count + 1
  | .dir _ _ rest => rest.count + 1
  | .other _ rest => rest.count

/-- The number of inodes below a directory. -/
def Listing.inodes : Listing → ℕ
  | .nil => 0
  | .file _ _ rest => 1 + rest.inodes
  | .dir _ sub rest => 1 + sub.inodes + rest.inodes
  | .other _ rest => rest.inodes

/-- The number of blocks that everything below a directory needs. -/
def Listing.blocks : Listing → ℕ
  | .nil => 0
  | .file _ content rest =>
    1 + (dataBlocks content.length + indirectCost 0 (dataBlocks content.length)) + rest.blocks
  | .dir _ sub rest => 1 + (sub.blocks + indirectCost 2 (2 + sub.count)) + rest.blocks
  | .other _ rest => rest.blocks

/-- The names of the files and directories in a directory. -/
def Listing.names : Listing → List (List UInt8)
  | .nil => []
  | .file name _ rest => name.bytes :: rest.names
  | .dir name _ rest => name.bytes :: rest.names
  | .other _ rest => rest.names

/-- A directory of a host: in each directory the names are different, and none is `.` or `..`. -/
def Listing.Proper : Listing → Prop
  | .nil => True
  | .file name _ rest =>
    name.bytes ≠ dot ∧ name.bytes ≠ dotdot ∧ name.bytes ∉ rest.names ∧ rest.Proper
  | .dir name sub rest =>
    name.bytes ≠ dot ∧ name.bytes ≠ dotdot ∧ name.bytes ∉ rest.names ∧ sub.Proper ∧ rest.Proper
  | .other _ rest => rest.Proper

/-! ### Files -/

/-- What lies at a block of a file: the bytes from that place on. -/
def BlockHolds (mem : Bytes.Memory) (b : ℕ) (content : List UInt8) (k : ℕ) : Prop :=
  ∀ t < blockSize, k * blockSize + t < content.length →
    mem (b * blockSize + t) = content.getD (k * blockSize + t) 0

/-- The inode in a block. -/
def inodeAt (mem : Bytes.Memory) (b : ℕ) : Inode := readInode mem (b * blockSize)

/-- A file lies in the image: its inode, number `n`, in the block `b`, and its bytes. -/
structure FileAt (z : Leftover) (s : Packer) (n b : ℕ) (name content : List UInt8) : Prop where
  used : (b, .inode n) ∈ s.uses
  size : (inodeAt s.image b).size = content.length
  type : (inodeAt s.image b).type = typeFile
  filename : ∀ i < 32, (inodeAt s.image b).filename i = setName (z.inode n).filename name i
  blocks : (inodeAt s.image b).blocks = fileBlocks content.length
  data : ∀ k < dataBlocks content.length,
    (entryBlock s.image (inodeAt s.image b) k, .data n k) ∈ s.uses ∧
      BlockHolds s.image (entryBlock s.image (inodeAt s.image b) k) content k
  indirect : if dataBlocks content.length ≤ directNum then
      (inodeAt s.image b).indirect = (z.inode n).indirect % 2 ^ 32
    else ((inodeAt s.image b).indirect, .indirect n) ∈ s.uses
  max : dataBlocks content.length ≤ blockNum

section
variable {m n b i l turns : ℕ} {s s' s₁ : Packer} {inode inode' : Inode} {data : List UInt8}
  {z : Leftover}

lemma dataBlocks_zero : dataBlocks 0 = 0 := by decide

lemma dataBlocks_succ (h : l ≠ 0) :
    dataBlocks l = dataBlocks (l - if blockSize < l then blockSize else l) + 1 := by
  split_ifs with hlt <;> simp only [dataBlocks, blockSize] at * <;> omega

lemma lt_dataBlocks {k : ℕ} (h : k < dataBlocks l) : k * blockSize < l := by
  simp only [dataBlocks, blockSize] at *
  omega

/-- The bytes of the image play no part in which blocks are used. -/
lemma PackInv.setImage (hi : PackInv s) (image : Bytes.Memory) :
    PackInv { s with image } :=
  ⟨hi.superBlock, hi.freemapBlock, hi.root, hi.bound, hi.used, hi.oneUse, hi.freenum, hi.owner⟩

lemma PackInv.setDeclared (hi : PackInv s) {declared : ℕ} (h : s.declared ≤ declared) :
    PackInv { s with declared } :=
  ⟨hi.superBlock, hi.freemapBlock, hi.root, hi.bound, hi.used, hi.oneUse, hi.freenum,
    fun b r n hb hn => (hi.owner b r n hb hn).trans_le h⟩

lemma PackInv.lt_of_mem (hi : PackInv s) {r : Use} (h : (b, r) ∈ s.uses) : b < blockNum :=
  hi.bound b ((hi.used b).mpr ⟨r, h⟩)

/-- What `copyFile` does when there is room. -/
structure FileCopied (s : Packer) (n : ℕ) (inode : Inode) (i : ℕ) (data : List UInt8)
    (inode' : Inode) (s' : Packer) : Prop where
  inv : PackInv s'
  grows : Grows n s s'
  declared : s'.declared = s.declared
  head : SameHead inode inode'
  indirect : i + dataBlocks data.length ≤ directNum → inode'.indirect = inode.indirect
  entries : ∀ j < i, entryBlock s'.image inode' j = entryBlock s.image inode j
  data : ∀ k < dataBlocks data.length,
    (entryBlock s'.image inode' (i + k), .data n (i + k)) ∈ s'.uses ∧
      BlockHolds s'.image (entryBlock s'.image inode' (i + k)) data k

/-- Nothing is left of a file. -/
lemma FileCopied.nil (hi : PackInv s) (hl : data.length = 0) :
    FileCopied s n inode i data inode s := by
  refine ⟨hi, Grows.refl n s, rfl, SameHead.refl _, fun _ => rfl, fun _ _ => rfl, ?_⟩
  rw [hl, dataBlocks_zero]
  exact fun k hk => absurd hk (Nat.not_lt_zero k)

lemma indirectCost_self : indirectCost i i = 0 := if_neg (by omega)

lemma indirectCost_succ {fin : ℕ} (h : i < fin) :
    indirectCost i fin = (if i = directNum then 1 else 0) + indirectCost (i + 1) fin := by
  simp only [indirectCost]
  split_ifs <;> omega

/-- Storing a block of a file. -/
lemma PackInv.storeBlock_ok (hi : PackInv s) (hn : n < s.declared) (i : ℕ) (bytes : List UInt8)
    (hlen : bytes.length ≤ blockSize) (hfree : 0 < s.freenum) :
    ∃ c s₁, getFreeBlock s (.data n i) = .ok (c, s₁) ∧ c < blockNum ∧ ∀ s₂,
      s₂ = { s₁ with image := Bytes.store s₁.image (c * blockSize) bytes } →
      PackInv s₂ ∧ (∀ m, Grows m s s₂) ∧ s₂.declared = s.declared ∧ s₂.freenum + 1 = s.freenum ∧
        (c, .data n i) ∈ s₂.uses ∧ s₂.uses = s.uses ++ [(c, .data n i)] ∧
        ∀ t < bytes.length, s₂.image (c * blockSize + t) = bytes.getD t 0 := by
  obtain ⟨c, hc, _, hnot, s₁, hget, hi₁, himage, hdecl, huses, hnum⟩ :=
    hi.getFreeBlock_ok (.data n i) (by rintro k h; cases h; exact hn) hfree
  refine ⟨c, s₁, hget, hc, ?_⟩
  rintro s₂ rfl
  refine ⟨hi₁.setImage _, fun m => ⟨?_, hdecl.ge, ?_⟩, hdecl, hnum, ?_, huses, ?_⟩
  · simp only [huses, List.subset_append_left]
  · intro b r hb _
    have hne : b ≠ c := by
      rintro rfl
      exact hnot r hb
    simp only [himage]
    exact SameBlock.of_ne (fun x hx => Bytes.store_of_not_mem (by omega)) hne
  · simp [huses]
  · intro t ht
    simp only
    rw [Bytes.store_of_mem (by omega) (by omega), Nat.add_sub_cancel_left]

/-- The blocks entered so far stay while the indirect block does. -/
lemma IndirectReady.entryBlock_eq {fin j : ℕ} {image : Bytes.Memory}
    (h : IndirectReady s n inode i fin) (hfin : i ≤ fin) (hmax : i ≤ directNum + indirectNum)
    (hsame : (inode.indirect, .indirect n) ∈ s.uses → SameBlock s.image image inode.indirect)
    (hj : j < i) : entryBlock image inode j = entryBlock s.image inode j := by
  refine entryBlock_congr (fun _ => rfl) (fun _ => rfl) (fun hge _ => ?_) (by omega)
  rcases h with h | ⟨h, _⟩ | ⟨_, _, h⟩
  · omega
  · omega
  · exact hsame h

lemma PackInv.copyFile_ok (hi : PackInv s) (hn : n < s.declared) (hl : data.length = l)
    (ht : l ≤ turns) (hready : IndirectReady s n inode i (i + dataBlocks l))
    (hmax : i + dataBlocks l ≤ directNum + indirectNum)
    (hroom : dataBlocks l + indirectCost i (i + dataBlocks l) ≤ s.freenum) :
    ∃ inode' s', copyFile n turns data l i inode s = .ok (inode', s') ∧
      FileCopied s n inode i data inode' s' ∧
      IndirectReady s' n inode' (i + dataBlocks l) (i + dataBlocks l) ∧
      s'.freenum + (dataBlocks l + indirectCost i (i + dataBlocks l)) = s.freenum := by
  induction turns generalizing s inode i l data with
  | zero =>
    obtain rfl : l = 0 := by omega
    rw [dataBlocks_zero] at *
    exact ⟨inode, s, rfl, .nil hi hl, hready, by simp [indirectCost_self]⟩
  | succ turns ih =>
    rw [copyFile]
    by_cases hzero : l = 0
    · subst hzero
      rw [dataBlocks_zero] at *
      exact ⟨inode, s, if_pos rfl, .nil hi hl, hready, by simp [indirectCost_self]⟩
    rw [if_neg hzero]
    have hsucc := dataBlocks_succ hzero
    set size := if blockSize < l then blockSize else l with hsize
    have hle : size ≤ blockSize := by rw [hsize]; split_ifs <;> omega
    have hpos : 0 < size := by
      rw [hsize]
      split_ifs
      · decide
      · omega
    have hfin : i + 1 + dataBlocks (l - size) = i + dataBlocks l := by omega
    have hcost := indirectCost_succ (show i < i + dataBlocks l by omega)
    obtain ⟨c, s₁, hget, hc, hstore⟩ := hi.storeBlock_ok hn i (data.take size)
      (by rw [List.length_take]; omega) (by omega)
    obtain ⟨hi₂, hgrows₂, hdecl₂, hnum₂, hcu, _, hbytes⟩ := hstore _ rfl
    have hready₂ : IndirectReady _ n inode i (i + dataBlocks l) :=
      hready.imp_right (Or.imp_right fun h => ⟨h.1, h.2.1, (hgrows₂ n).uses h.2.2⟩)
    obtain ⟨inode₃, s₃, hset, hbs, hready₃, hnum₃⟩ := hi₂.setBlock_ok hready₂ (by omega) (by omega)
      (show c < 2 ^ 32 from hc.trans (by decide)) (by omega) (by omega)
    have hdrop : (data.drop size).length = l - size := by rw [List.length_drop, hl]
    obtain ⟨inode', s', hok, hcopied, hready', hnum'⟩ := ih hbs.inv (by rw [hbs.declared]; omega)
      hdrop (by omega) (by rw [hfin]; exact hready₃) (by omega) (by rw [hfin]; omega)
    rw [hfin] at hready' hnum'
    refine ⟨inode', s', ?_, ⟨hcopied.inv, ?_, ?_, hbs.head.trans hcopied.head, ?_, ?_, ?_⟩,
      hready', by omega⟩
    · rw [bind_ok hget, ← hok]
      exact bind_ok hset
    · exact ((hgrows₂ n).trans hbs.grows).trans hcopied.grows
    · rw [hcopied.declared, hbs.declared, hdecl₂]
    · rw [hl]
      intro h
      rw [hcopied.indirect (by rw [hdrop]; omega), hbs.indirect (by omega)]
    · intro j hj
      rw [hcopied.entries j (by omega), hbs.entries j hj]
      exact hready.entryBlock_eq (by omega) (by omega)
        (fun h => (hgrows₂ (n + 1)).block _ _ h (by simp)) hj
    · intro k hk
      rw [hl] at hk
      cases k with
      | zero =>
        have hentry : entryBlock s'.image inode' i = c :=
          (hcopied.entries i (by omega)).trans hbs.entry
        rw [Nat.add_zero, hentry]
        have hgrows := hbs.grows.trans hcopied.grows
        refine ⟨hgrows.uses hcu, fun t ht hlt => ?_⟩
        rw [Nat.zero_mul, Nat.zero_add] at hlt ⊢
        have htake : t < (data.take size).length := by
          rw [List.length_take, hsize]
          split_ifs <;> omega
        rw [hgrows.block c _ hcu (by simp) _ (by omega) (by omega), hbytes t htake]
        simp only [List.getD_eq_getElem?_getD]
        rw [List.getElem?_take_of_lt (by rw [List.length_take] at htake; omega)]
      | succ k =>
        obtain ⟨hu, hholds⟩ := hcopied.data k (by rw [hdrop]; omega)
        have hfull : size = blockSize := by
          have := lt_dataBlocks hk
          rw [hsize, if_pos (by simp only [blockSize] at *; omega)]
        rw [show i + 1 + k = i + (k + 1) by omega] at hu hholds
        refine ⟨hu, fun t ht hlt => ?_⟩
        have hmul : (k + 1) * blockSize = k * blockSize + blockSize := Nat.succ_mul k blockSize
        rw [hholds t ht (by rw [hdrop]; omega)]
        simp only [List.getD_eq_getElem?_getD, List.getElem?_drop]
        rw [show size + (k * blockSize + t) = (k + 1) * blockSize + t by omega]

/-! ### Inodes in their blocks -/

lemma PackInv.copyInodeToBlock (hi : PackInv s) (b : ℕ) (inode : Inode) :
    PackInv (copyInodeToBlock s b inode) := hi.setImage _

/-- An inode in its block, as a program reads it. -/
lemma inodeAt_copyInodeToBlock (s : Packer) (b : ℕ) (inode : Inode) :
    (inodeAt (copyInodeToBlock s b inode).image b).Agrees inode.wrap := readInode_storeInode _ _ _

lemma SameBlock.copyInodeToBlock {c : ℕ} (s : Packer) (inode : Inode) (h : c ≠ b) :
    SameBlock s.image (copyInodeToBlock s b inode).image c := by
  have hle : sizeofInode ≤ blockSize := by decide
  exact .of_ne (fun x hx => storeInode_of_not_mem (by omega)) h

/-- The blocks of an inode are the same when it is read from its block. -/
lemma Inode.Agrees.entryBlock {mem image : Bytes.Memory} {old : Inode} {k : ℕ}
    (h : old.Agrees inode.wrap) (hlt : entryBlock mem inode k < 2 ^ 32)
    (hmax : k < directNum + indirectNum)
    (hind : directNum ≤ k → inode.indirect < 2 ^ 32 ∧ SameBlock mem image inode.indirect) :
    entryBlock image old k = entryBlock mem inode k := by
  have hwrap : directNum ≤ k → old.indirect = inode.indirect := fun hk =>
    h.indirect.trans (Nat.mod_eq_of_lt (hind hk).1)
  rw [← entryBlock_congr (fun hk => rfl) (fun hk => rfl) (fun hk _ => (hind hk).2) hmax]
  rw [Jokerix.entryBlock, Jokerix.entryBlock]
  split_ifs with hk
  · rw [Jokerix.entryBlock, if_pos hk] at hlt
    exact (h.direct k hk).trans (Nat.mod_eq_of_lt hlt)
  · rw [hwrap (by omega)]

/-- A file can be packed: the place for its indirect block, if it needs one, is zero. -/
def FileClear (z : Leftover) (n : ℕ) (content : List UInt8) : Prop :=
  dataBlocks content.length ≤ directNum ∨ (z.inode n).indirect = 0

/-- The block for the path of an entry has room for it. -/
def PathFits (z : Leftover) (dirName name : List UInt8) : Prop :=
  dirName.length + name.length + 2 ≤ z.usable (dirName.length + name.length + 1)

instance (z : Leftover) (dirName name : List UInt8) : Decidable (PathFits z dirName name) :=
  inferInstanceAs (Decidable (_ ≤ _))

/-- The bytes of a block of a common allocator: with eight bytes for its size, a block has a
multiple of sixteen bytes, and no fewer than thirty-two. -/
def chunkBytes (size : ℕ) : ℕ := max 24 ((size + 8 + 15) / 16 * 16 - 8)

/-- A name of seventeen bytes in a directory whose path has six leaves none to spare. -/
example (z : Leftover) (h : z.usable = chunkBytes) :
    ¬ PathFits z (List.replicate 6 97) (List.replicate 17 97) := by
  rw [PathFits, h]
  decide

lemma entryPath_ok {dirName name : List UInt8} (h : PathFits z dirName name) :
    entryPath z dirName name = .ok (dirName ++ slash :: name) := if_pos h

/-- The inode of a file that was copied is stored in its block: the file lies in the image. -/
lemma FileCopied.fileAt {name content : List UInt8} {finode : Inode}
    (h : FileCopied s n inode 0 content finode s₁)
    (hready : IndirectReady s₁ n finode (dataBlocks content.length) (dataBlocks content.length))
    (hb : (b, Use.inode n) ∈ s.uses) (hlen : content.length < 2 ^ 32)
    (hblocks : dataBlocks content.length ≤ blockNum)
    (hinode : inode = { z.inode n with
      type := typeFile
      filename := setName (z.inode n).filename name
      size := content.length
      blocks := fileBlocks content.length }) :
    FileAt z (Jokerix.copyInodeToBlock s₁ b finode) n b name content := by
  have hbu : (b, Use.inode n) ∈ s₁.uses := h.grows.uses hb
  have hag := inodeAt_copyInodeToBlock s₁ b finode
  have hlast : ∀ {c r}, (c, r) ∈ s₁.uses → r ≠ Use.inode n →
      SameBlock s₁.image (Jokerix.copyInodeToBlock s₁ b finode).image c := by
    intro c r hc hr
    apply SameBlock.copyInodeToBlock
    rintro rfl
    exact hr (h.inv.oneUse c _ _ hc hbu)
  have hind : ∀ {k}, directNum ≤ k → k < dataBlocks content.length →
      (finode.indirect, Use.indirect n) ∈ s₁.uses := by
    intro k hk hlt
    rcases hready with h | ⟨h, _⟩ | ⟨_, _, h⟩
    · omega
    · omega
    · exact h
  have hsmall : ∀ {c r}, (c, r) ∈ s₁.uses → c < 2 ^ 32 := fun hc =>
    (h.inv.lt_of_mem hc).trans (by decide)
  refine ⟨hbu, ?_, ?_, ?_, ?_, ?_, ?_, hblocks⟩
  · rw [hag.size]
    simp only [Inode.wrap, h.head.size, hinode, Nat.mod_eq_of_lt hlen]
  · rw [hag.type]
    simp only [Inode.wrap, h.head.type, hinode]
    rfl
  · intro i hi
    rw [hag.filename i hi]
    simp only [Inode.wrap, h.head.filename, hinode]
  · rw [hag.blocks]
    simp only [Inode.wrap, h.head.blocks, hinode]
    apply Nat.mod_eq_of_lt
    simp only [fileBlocks, blockSize]
    omega
  · intro k hk
    obtain ⟨hu, hholds⟩ := h.data k hk
    rw [Nat.zero_add] at hu hholds
    rw [hag.entryBlock (hsmall hu) (hk.trans (hblocks.trans_lt (by decide)))
      fun hge => ⟨hsmall (hind hge hk), hlast (hind hge hk) (by simp)⟩]
    refine ⟨hu, fun t ht hlt => ?_⟩
    rw [← hholds t ht hlt]
    exact hlast hu (by simp) _ (by omega) (by omega)
  · split_ifs with hle
    · rw [hag.indirect]
      simp only [Inode.wrap]
      rw [h.indirect (by omega), hinode]
    · have hu := hind le_rfl (not_le.mp hle)
      rw [hag.indirect]
      simp only [Inode.wrap, Nat.mod_eq_of_lt (hsmall hu)]
      exact hu

lemma PackInv.packFile_ok {dirName content : List UInt8} (hi : PackInv s) {name : List UInt8}
    (hpath : PathFits z dirName name) (hclear : FileClear z s.declared content)
    (hroom : 1 + (dataBlocks content.length + indirectCost 0 (dataBlocks content.length)) ≤
      s.freenum) :
    ∃ b s', packFile z dirName name content s = .ok (b, s') ∧ PackInv s' ∧ (∀ m, Grows m s s') ∧
      s'.declared = s.declared + 1 ∧ FileAt z s' s.declared b name content ∧
      s'.freenum + (1 + (dataBlocks content.length + indirectCost 0 (dataBlocks content.length))) =
        s.freenum := by
  set n := s.declared with hn
  have hfree := freeBlocks_le s.freemap
  rw [← hi.freenum] at hfree
  have hblocks : dataBlocks content.length ≤ blockNum := by omega
  have hlen : content.length < 2 ^ 32 := by
    simp only [dataBlocks, blockSize, blockNum] at hblocks
    omega
  rw [packFile, entryPath_ok hpath]
  simp only [← hn, Nat.mod_eq_of_lt hlen]
  set finode₀ : Inode := { z.inode n with
    type := typeFile
    filename := setName (z.inode n).filename name
    size := content.length
    blocks := fileBlocks content.length } with hfinode
  have hi₀ : PackInv { s with declared := n + 1 } := hi.setDeclared (by omega)
  obtain ⟨b, hb, _, hnot, s₁, hget, hi₁, himage₁, hdecl₁, huses₁, hnum₁⟩ :=
    hi₀.getFreeBlock_ok (.inode n) (by rintro k h; cases h; exact Nat.lt_succ_self n)
      (show 0 < s.freenum by omega)
  have hnum₁ : s₁.freenum + 1 = s.freenum := hnum₁
  have hdecl₁ : s₁.declared = n + 1 := hdecl₁
  have hready₀ : IndirectReady s₁ n finode₀ 0 (0 + dataBlocks content.length) := by
    rw [Nat.zero_add]
    exact hclear.imp id fun h => .inl ⟨Nat.zero_le _, h⟩
  obtain ⟨finode, s₂, hcopy, hcopied, hready, hnum₂⟩ := hi₁.copyFile_ok (by omega) rfl
    le_rfl hready₀
    (by rw [Nat.zero_add]; exact hblocks.trans (by decide)) (by rw [Nat.zero_add]; omega)
  rw [Nat.zero_add] at hready hnum₂
  have hgrows₁ : Grows n s s₂ := by
    refine Grows.trans ⟨?_, ?_, ?_⟩ hcopied.grows
    · simp only [huses₁, List.subset_append_left]
    · omega
    · intro c r _ _
      rw [himage₁]
      exact SameBlock.refl _ c
  have hgrows : Grows n s (Jokerix.copyInodeToBlock s₂ b finode) := by
    refine ⟨hgrows₁.uses, hgrows₁.declared, fun c r hc hr => (hgrows₁.block c r hc hr).trans ?_⟩
    apply SameBlock.copyInodeToBlock
    rintro rfl
    exact hnot r hc
  refine ⟨b, _, ?_, hcopied.inv.copyInodeToBlock b finode, fun m => hgrows.of_new hi hn.ge, ?_,
    hcopied.fileAt hready (by simp [huses₁]) hlen hblocks hfinode, ?_⟩
  · rw [bind_ok rfl, bind_ok hget]
    simp only [bind_ok hcopy]
  · exact hcopied.declared.trans hdecl₁
  · change s₂.freenum + _ = _
    omega

/-! ### Directories -/

/-- A directory lies in the image: its inode, number `n`, in the block `b`, with the blocks of its
entries. -/
structure DirAt (z : Leftover) (s : Packer) (n b parent : ℕ) (name : List UInt8) (bs : List ℕ) :
    Prop where
  used : (b, .inode n) ∈ s.uses
  type : (inodeAt s.image b).type = typeDir
  filename : ∀ i < 32, (inodeAt s.image b).filename i = setName (z.inode n).filename name i
  blocks : (inodeAt s.image b).blocks = 2 + bs.length
  self : (inodeAt s.image b).direct 0 = b
  parent : (inodeAt s.image b).direct 1 = parent
  entry : ∀ j (h : j < bs.length), entryBlock s.image (inodeAt s.image b) (2 + j) = bs[j]
  indirect : directNum < 2 + bs.length → ((inodeAt s.image b).indirect, .indirect n) ∈ s.uses
  max : 2 + bs.length ≤ directNum + indirectNum

/-- The entries of a directory lie in the image, with their inodes in the given blocks. The
directory is in the block `now`, and the numbers of the inodes begin with `n`. -/
def LaidOut (z : Leftover) (s : Packer) : Listing → ℕ → ℕ → List ℕ → Prop
  | .nil, _, _, bs => bs = []
  | .other _ rest, now, n, bs => LaidOut z s rest now n bs
  | .file name content rest, now, n, bs => ∃ b bs', bs = b :: bs' ∧
      FileAt z s n b name.bytes content ∧ LaidOut z s rest now (n + 1) bs'
  | .dir name sub rest, now, n, bs => ∃ b bs' subs, bs = b :: bs' ∧
      DirAt z s n b now name.bytes subs ∧ LaidOut z s sub b (n + 1) subs ∧
      subs.length = sub.count ∧ LaidOut z s rest now (n + 1 + sub.inodes) bs'

/-- Everything below a directory can be packed. -/
def Listing.Clear (z : Leftover) : Listing → ℕ → Prop
  | .nil, _ => True
  | .other _ rest, n => rest.Clear z n
  | .file _ content rest, n => FileClear z n content ∧ rest.Clear z (n + 1)
  | .dir _ sub rest, n => (2 + sub.count ≤ directNum ∨ (z.inode n).indirect = 0) ∧
      sub.Clear z (n + 1) ∧ rest.Clear z (n + 1 + sub.inodes)

/-- The paths of everything below a directory find room in their blocks. -/
def Listing.PathsFit (z : Leftover) : Listing → List UInt8 → Prop
  | .nil, _ => True
  | .other _ rest, dirName => rest.PathsFit z dirName
  | .file name _ rest, dirName => PathFits z dirName name.bytes ∧ rest.PathsFit z dirName
  | .dir name sub rest, dirName => PathFits z dirName name.bytes ∧
      sub.PathsFit z (dirName ++ slash :: name.bytes) ∧ rest.PathsFit z dirName

/-- The blocks that belong to an inode stay. -/
def KeepsInode (s s' : Packer) (n : ℕ) : Prop :=
  s.uses ⊆ s'.uses ∧
    ∀ c r, (c, r) ∈ s.uses → r.owner = some n → SameBlock s.image s'.image c

lemma Grows.keepsInode (h : Grows m s s') (hne : n ≠ m) : KeepsInode s s' n := by
  refine ⟨h.uses, fun c r hc hr => h.block c r hc ?_⟩
  rintro rfl
  exact hne (Option.some.inj hr).symm

/-- The blocks of an inode in its block read the same when nothing of it changes. -/
lemma entryBlock_inodeAt {mem image : Bytes.Memory} {k : ℕ}
    (hag : (inodeAt image b).Agrees (inodeAt mem b)) (hmax : k < directNum + indirectNum)
    (hind : directNum ≤ k → SameBlock mem image (inodeAt mem b).indirect) :
    entryBlock image (inodeAt image b) k = entryBlock mem (inodeAt mem b) k := by
  rw [← entryBlock_congr (fun _ => rfl) (fun _ => rfl) (fun hge _ => hind hge) hmax]
  simp only [entryBlock]
  split_ifs with h1
  · exact hag.direct k h1
  · rw [hag.indirect]

lemma FileAt.congr {name content : List UInt8} (h : FileAt z s n b name content)
    (hk : KeepsInode s s' n) : FileAt z s' n b name content := by
  obtain ⟨huses, hsame⟩ := hk
  have hag : (inodeAt s'.image b).Agrees (inodeAt s.image b) := (hsame b _ h.used rfl).readInode
  have hind : directNum < dataBlocks content.length →
      ((inodeAt s.image b).indirect, Use.indirect n) ∈ s.uses := by
    intro hlt
    have hu := h.indirect
    rwa [if_neg (not_le.mpr hlt)] at hu
  have hentry : ∀ k < dataBlocks content.length,
      entryBlock s'.image (inodeAt s'.image b) k = entryBlock s.image (inodeAt s.image b) k := by
    intro k hk
    exact entryBlock_inodeAt hag ((hk.trans_le h.max).trans (by decide))
      fun hge => hsame _ _ (hind (by omega)) rfl
  refine ⟨huses h.used, hag.size.trans h.size, hag.type.trans h.type,
    fun i hi => (hag.filename i hi).trans (h.filename i hi), hag.blocks.trans h.blocks,
    ?_, ?_, h.max⟩
  · intro k hk
    obtain ⟨hu, hholds⟩ := h.data k hk
    rw [hentry k hk]
    refine ⟨huses hu, fun t ht hlt => ?_⟩
    rw [← hholds t ht hlt]
    exact hsame _ _ hu rfl _ (by omega) (by omega)
  · rw [hag.indirect]
    have hu := h.indirect
    split_ifs at hu ⊢ with hle
    · exact hu
    · exact huses hu

lemma DirAt.congr {parent : ℕ} {name : List UInt8} {bs : List ℕ}
    (h : DirAt z s n b parent name bs) (hk : KeepsInode s s' n) :
    DirAt z s' n b parent name bs := by
  obtain ⟨huses, hsame⟩ := hk
  have hag : (inodeAt s'.image b).Agrees (inodeAt s.image b) := (hsame b _ h.used rfl).readInode
  have hdirect : ∀ k < directNum, (inodeAt s'.image b).direct k = (inodeAt s.image b).direct k :=
    hag.direct
  refine ⟨huses h.used, hag.type.trans h.type,
    fun i hi => (hag.filename i hi).trans (h.filename i hi), hag.blocks.trans h.blocks,
    (hdirect 0 (by decide)).trans h.self, (hdirect 1 (by decide)).trans h.parent, ?_, ?_, h.max⟩
  · intro j hj
    rw [← h.entry j hj]
    exact entryBlock_inodeAt hag (by have := h.max; omega)
      fun hge => hsame _ _ (h.indirect (by omega)) rfl
  · intro hlt
    rw [hag.indirect]
    exact huses (h.indirect hlt)

/-- What lies in the image stays as long as the blocks of its inodes do. -/
lemma LaidOut.congr {d : Listing} {now : ℕ} {bs : List ℕ} (h : LaidOut z s d now n bs)
    (hk : ∀ k, n ≤ k → k < n + d.inodes → KeepsInode s s' k) : LaidOut z s' d now n bs := by
  induction d generalizing now n bs with
  | nil => exact h
  | other _ rest ih => exact ih h hk
  | file name content rest ih =>
    obtain ⟨b, bs', rfl, hfile, hrest⟩ := h
    simp only [Listing.inodes] at hk
    exact ⟨b, bs', rfl, hfile.congr (hk n le_rfl (by omega)),
      ih hrest fun k h1 h2 => hk k (by omega) (by omega)⟩
  | dir name sub rest ihsub ihrest =>
    obtain ⟨b, bs', subs, rfl, hdir, hsub, hlen, hrest⟩ := h
    simp only [Listing.inodes] at hk
    exact ⟨b, bs', subs, rfl, hdir.congr (hk n le_rfl (by omega)),
      ihsub hsub fun k h1 h2 => hk k (by omega) (by omega), hlen,
      ihrest hrest fun k h1 h2 => hk k (by omega) (by omega)⟩

lemma LaidOut.used {d : Listing} {now : ℕ} {bs : List ℕ} (h : LaidOut z s d now n bs) :
    ∀ b ∈ bs, ∃ k, (b, Use.inode k) ∈ s.uses := by
  induction d generalizing now n bs with
  | nil =>
    obtain rfl : bs = [] := h
    simp
  | other _ rest ih => exact ih h
  | file name content rest ih =>
    obtain ⟨b, bs', rfl, hfile, hrest⟩ := h
    exact List.forall_mem_cons.mpr ⟨⟨n, hfile.used⟩, ih hrest⟩
  | dir name sub rest ihsub ihrest =>
    obtain ⟨b, bs', subs, rfl, hdir, _, _, hrest⟩ := h
    exact List.forall_mem_cons.mpr ⟨⟨n, hdir.used⟩, ihrest hrest⟩

lemma LaidOut.grows {d : Listing} {now : ℕ} {bs : List ℕ} (h : LaidOut z s d now n bs)
    (hg : Grows m s s') (hlt : m < n) : LaidOut z s' d now n bs :=
  h.congr fun k hk _ => hg.keepsInode (by omega)

/-- What `walkEntries` does when there is room. -/
structure Walked (z : Leftover) (s : Packer) (n now : ℕ) (inode : Inode) (i : ℕ) (d : Listing)
    (inode' : Inode) (s' : Packer) : Prop where
  inv : PackInv s'
  grows : Grows n s s'
  declared : s'.declared = s.declared + d.inodes
  head : SameHead inode inode'
  entries : ∀ j < i, entryBlock s'.image inode' j = entryBlock s.image inode j
  laidOut : ∃ bs, LaidOut z s' d now s.declared bs ∧ bs.length = d.count ∧
    ∀ j (h : j < bs.length), entryBlock s'.image inode' (i + j) = bs[j]

/-- An entry is packed and entered, and the rest of the directory is walked. -/
lemma Walked.cons {s₄ : Packer} {inode₄ : Inode} {now fin : ℕ} {rest : Listing}
    (hgrows : ∀ m, Grows m s s₁) (hready : IndirectReady s n inode i fin) (hlt : i < fin)
    (hmax : fin ≤ directNum + indirectNum)
    (hset : BlockSet s₁ n inode i b inode₄ s₄)
    (hrest : Walked z s₄ n now inode₄ (i + 1) rest inode' s') :
    Grows n s s' ∧ SameHead inode inode' ∧
      (∀ j < i, entryBlock s'.image inode' j = entryBlock s.image inode j) ∧
      ∃ bs, LaidOut z s' rest now s₁.declared bs ∧ (b :: bs).length = rest.count + 1 ∧
        ∀ j (h : j < (b :: bs).length), entryBlock s'.image inode' (i + j) = (b :: bs)[j] := by
  obtain ⟨bs, hlaid, hlen, hentry⟩ := hrest.laidOut
  rw [hset.declared] at hlaid
  refine ⟨((hgrows n).trans hset.grows).trans hrest.grows, hset.head.trans hrest.head,
    ?_, bs, hlaid, by simp [hlen], ?_⟩
  · intro j hj
    rw [hrest.entries j (by omega), hset.entries j hj]
    exact hready.entryBlock_eq (by omega) (by omega)
      (fun h => (hgrows (n + 1)).block _ _ h (by simp)) hj
  · intro j hj
    cases j with
    | zero => exact (hrest.entries i (by omega)).trans hset.entry
    | succ j =>
      rw [List.length_cons] at hj
      rw [show i + (j + 1) = i + 1 + j by omega]
      exact hentry j (by omega)

/-- The path of an entry is not the name of the root. -/
lemma path_ne_rootdir (name : List UInt8) {dirName : List UInt8}
    (h : rootdir.length ≤ dirName.length) :
    strcmp (dirName ++ slash :: name) rootdir ≠ 0 ∧
      rootdir.length ≤ (dirName ++ slash :: name).length := by
  have hlen : (dirName ++ slash :: name).length = dirName.length + (name.length + 1) := by simp
  refine ⟨fun hcmp => ?_, by omega⟩
  have heq := congrArg List.length (strcmp_eq_zero_iff.mp hcmp)
  omega

lemma IndirectReady.grows {fin : ℕ} (h : IndirectReady s n inode i fin) (hg : Grows m s s') :
    IndirectReady s' n inode i fin :=
  h.imp_right (Or.imp_right fun h => ⟨h.1, h.2.1, hg.uses h.2.2⟩)

/-- The inode of a directory that was walked is stored, after the image may have changed outside the
blocks of inodes: the directory lies in the image. -/
lemma Walked.dirAt {now parent fin : ℕ} {d : Listing} {name : List UInt8} {image : Bytes.Memory}
    (h : Walked z s n now inode 2 d inode' s') (hused : (now, Use.inode n) ∈ s.uses)
    (hfin : 2 + d.count = fin) (hready : IndirectReady s' n inode' fin fin)
    (hmax : fin ≤ directNum + indirectNum) (hn : n < s.declared) (htype : inode.type = typeDir)
    (hname : inode.filename = setName (z.inode n).filename name) (hself : inode.direct 0 = now)
    (hparent : inode.direct 1 = parent) (hlt : parent < 2 ^ 32)
    (himage : ∀ c r k, (c, r) ∈ s'.uses → r.owner = some k → SameBlock s'.image image c) :
    ∃ bs, DirAt z (copyInodeToBlock { s' with image } now { inode' with blocks := fin }) n now
        parent name bs ∧
      LaidOut z (copyInodeToBlock { s' with image } now { inode' with blocks := fin }) d now
        s.declared bs ∧ bs.length = d.count := by
  obtain ⟨bs, hlaid, hlen, hentry⟩ := h.laidOut
  have hused' := h.grows.uses hused
  have hsmall : ∀ {c r}, (c, r) ∈ s'.uses → c < 2 ^ 32 := fun hc =>
    (h.inv.lt_of_mem hc).trans (by decide)
  have hpres : ∀ {c r k}, (c, r) ∈ s'.uses → r.owner = some k → r ≠ Use.inode n →
      SameBlock s'.image
      (copyInodeToBlock { s' with image } now { inode' with blocks := fin }).image
        c := by
    intro c r k hc hk hr
    refine (himage c r k hc hk).trans (SameBlock.copyInodeToBlock { s' with image } _ ?_)
    rintro rfl
    exact hr (h.inv.oneUse c _ _ hc hused')
  have hag := inodeAt_copyInodeToBlock { s' with image } now { inode' with blocks := fin }
  have hind : directNum < fin → (inode'.indirect, Use.indirect n) ∈ s'.uses := by
    intro hlt
    rcases hready with h | ⟨h, _⟩ | ⟨_, _, h⟩
    · omega
    · omega
    · exact h
  have hdirect : ∀ k < 2, ∀ c < 2 ^ 32, inode.direct k = c →
      (inodeAt (copyInodeToBlock { s' with image } now { inode' with blocks := fin }).image
        now).direct k = c := by
    intro k hk c hc hdir
    have hentries := h.entries k hk
    rw [entryBlock, entryBlock, if_pos (show k < directNum by simp only [directNum]; omega),
      if_pos (show k < directNum by simp only [directNum]; omega), hdir] at hentries
    rw [hag.direct k (by simp only [directNum]; omega)]
    simp only [Inode.wrap, hentries, Nat.mod_eq_of_lt hc]
  have hfin' : 2 + bs.length = fin := by omega
  have hfin32 : fin < 2 ^ 32 := hmax.trans_lt (by decide)
  refine ⟨bs, ⟨hused', ?_, ?_, ?_, hdirect 0 (by omega) now (hsmall hused') hself,
    hdirect 1 (by omega) parent hlt hparent, ?_, ?_, by omega⟩, ?_, hlen⟩
  · rw [hag.type]
    simp only [Inode.wrap, h.head.type, htype]
    rfl
  · intro i hi
    rw [hag.filename i hi]
    simp only [Inode.wrap, h.head.filename, hname]
  · rw [hag.blocks, hfin']
    simp only [Inode.wrap, Nat.mod_eq_of_lt hfin32]
  · intro j hj
    obtain ⟨k, hk⟩ := hlaid.used _ (List.getElem_mem hj)
    have heq : entryBlock s'.image { inode' with blocks := fin } (2 + j) = bs[j] := hentry j hj
    rw [hag.entryBlock (by rw [heq]; exact hsmall hk) (by omega) fun hge => ?_, heq]
    have hu := hind (by omega)
    exact ⟨hsmall hu, hpres hu rfl (by simp)⟩
  · intro hlt'
    have hu := hind (by omega)
    rw [hag.indirect]
    simp only [Inode.wrap, Nat.mod_eq_of_lt (hsmall hu)]
    exact hu
  · refine hlaid.congr fun k hk _ => ⟨List.Subset.refl _, fun c r hc hr => hpres hc hr ?_⟩
    rintro rfl
    cases hr
    omega

lemma Listing.count_le_blocks (d : Listing) : d.count ≤ d.blocks := by
  induction d with
  | nil => exact le_rfl
  | other _ rest ih => exact ih
  | file _ _ rest ih =>
    simp only [Listing.count, Listing.blocks]
    omega
  | dir _ _ rest _ ih =>
    simp only [Listing.count, Listing.blocks]
    omega

/-- The inode that a directory has when it is opened. -/
lemma openDir_newDirInode {dirName : List UInt8} (h : strcmp dirName rootdir ≠ 0) (old : Inode)
    (name : List UInt8) (b now : ℕ) :
    let inode := openDir dirName (newDirInode old name b now) b
    inode.type = typeDir ∧ inode.filename = setName old.filename name ∧ inode.direct 0 = b ∧
      inode.direct 1 = now ∧ inode.indirect = old.indirect := by
  simp only [openDir, if_neg h, newDirInode]
  simp

/-- There is room for the entries of a directory from a position on, and nothing is in the way. -/
structure CanWalk (z : Leftover) (d : Listing) (dirName : List UInt8) (n now : ℕ) (inode : Inode)
    (i fin : ℕ) (s : Packer) : Prop where
  inv : PackInv s
  proper : d.Proper
  declared : n < s.declared
  used : (now, Use.inode n) ∈ s.uses
  below : rootdir.length ≤ dirName.length
  count : i + d.count = fin
  ready : IndirectReady s n inode i fin
  clear : d.Clear z s.declared
  paths : d.PathsFit z dirName
  max : fin ≤ directNum + indirectNum
  room : d.blocks + indirectCost i fin ≤ s.freenum

/-- The entries are walked, and as many blocks are taken as they need. -/
def WalksTo (z : Leftover) (d : Listing) (dirName : List UInt8) (n now : ℕ) (inode : Inode)
    (i fin : ℕ) (s : Packer) : Prop :=
  ∃ inode' s', walkEntries z d dirName n now inode i s = .ok (inode', fin, s') ∧
    Walked z s n now inode i d inode' s' ∧ IndirectReady s' n inode' fin fin ∧
    s'.freenum + (d.blocks + indirectCost i fin) = s.freenum

section
variable {name : FileName} {content dirName : List UInt8} {sub rest : Listing} {now fin : ℕ}

lemma CanWalk.nil (h : CanWalk z .nil dirName n now inode i fin s) :
    WalksTo z .nil dirName n now inode i fin s := by
  obtain rfl : i = fin := h.count
  refine ⟨inode, s, rfl, ⟨h.inv, Grows.refl n s, rfl, SameHead.refl _, fun _ _ => rfl, [], rfl, rfl,
    by simp⟩, h.ready, ?_⟩
  simp [Listing.blocks, indirectCost_self]

/-- A file is packed and entered, and the rest of the directory is walked. -/
lemma CanWalk.file (h : CanWalk z (.file name content rest) dirName n now inode i fin s)
    (ih : ∀ {inode s}, CanWalk z rest dirName n now inode (i + 1) fin s →
      WalksTo z rest dirName n now inode (i + 1) fin s) :
    WalksTo z (.file name content rest) dirName n now inode i fin s := by
  obtain ⟨hi, ⟨hdot, hdotdot, _, hp⟩, hn, hnow, hdir, hfin, hready, ⟨hclear, hclear'⟩,
    ⟨hpath, hpaths⟩, hmax, hroom⟩ := h
  simp only [Listing.count, Listing.blocks] at hfin hroom
  have hcost := indirectCost_succ (show i < fin by omega)
  obtain ⟨b, s₁, hpack, hi₁, hgrows₁, hdecl₁, hfile, hnum₁⟩ :=
    hi.packFile_ok hpath hclear (by omega)
  obtain ⟨inode₂, s₂, hset, hbs, hready₂, hnum₂⟩ := hi₁.setBlock_ok (hready.grows (hgrows₁ n))
    (by omega) (by omega) (show b < 2 ^ 32 from (hi₁.lt_of_mem hfile.used).trans (by decide))
    (by omega) (by omega)
  obtain ⟨inode', s', hok, hwalked, hready', hnum'⟩ := ih ⟨hbs.inv, hp,
    by rw [hbs.declared]; omega, hbs.grows.uses ((hgrows₁ n).uses hnow), hdir, by omega, hready₂,
    by rwa [hbs.declared, hdecl₁], hpaths, hmax, by omega⟩
  obtain ⟨hgrows, hhead, hentries, bs, hlaid, hlen, hentry⟩ :=
    Walked.cons hgrows₁ hready (by omega) hmax hbs hwalked
  rw [hdecl₁] at hlaid
  refine ⟨inode', s', ?_, ⟨hwalked.inv, hgrows, ?_, hhead, hentries, b :: bs,
    ⟨b, bs, rfl, ?_, hlaid⟩, hlen, hentry⟩, hready', by simp only [Listing.blocks]; omega⟩
  · rw [walkEntries, if_neg (by simp [strcmp_eq_zero_iff, hdot, hdotdot]), bind_ok hpack]
    simp only [bind_ok hset]
    exact hok
  · rw [hwalked.declared, hbs.declared, hdecl₁, Listing.inodes]
    omega
  · exact (hfile.congr (hbs.grows.keepsInode (by omega))).congr
      (hwalked.grows.keepsInode (by omega))

/-- A directory that was packed with everything below it, its inode in the block `b`. -/
structure SubPacked (z : Leftover) (s : Packer) (now b : ℕ) (name : List UInt8) (sub : Listing)
    (s' : Packer) : Prop where
  inv : PackInv s'
  grows : ∀ m, Grows m s s'
  declared : s'.declared = s.declared + 1 + sub.inodes
  lt : b < blockNum
  dirAt : ∃ subs, DirAt z s' s.declared b now name subs ∧
    LaidOut z s' sub b (s.declared + 1) subs ∧ subs.length = sub.count
  room : s'.freenum + (1 + (sub.blocks + indirectCost 2 (2 + sub.count))) = s.freenum

/-- A directory is packed with everything below it. -/
lemma CanWalk.packSub (h : CanWalk z (.dir name sub rest) dirName n now inode i fin s)
    (ih : ∀ {dirName n now inode i fin s}, CanWalk z sub dirName n now inode i fin s →
      WalksTo z sub dirName n now inode i fin s) :
    ∃ b s₁ dinode s₂, getFreeBlock { s with declared := s.declared + 1 } (.inode s.declared) =
        .ok (b, s₁) ∧
      walkEntries z sub (dirName ++ slash :: name.bytes) s.declared b
        (openDir (dirName ++ slash :: name.bytes)
          (newDirInode (z.inode s.declared) name.bytes b now) b) 2 s₁ =
        .ok (dinode, 2 + sub.count, s₂) ∧
      SubPacked z s now b name.bytes sub
        (Jokerix.copyInodeToBlock s₂ b { dinode with blocks := 2 + sub.count }) := by
  obtain ⟨hi, ⟨hdot, hdotdot, _, hpsub, hp⟩, hn, hnow, hdir, hfin, hready,
    ⟨hclearDir, hclearSub, hclear'⟩, ⟨hpath, hpathsSub, hpaths⟩, hmax, hroom⟩ := h
  simp only [Listing.count, Listing.blocks] at hfin hroom
  have hcostSub : indirectCost 2 (2 + sub.count) ≤ s.freenum := by omega
  set c := s.declared with hc
  have hi₀ : PackInv { s with declared := c + 1 } := hi.setDeclared (by omega)
  obtain ⟨b, hb, _, hnot, s₁, hget, hi₁, himage₁, hdecl₁, huses₁, hnum₁⟩ :=
    hi₀.getFreeBlock_ok (.inode c) (by rintro k h; cases h; exact Nat.lt_succ_self c)
      (show 0 < s.freenum by omega)
  have hnum₁ : s₁.freenum + 1 = s.freenum := hnum₁
  have hdecl₁ : s₁.declared = c + 1 := hdecl₁
  obtain ⟨hne, hdir'⟩ := path_ne_rootdir name.bytes hdir
  obtain ⟨htype, hname, hself, hparent, hindirect⟩ :=
    openDir_newDirInode hne (z.inode c) name.bytes b now
  set dinode := openDir (dirName ++ slash :: name.bytes)
    (newDirInode (z.inode c) name.bytes b now) b with hdinode
  have hbu : (b, Use.inode c) ∈ s₁.uses := by simp [huses₁]
  have hcount := sub.count_le_blocks
  have hle : s.freenum ≤ blockNum := hi.freenum ▸ freeBlocks_le s.freemap
  have hmaxSub : 2 + sub.count ≤ directNum + indirectNum := by
    simp only [directNum, indirectNum, blockNum] at *
    omega
  have hreadySub : IndirectReady s₁ c dinode 2 (2 + sub.count) :=
    hclearDir.imp id fun h => .inl ⟨by decide, by rw [hindirect, h]⟩
  obtain ⟨dinode', s₂, hokSub, hwalkedSub, hreadySub', hnumSub⟩ := ih ⟨hi₁, hpsub,
    show c < s₁.declared by omega, hbu, hdir', rfl, hreadySub, by rwa [hdecl₁], hpathsSub, hmaxSub,
    by omega⟩
  obtain ⟨subs, hdirAt, hlaidSub, hlenSub⟩ := hwalkedSub.dirAt hbu rfl hreadySub' hmaxSub (by omega)
    htype hname hself hparent ((hi.lt_of_mem hnow).trans (by decide))
    fun c _ _ _ _ => SameBlock.refl s₂.image c
  rw [hdecl₁] at hlaidSub
  have hdecl₂ : s₂.declared = c + 1 + sub.inodes := by rw [← hdecl₁, hwalkedSub.declared]
  refine ⟨b, s₁, dinode', s₂, hget, hokSub, hwalkedSub.inv.copyInodeToBlock _ _,
    fun m => ?_, hdecl₂, hb, ⟨subs, hdirAt, hlaidSub, hlenSub⟩, ?_⟩
  · refine Grows.of_new (n := c) hi ⟨?_, ?_, fun x r hx hr => ?_⟩ le_rfl
    · exact fun x hx => hwalkedSub.grows.uses (by simp [huses₁, hx])
    · exact le_of_le_of_eq (by omega) hdecl₂.symm
    · have hx₁ : (x, r) ∈ s₁.uses := by simp [huses₁, hx]
      have hblock := hwalkedSub.grows.block x r hx₁ hr
      rw [himage₁] at hblock
      refine SameBlock.trans hblock (SameBlock.copyInodeToBlock s₂ _ ?_)
      rintro rfl
      exact hnot r hx
  · change s₂.freenum + _ = _
    omega

/-- A directory is packed and entered, and the rest of the directory above is walked. -/
lemma CanWalk.dir (h : CanWalk z (.dir name sub rest) dirName n now inode i fin s)
    (ihsub : ∀ {dirName n now inode i fin s}, CanWalk z sub dirName n now inode i fin s →
      WalksTo z sub dirName n now inode i fin s)
    (ih : ∀ {inode s}, CanWalk z rest dirName n now inode (i + 1) fin s →
      WalksTo z rest dirName n now inode (i + 1) fin s) :
    WalksTo z (.dir name sub rest) dirName n now inode i fin s := by
  obtain ⟨b, s₁, dinode, s₂, hget, hsub, hi₃, hgrows₃, hdecl₃, hb,
    ⟨subs, hdirAt, hlaidSub, hlenSub⟩, hnum₃⟩ := h.packSub ihsub
  obtain ⟨hi, ⟨hdot, hdotdot, _, hpsub, hp⟩, hn, hnow, hdir, hfin, hready,
    ⟨hclearDir, hclearSub, hclear'⟩, ⟨hpath, hpathsSub, hpaths⟩, hmax, hroom⟩ := h
  simp only [Listing.count, Listing.blocks] at hfin hroom
  have hcost := indirectCost_succ (show i < fin by omega)
  set s₃ := Jokerix.copyInodeToBlock s₂ b { dinode with blocks := 2 + sub.count } with hs₃
  obtain ⟨inode₄, s₄, hset, hbs, hready₄, hnum₄⟩ := hi₃.setBlock_ok (hready.grows (hgrows₃ n))
    (by omega) (by omega) (show b < 2 ^ 32 from hb.trans (by decide)) (by omega) (by omega)
  obtain ⟨inode', s', hok, hwalked, hready', hnum'⟩ := ih ⟨hbs.inv, hp,
    by rw [hbs.declared]; omega, hbs.grows.uses ((hgrows₃ n).uses hnow), hdir, by omega, hready₄,
    by rwa [hbs.declared, hdecl₃], hpaths, hmax, by omega⟩
  obtain ⟨hgrows, hhead, hentries, bs, hlaid, hlen, hentry⟩ :=
    Walked.cons hgrows₃ hready (by omega) hmax hbs hwalked
  rw [hdecl₃] at hlaid
  refine ⟨inode', s', ?_, ⟨hwalked.inv, hgrows, ?_, hhead, hentries, b :: bs,
    ⟨b, bs, subs, rfl, ?_, ?_, hlenSub, hlaid⟩, hlen, hentry⟩, hready',
    by simp only [Listing.blocks]; omega⟩
  · rw [walkEntries, if_neg (by simp [strcmp_eq_zero_iff, hdot, hdotdot])]
    simp only [bind_ok hget, entryPath_ok hpath]
    rw [bind_ok rfl]
    simp only [bind_ok hsub, ← hs₃, bind_ok hset]
    exact hok
  · rw [hwalked.declared, hbs.declared, hdecl₃, Listing.inodes]
    omega
  · exact (hdirAt.congr (hbs.grows.keepsInode (by omega))).congr
      (hwalked.grows.keepsInode (by omega))
  · exact (hlaidSub.grows hbs.grows (by omega)).grows hwalked.grows (by omega)

/-- As long as there are free blocks, every directory is walked. -/
theorem CanWalk.walksTo {d : Listing} (h : CanWalk z d dirName n now inode i fin s) :
    WalksTo z d dirName n now inode i fin s := by
  induction d generalizing s inode i n now dirName fin with
  | nil => exact h.nil
  | other _ rest ih =>
    obtain ⟨hi, hp, hn, hnow, hdir, hfin, hready, hclear, hpaths, hmax, hroom⟩ := h
    obtain ⟨inode', s', hok, ⟨h1, h2, h3, h4, h5, h6⟩, hrest⟩ :=
      ih ⟨hi, hp, hn, hnow, hdir, hfin, hready, hclear, hpaths, hmax, hroom⟩
    exact ⟨inode', s', hok, ⟨h1, h2, h3, h4, h5, h6⟩, hrest⟩
  | file name content rest ih => exact h.file ih
  | dir name sub rest ihsub ihrest => exact h.dir ihsub ihrest

end

end

end Jokerix
