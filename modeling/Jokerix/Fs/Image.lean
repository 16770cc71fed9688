import Jokerix.Fs.Packing

/-!
# The finished image

What `main` adds to the blocks that `walk` has laid out: the super block, the free map and the root
inode. Every directory that fits is packed.
-/

namespace Jokerix

/-- The root directory and everything below it has room in an image. -/
def Listing.Fits (d : Listing) : Prop :=
  freemapNum + 2 + (d.blocks + indirectCost 2 (2 + d.count)) ≤ blockNum

/-- The root directory and everything below it can be packed. -/
def Listing.RootClear (z : Leftover) (d : Listing) : Prop :=
  (2 + d.count ≤ directNum ∨ (z.inode 0).indirect = 0) ∧ d.Clear z 1

/-- The bit of a block in the free map of an image. -/
def freemapBit (mem : Bytes.Memory) (b : ℕ) : Bool :=
  (mem (blockSize + b / 8)).toNat.testBit (b % 8)

lemma testBit_foldl_or (f : ℕ → Bool) (n k : ℕ) :
    ((List.range n).foldl (fun c j => if f j then c ||| 2 ^ j else c) 0).testBit k =
      (decide (k < n) && f k) := by
  induction n with
  | zero => simp
  | succ n ih =>
    rw [List.range_succ, List.foldl_append, List.foldl_cons, List.foldl_nil]
    by_cases hk : k = n
    · subst hk
      split_ifs with hf <;> simp [ih, hf]
    · have hlt : k < n + 1 ↔ k < n := by omega
      split_ifs with hf
      · simp [ih, hlt, Nat.testBit_two_pow_of_ne (Ne.symm hk)]
      · simp [ih, hlt]

lemma testBit_freemapByte (freemap : ℕ → Bool) (i : ℕ) {j : ℕ} (hj : j < 8) :
    (freemapByte freemap i).toNat.testBit j = freemap (i * 8 + j) := by
  rw [freemapByte, UInt8.toNat_ofNat', Nat.testBit_mod_two_pow,
    testBit_foldl_or fun j => freemap (i * 8 + j)]
  simp [hj]

lemma packInv_start : PackInv packerStart := by
  refine ⟨by decide, by decide, by decide, ?_, ?_, ?_, by decide +kernel, ?_⟩
  · intro b hb
    exact (of_decide_eq_true hb).trans_lt (by decide)
  · intro b
    simp only [packerStart, rootBlock, freemapNum, List.mem_cons, Prod.mk.injEq, List.not_mem_nil,
      or_false]
    constructor
    · intro hb
      have hb : b ≤ 2 := of_decide_eq_true hb
      obtain rfl | rfl | rfl : b = 0 ∨ b = 1 ∨ b = 2 := by omega
      · exact ⟨_, .inl ⟨rfl, rfl⟩⟩
      · exact ⟨_, .inr (.inl ⟨rfl, rfl⟩)⟩
      · exact ⟨_, .inr (.inr ⟨rfl, rfl⟩)⟩
    · rintro ⟨r, ⟨rfl, _⟩ | ⟨rfl, _⟩ | ⟨rfl, _⟩⟩ <;> rfl
  · intro b r r' hr hr'
    simp only [packerStart, rootBlock, freemapNum, List.mem_cons, Prod.mk.injEq, List.not_mem_nil,
      or_false] at hr hr'
    rcases hr with ⟨rfl, rfl⟩ | ⟨rfl, rfl⟩ | ⟨rfl, rfl⟩ <;>
      rcases hr' with ⟨h, rfl⟩ | ⟨h, rfl⟩ | ⟨h, rfl⟩ <;> first | rfl | cases h
  · intro b r n hr hn
    simp only [packerStart, List.mem_cons, Prod.mk.injEq, List.not_mem_nil, or_false] at hr
    rcases hr with ⟨_, rfl⟩ | ⟨_, rfl⟩ | ⟨_, rfl⟩
    · cases hn
    · cases hn
    · obtain rfl := Option.some.inj hn
      exact Nat.zero_lt_one

/-- The image before the root inode is stored. -/
def storeTables (z : Leftover) (s : Packer) : Bytes.Memory :=
  Bytes.store (storeSuperBlock s.image s.freenum z.info) blockSize
    ((List.range (blockNum / 8)).map (freemapByte s.freemap))

section
variable {z : Leftover} {s : Packer}

lemma storeSuperBlock_of_le {mem : Bytes.Memory} {unused x : ℕ} {info : ℕ → UInt8} (h : 48 ≤ x) :
    storeSuperBlock mem unused info x = mem x := by
  simp only [storeSuperBlock]
  rw [Bytes.store_of_not_mem (by simp; omega), Bytes.storeLE_of_not_mem (by omega),
    Bytes.storeLE_of_not_mem (by omega), Bytes.storeLE_of_not_mem (by omega),
    Bytes.storeLE_of_not_mem (by omega)]

/-- The super block and the free map take the first two blocks. -/
lemma storeTables_of_le {x : ℕ} (h : rootBlock * blockSize ≤ x) :
    storeTables z s x = s.image x := by
  have hroot : rootBlock * blockSize = 8192 := rfl
  have hlen : ((List.range (blockNum / 8)).map (freemapByte s.freemap)).length = 32 := by
    simp [blockNum]
  rw [storeTables, Bytes.store_of_not_mem (by simp only [hlen, blockSize]; omega),
    storeSuperBlock_of_le (by omega)]

/-- The free map and the counter, as they are read from the finished image. -/
lemma freemapBit_finish (inode : Inode) {b : ℕ} (hb : b < blockNum) :
    freemapBit (copyInodeToBlock { s with image := storeTables z s } rootBlock inode).image b =
      s.freemap b := by
  have hroot : rootBlock * blockSize = 8192 := rfl
  have hb : b < 256 := hb
  have hlen : ((List.range (blockNum / 8)).map (freemapByte s.freemap)).length = 32 := by
    simp [blockNum]
  rw [freemapBit, copyInodeToBlock]
  simp only
  rw [storeInode_of_not_mem (by simp only [blockSize] at *; omega), storeTables,
    Bytes.store_of_mem (by omega) (by omega), Nat.add_sub_cancel_left,
    List.getD_eq_getElem _ _ (by omega)]
  simp only [List.getElem_map, List.getElem_range]
  rw [testBit_freemapByte _ _ (Nat.mod_lt b (by decide)), Nat.div_add_mod']

/-- The numbers of the super block, as they are read from the finished image. -/
lemma superBlock_finish (inode : Inode) {x : ℕ} (hx : x < 16) :
    (copyInodeToBlock { s with image := storeTables z s } rootBlock inode).image x =
      Bytes.storeLE 4 (Bytes.storeLE 4 (Bytes.storeLE 4 (Bytes.storeLE 4 s.image 0 magicNum) 4
        blockNum) 8 s.freenum) 12 freemapNum x := by
  have hroot : rootBlock * blockSize = 8192 := rfl
  rw [copyInodeToBlock]
  simp only
  rw [storeInode_of_not_mem (by omega), storeTables,
    Bytes.store_of_not_mem (by simp only [blockSize]; omega), storeSuperBlock,
    Bytes.store_of_not_mem (by omega)]

lemma unusedBlocks_finish (inode : Inode) (hlt : s.freenum < 2 ^ 32) :
    Bytes.loadLE 4 (copyInodeToBlock { s with image := storeTables z s } rootBlock inode).image 8 =
      s.freenum := by
  rw [Bytes.loadLE_congr fun x h1 h2 => superBlock_finish inode (by omega),
    Bytes.loadLE_storeLE_of_disjoint (by omega), Bytes.loadLE_storeLE_same,
    show (256 : ℕ) ^ 4 = 2 ^ 32 by norm_num, Nat.mod_eq_of_lt hlt]

lemma freemapBlocks_finish (inode : Inode) :
    Bytes.loadLE 4 (copyInodeToBlock { s with image := storeTables z s } rootBlock inode).image 12 =
      freemapNum := by
  rw [Bytes.loadLE_congr fun x h1 h2 => superBlock_finish inode (by omega),
    Bytes.loadLE_storeLE_same]
  rfl

/-- What lies in a finished image. -/
structure Packed (z : Leftover) (root : Listing) (s : Packer) : Prop where
  inv : PackInv s
  laidOut : ∃ bs, DirAt z s 0 rootBlock rootBlock [slash] bs ∧ LaidOut z s root rootBlock 1 bs ∧
    bs.length = root.count
  freemapBlocks : Bytes.loadLE 4 s.image 12 = freemapNum
  bits : ∀ b < blockNum, freemapBit s.image b = s.freemap b
  unused : Bytes.loadLE 4 s.image 8 = s.freenum
  free : s.freenum + (freemapNum + 2 + (root.blocks + indirectCost 2 (2 + root.count))) = blockNum

/-- Every directory of a host that fits is packed, when the paths find room and what `walk` leaves
unset permits it. -/
theorem mksfs_ok {root : Listing} (hp : root.Proper) (hfits : root.Fits)
    (hpaths : root.PathsFit z rootdir) (hclear : root.RootClear z) :
    ∃ s, mksfs z root = .ok s ∧ Packed z root s := by
  obtain ⟨hclearRoot, hclear⟩ := hclear
  have hcount := root.count_le_blocks
  have hmax : 2 + root.count ≤ directNum + indirectNum := by
    rw [Listing.Fits] at hfits
    simp only [directNum, indirectNum, blockNum] at *
    omega
  set rootInode := openDir rootdir (newRootInode z) rootBlock with hrootInode
  have hopen : rootInode.type = typeDir ∧
      rootInode.filename = setName (z.inode 0).filename [slash] ∧ rootInode.direct 0 = rootBlock ∧
      rootInode.direct 1 = rootBlock ∧ rootInode.indirect = (z.inode 0).indirect := by
    rw [hrootInode, openDir, if_pos (strcmp_eq_zero_iff.mpr rfl)]
    simp [newRootInode]
  obtain ⟨htype, hname, hself, hparent, hindirect⟩ := hopen
  have hready : IndirectReady packerStart 0 rootInode 2 (2 + root.count) :=
    hclearRoot.imp id fun h => .inl ⟨by decide, by rw [hindirect, h]⟩
  have hroot : (rootBlock, Use.inode 0) ∈ packerStart.uses := packInv_start.root
  have hstart : packerStart.freenum = blockNum - (freemapNum + 2) := rfl
  have hthree : freemapNum + 2 ≤ blockNum := by decide
  rw [Listing.Fits] at hfits
  obtain ⟨inode', s₁, hok, hwalked, hready', hnum⟩ := CanWalk.walksTo ⟨packInv_start, hp,
    show 0 < packerStart.declared by decide, hroot, le_rfl, rfl, hready, hclear, hpaths, hmax,
    by omega⟩
  have himage : ∀ c r k, (c, r) ∈ s₁.uses → r.owner = some k →
      SameBlock s₁.image (storeTables z s₁) c := by
    intro c r k hc hk x hx _
    apply storeTables_of_le
    have hc0 : c ≠ 0 := by
      rintro rfl
      rw [hwalked.inv.oneUse 0 r _ hc hwalked.inv.superBlock] at hk
      cases hk
    have hc1 : c ≠ 1 := by
      rintro rfl
      rw [hwalked.inv.oneUse 1 r _ hc hwalked.inv.freemapBlock] at hk
      cases hk
    have hle : rootBlock * blockSize ≤ c * blockSize :=
      Nat.mul_le_mul_right _ (show 2 ≤ c by omega)
    omega
  obtain ⟨bs, hdirAt, hlaid, hlen⟩ := hwalked.dirAt hroot rfl hready' hmax (by decide) htype hname
    hself hparent (by decide) himage
  refine ⟨_, ?_, (hwalked.inv.setImage _).copyInodeToBlock _ _, ⟨bs, hdirAt, hlaid, hlen⟩,
    freemapBlocks_finish _, fun b hb => freemapBit_finish _ hb, unusedBlocks_finish _ ?_, ?_⟩
  · rw [mksfs, walk, ← hrootInode, bind_ok hok]
    rfl
  · exact (hwalked.inv.freenum ▸ freeBlocks_le s₁.freemap).trans_lt (by decide)
  · change s₁.freenum + _ = _
    omega

end

end Jokerix
