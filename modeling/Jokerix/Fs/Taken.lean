import Jokerix.Fs.Image

/-!
# What a run of the packer takes

A run that completes has taken a block for everything it packed, and one for each indirect block
whose place held a zero.
-/

namespace Jokerix

section
variable {b i n fin block : ℕ} {s s' : Packer} {inode inode' : Inode} {z : Leftover}

/-- The block that is still to be taken for the indirect block of an inode. -/
def missing (inode : Inode) (i fin : ℕ) : ℕ :=
  if inode.indirect = 0 ∧ i < fin ∧ directNum < fin then 1 else 0

/-- What a part of a run takes; the super block stays marked. -/
structure Takes (s s' : Packer) (blocks : ℕ) : Prop where
  superBlock : s'.freemap 0 = true
  free : freeBlocks s.freemap = freeBlocks s'.freemap + blocks

lemma missing_self : missing inode i i = 0 := if_neg fun h => lt_irrefl i h.2.1

lemma takes_getFreeBlock {use : Use} (h : getFreeBlock s use = .ok (b, s'))
    (h0 : s.freemap 0 = true) :
    Takes s s' 1 ∧ s'.declared = s.declared ∧ b ≠ 0 := by
  rw [getFreeBlock] at h
  split at h
  · cases h
  case h_2 c hfind =>
    cases h
    have hb : b < blockNum := List.mem_range.mp (List.mem_of_find?_eq_some hfind)
    have hfree : s.freemap b = false := by simpa using List.find?_some hfind
    have hb0 : b ≠ 0 := by
      rintro rfl
      rw [h0] at hfree
      cases hfree
    exact ⟨⟨by simp [Packer.mark, Function.update_of_ne hb0.symm, h0],
      (freeBlocks_update hb hfree).symm⟩, rfl, hb0⟩

lemma setIndirect_freemap {indirect : ℕ} (h : setIndirect s n indirect i block = .ok s') :
    s'.freemap = s.freemap ∧ s'.declared = s.declared := by
  rw [setIndirect] at h
  split_ifs at h
  cases h
  exact ⟨rfl, rfl⟩

/-- Entering a block takes one for the indirect block when the field for it is zero. -/
lemma takes_setBlock (fin : ℕ) (h : setBlock s n inode i block = .ok (inode', s')) (hlt : i < fin)
    (h0 : s.freemap 0 = true) :
    s'.freemap 0 = true ∧ s'.declared = s.declared ∧
      freeBlocks s.freemap + missing inode' (i + 1) fin =
        freeBlocks s'.freemap + missing inode i fin := by
  rw [setBlock] at h
  split_ifs at h with h1 h2
  · cases h
    refine ⟨h0, rfl, ?_⟩
    simp only [missing]
    split_ifs <;> omega
  · obtain ⟨⟨c, s₁⟩, hget, h⟩ := bind_eq_ok h
    obtain ⟨s₂, hset, h⟩ := bind_eq_ok h
    cases h
    obtain ⟨⟨h0', hfree⟩, hdecl, hc⟩ := takes_getFreeBlock hget h0
    obtain ⟨hmap, hdecl'⟩ := setIndirect_freemap hset
    refine ⟨by rw [hmap, h0'], hdecl'.trans hdecl, ?_⟩
    rw [hmap, missing, missing, if_neg fun h => hc h.1, if_pos ⟨h2, hlt, by omega⟩]
    exact hfree
  · obtain ⟨s₁, hset, h⟩ := bind_eq_ok h
    cases h
    obtain ⟨hmap, hdecl⟩ := setIndirect_freemap hset
    refine ⟨by rw [hmap, h0], hdecl, ?_⟩
    rw [hmap, missing, missing, if_neg fun h => h2 h.1, if_neg fun h => h2 h.1]

lemma takes_copyFile {turns l : ℕ} {data : List UInt8}
    (h : copyFile n turns data l i inode s = .ok (inode', s')) (ht : l ≤ turns)
    (hfin : i + dataBlocks l = fin) (h0 : s.freemap 0 = true) :
    Takes s s' (dataBlocks l + missing inode i fin) ∧ s'.declared = s.declared := by
  induction turns generalizing data l i inode s with
  | zero =>
    cases h
    obtain rfl : l = 0 := by omega
    obtain rfl : i = fin := hfin
    exact ⟨⟨h0, by simp [dataBlocks_zero, missing_self]⟩, rfl⟩
  | succ turns ih =>
    rw [copyFile] at h
    by_cases hl : l = 0
    · rw [if_pos hl] at h
      cases h
      subst hl
      obtain rfl : i = fin := hfin
      exact ⟨⟨h0, by simp [dataBlocks_zero, missing_self]⟩, rfl⟩
    · rw [if_neg hl] at h
      have hsucc := dataBlocks_succ hl
      obtain ⟨⟨c, s₁⟩, hget, h⟩ := bind_eq_ok h
      obtain ⟨⟨inode₂, s₂⟩, hset, h⟩ := bind_eq_ok h
      obtain ⟨⟨h1, hfree₁⟩, hdecl₁, _⟩ := takes_getFreeBlock hget h0
      obtain ⟨h2, hdecl₂, hfree₂⟩ := takes_setBlock fin hset (by omega) h1
      have hfree₂ : freeBlocks s₁.freemap + _ = _ := hfree₂
      have hpos : 0 < if blockSize < l then blockSize else l := by
        split_ifs <;> simp only [blockSize] at * <;> omega
      obtain ⟨⟨h3, hfree₃⟩, hdecl₃⟩ := ih h (by omega) (by omega) h2
      exact ⟨⟨h3, by omega⟩, hdecl₃.trans (hdecl₂.trans hdecl₁)⟩

/-- A run that goes on after an entry has found room for its path. -/
lemma entryPath_eq_ok {dirName name path : List UInt8} (h : entryPath z dirName name = .ok path) :
    PathFits z dirName name ∧ path = dirName ++ slash :: name := by
  rw [entryPath] at h
  split_ifs at h with hfits
  cases h
  exact ⟨hfits, rfl⟩

lemma takes_packFile {dirName name content : List UInt8}
    (h : packFile z dirName name content s = .ok (b, s')) (h0 : s.freemap 0 = true) :
    Takes s s' (1 + (dataBlocks (content.length % 2 ^ 32) +
        missing (z.inode s.declared) 0 (dataBlocks (content.length % 2 ^ 32)))) ∧
      s'.declared = s.declared + 1 := by
  rw [packFile] at h
  obtain ⟨_, _, h⟩ := bind_eq_ok h
  obtain ⟨⟨c, s₁⟩, hget, h⟩ := bind_eq_ok h
  obtain ⟨⟨inode₂, s₂⟩, hcopy, h⟩ := bind_eq_ok h
  cases h
  obtain ⟨⟨h1, hfree₁⟩, hdecl₁, _⟩ := takes_getFreeBlock hget h0
  obtain ⟨⟨h2, hfree₂⟩, hdecl₂⟩ := takes_copyFile hcopy le_rfl (Nat.zero_add _) h1
  refine ⟨⟨h2, ?_⟩, hdecl₂.trans hdecl₁⟩
  simp only [missing] at *
  simp only [Jokerix.copyInodeToBlock]
  omega

/-- The blocks that a run takes for everything below a directory. -/
def Listing.taken (z : Leftover) : Listing → ℕ → ℕ
  | .nil, _ => 0
  | .other _ rest, n => rest.taken z n
  | .file _ content rest, n =>
    1 + (dataBlocks (content.length % 2 ^ 32) +
        missing (z.inode n) 0 (dataBlocks (content.length % 2 ^ 32))) +
      rest.taken z (n + 1)
  | .dir _ sub rest, n =>
    1 + (sub.taken z (n + 1) + missing (z.inode n) 2 (2 + sub.count)) +
      rest.taken z (n + 1 + sub.inodes)

lemma indirect_openDir (dirName : List UInt8) (inode : Inode) (b : ℕ) :
    (openDir dirName inode b).indirect = inode.indirect := by
  rw [openDir]
  split_ifs <;> rfl

lemma takes_walkEntries (fin : ℕ) {d : Listing} {dirName : List UInt8} {now last : ℕ}
    (h : walkEntries z d dirName n now inode i s = .ok (inode', last, s')) (hp : d.Proper)
    (hfin : i + d.count = fin) (h0 : s.freemap 0 = true) :
    Takes s s' (d.taken z s.declared + missing inode i fin) ∧
      s'.declared = s.declared + d.inodes := by
  induction d generalizing s s' inode inode' i n now dirName fin last with
  | nil =>
    cases h
    obtain rfl : i = fin := hfin
    exact ⟨⟨h0, by simp [Listing.taken, missing_self]⟩, rfl⟩
  | other _ rest ih => exact ih fin h hp hfin h0
  | file name content rest ih =>
    obtain ⟨hdot, hdotdot, _, hp⟩ := hp
    rw [walkEntries, if_neg (by simp [strcmp_eq_zero_iff, hdot, hdotdot])] at h
    obtain ⟨⟨b, s₁⟩, hpack, h⟩ := bind_eq_ok h
    obtain ⟨⟨inode₂, s₂⟩, hset, h⟩ := bind_eq_ok h
    simp only [Listing.count] at hfin
    obtain ⟨⟨h1, hfree₁⟩, hdecl₁⟩ := takes_packFile hpack h0
    obtain ⟨h2, hdecl₂, hfree₂⟩ := takes_setBlock fin hset (by omega) h1
    obtain ⟨⟨h3, hfree₃⟩, hdecl₃⟩ := ih fin h hp (by omega) h2
    rw [hdecl₂, hdecl₁] at hfree₃ hdecl₃
    simp only [Listing.taken, Listing.inodes]
    exact ⟨⟨h3, by omega⟩, by omega⟩
  | dir name sub rest ihsub ihrest =>
    obtain ⟨hdot, hdotdot, _, hpsub, hp⟩ := hp
    rw [walkEntries, if_neg (by simp [strcmp_eq_zero_iff, hdot, hdotdot])] at h
    obtain ⟨⟨b, s₁⟩, hget, h⟩ := bind_eq_ok h
    obtain ⟨_, _, h⟩ := bind_eq_ok h
    obtain ⟨⟨dinode, blocks, s₂⟩, hsub, h⟩ := bind_eq_ok h
    obtain ⟨⟨inode₃, s₃⟩, hset, h⟩ := bind_eq_ok h
    simp only [Listing.count] at hfin
    obtain ⟨⟨h1, hfree₁⟩, hdecl₁, _⟩ := takes_getFreeBlock hget h0
    obtain ⟨⟨h2, hfree₂⟩, hdecl₂⟩ := ihsub _ hsub hpsub rfl h1
    obtain ⟨h3, hdecl₃, hfree₃⟩ := takes_setBlock fin hset (by omega) h2
    obtain ⟨⟨h4, hfree₄⟩, hdecl₄⟩ := ihrest fin h hp (by omega) h3
    simp only [missing, indirect_openDir, newDirInode] at *
    rw [hdecl₃] at hfree₄ hdecl₄
    simp only [Listing.taken, Listing.inodes, Jokerix.copyInodeToBlock, missing] at *
    rw [hdecl₂, hdecl₁] at hfree₄ hdecl₄
    rw [hdecl₁] at hfree₂
    exact ⟨⟨h4, by omega⟩, by omega⟩

/-- The listing with the bytes of its files that are packed: a length is a `u32`. -/
def Listing.packed : Listing → Listing
  | .nil => .nil
  | .other name rest => .other name rest.packed
  | .file name content rest =>
    .file name (content.take (content.length % 2 ^ 32)) rest.packed
  | .dir name sub rest => .dir name sub.packed rest.packed

lemma length_packed (content : List UInt8) :
    (content.take (content.length % 2 ^ 32)).length = content.length % 2 ^ 32 := by
  rw [List.length_take, Nat.min_eq_left (Nat.mod_le _ _)]

lemma Listing.packed_count (d : Listing) : d.packed.count = d.count := by
  induction d with
  | nil => rfl
  | other _ _ ih => exact ih
  | file _ _ _ ih => simp [Listing.packed, Listing.count, ih]
  | dir _ _ _ _ ih => simp [Listing.packed, Listing.count, ih]

lemma Listing.packed_names (d : Listing) : d.packed.names = d.names := by
  induction d with
  | nil => rfl
  | other _ _ ih => exact ih
  | file _ _ _ ih => simp [Listing.packed, Listing.names, ih]
  | dir _ _ _ _ ih => simp [Listing.packed, Listing.names, ih]

lemma Listing.packed_inodes (d : Listing) : d.packed.inodes = d.inodes := by
  induction d with
  | nil => rfl
  | other _ _ ih => exact ih
  | file _ _ _ ih => simp [Listing.packed, Listing.inodes, ih]
  | dir _ _ _ ihsub ih => simp [Listing.packed, Listing.inodes, ihsub, ih]

lemma Listing.Proper.packed {d : Listing} (h : d.Proper) : d.packed.Proper := by
  induction d with
  | nil => trivial
  | other _ _ ih => exact ih h
  | file _ _ rest ih =>
    obtain ⟨h1, h2, h3, h4⟩ := h
    exact ⟨h1, h2, by rwa [Listing.packed_names], ih h4⟩
  | dir _ _ rest ihsub ih =>
    obtain ⟨h1, h2, h3, h4, h5⟩ := h
    exact ⟨h1, h2, by rwa [Listing.packed_names], ihsub h4, ih h5⟩

lemma copyFile_take {turns : ℕ} (data : List UInt8) (l : ℕ) :
    copyFile n turns (data.take l) l i inode s = copyFile n turns data l i inode s := by
  induction turns generalizing data l i inode s with
  | zero => rfl
  | succ turns ih =>
    rw [copyFile, copyFile]
    by_cases hl : l = 0
    · rw [if_pos hl, if_pos hl]
    · rw [if_neg hl, if_neg hl]
      set size := if blockSize < l then blockSize else l with hsize
      have hle : size ≤ l := by
        rw [hsize]
        split_ifs <;> omega
      simp only [List.take_take, Nat.min_eq_left hle, List.drop_take, ih]

lemma packFile_packed (dirName name content : List UInt8) :
    packFile z dirName name (content.take (content.length % 2 ^ 32)) s =
      packFile z dirName name content s := by
  rw [packFile, packFile, length_packed, Nat.mod_mod]
  simp only [copyFile_take]

lemma walkEntries_packed {d : Listing} {dirName : List UInt8} {now : ℕ} :
    walkEntries z d.packed dirName n now inode i s = walkEntries z d dirName n now inode i s := by
  induction d generalizing s inode i n now dirName with
  | nil => rfl
  | other _ _ ih => exact ih
  | file _ _ _ ih => simp only [Listing.packed, walkEntries, packFile_packed, ih]
  | dir _ _ _ ihsub ih => simp only [Listing.packed, walkEntries, ihsub, ih]

lemma mksfs_packed (z : Leftover) (root : Listing) : mksfs z root.packed = mksfs z root := by
  simp only [mksfs, walk, walkEntries_packed]

/-- No place for an indirect block holds anything. -/
lemma Listing.clear_of_zero (hz : ∀ n, (z.inode n).indirect = 0) (d : Listing) (n : ℕ) :
    d.Clear z n := by
  induction d generalizing n with
  | nil => trivial
  | other _ _ ih => exact ih n
  | file _ _ _ ih => exact ⟨.inr (hz n), ih _⟩
  | dir _ _ _ ihsub ih => exact ⟨.inr (hz n), ihsub _, ih _⟩

lemma Listing.rootClear_of_zero (hz : ∀ n, (z.inode n).indirect = 0) (d : Listing) :
    d.RootClear z :=
  ⟨.inr (hz 0), d.clear_of_zero hz 1⟩

lemma missing_of_clear {fin : ℕ} (h : fin ≤ directNum ∨ inode.indirect = 0) (hi : i ≤ directNum)
    (hle : i ≤ fin) : missing inode i fin = indirectCost i fin := by
  simp only [missing, indirectCost]
  rcases h with h | h
  · split_ifs <;> omega
  · simp only [h, true_and]
    split_ifs <;> omega

lemma Listing.taken_packed (d : Listing) (n : ℕ) (h : d.packed.Clear z n) :
    d.taken z n = d.packed.blocks := by
  induction d generalizing n with
  | nil => rfl
  | other _ _ ih => exact ih n h
  | file _ content rest ih =>
    obtain ⟨hclear, h⟩ := h
    rw [FileClear, length_packed] at hclear
    simp only [Listing.taken, Listing.packed, Listing.blocks, length_packed, ih _ h,
      missing_of_clear hclear (Nat.zero_le directNum) (Nat.zero_le _)]
  | dir _ sub rest ihsub ih =>
    obtain ⟨hclear, hsub, h⟩ := h
    rw [Listing.packed_count] at hclear
    simp only [Listing.taken, Listing.packed, Listing.blocks, ihsub _ hsub, Listing.packed_count,
      missing_of_clear hclear (show 2 ≤ directNum by decide) (Nat.le_add_right 2 sub.count)]
    rw [ih _ (by rwa [Listing.packed_inodes] at h)]

/-! ### The paths of a run that completes -/

lemma pathFits_of_packFile {dirName name content : List UInt8}
    (h : packFile z dirName name content s = .ok (b, s')) : PathFits z dirName name := by
  rw [packFile] at h
  obtain ⟨_, hpath, _⟩ := bind_eq_ok h
  exact (entryPath_eq_ok hpath).1

lemma pathsFit_of_walkEntries {d : Listing} {dirName : List UInt8} {now last : ℕ}
    (h : walkEntries z d dirName n now inode i s = .ok (inode', last, s')) (hp : d.Proper) :
    d.PathsFit z dirName := by
  induction d generalizing s s' inode inode' i n now dirName last with
  | nil => trivial
  | other _ rest ih => exact ih h hp
  | file name content rest ih =>
    obtain ⟨hdot, hdotdot, _, hp⟩ := hp
    rw [walkEntries, if_neg (by simp [strcmp_eq_zero_iff, hdot, hdotdot])] at h
    obtain ⟨⟨b, s₁⟩, hpack, h⟩ := bind_eq_ok h
    obtain ⟨⟨inode₂, s₂⟩, _, h⟩ := bind_eq_ok h
    exact ⟨pathFits_of_packFile hpack, ih h hp⟩
  | dir name sub rest ihsub ihrest =>
    obtain ⟨hdot, hdotdot, _, hpsub, hp⟩ := hp
    rw [walkEntries, if_neg (by simp [strcmp_eq_zero_iff, hdot, hdotdot])] at h
    obtain ⟨⟨b, s₁⟩, _, h⟩ := bind_eq_ok h
    obtain ⟨path, hpath, h⟩ := bind_eq_ok h
    obtain ⟨hfits, rfl⟩ := entryPath_eq_ok hpath
    obtain ⟨⟨dinode, blocks, s₂⟩, hsub, h⟩ := bind_eq_ok h
    obtain ⟨⟨inode₃, s₃⟩, _, h⟩ := bind_eq_ok h
    exact ⟨hfits, ihsub hsub hpsub, ihrest h hp⟩

/-- The packer completes only when every path finds room. -/
lemma pathsFit_of_mksfs {root : Listing} (hp : root.Proper) (h : mksfs z root = .ok s) :
    root.PathsFit z rootdir := by
  rw [mksfs, walk] at h
  obtain ⟨⟨rootInode, s₁⟩, hwalk, _⟩ := bind_eq_ok h
  obtain ⟨⟨rootInode, last, s₁⟩, hwalk, _⟩ := bind_eq_ok hwalk
  exact pathsFit_of_walkEntries hwalk hp

lemma Listing.pathsFit_packed (d : Listing) (dirName : List UInt8) :
    d.packed.PathsFit z dirName ↔ d.PathsFit z dirName := by
  induction d generalizing dirName with
  | nil => rfl
  | other _ _ ih => exact ih dirName
  | file _ _ _ ih => exact and_congr_right fun _ => ih dirName
  | dir _ _ _ ihsub ih => exact and_congr_right fun _ => and_congr (ihsub _) (ih dirName)

/-- What lies in the image when the packer completes. -/
theorem packed_of_mksfs {root : Listing} (hclear : root.packed.RootClear z) (hp : root.Proper)
    (h : mksfs z root = .ok s) : Packed z root.packed s := by
  have hfits : root.packed.Fits := by
    have h' := h
    rw [mksfs, walk] at h'
    obtain ⟨⟨rootInode, s₁⟩, hwalk, _⟩ := bind_eq_ok h'
    obtain ⟨⟨rootInode, last, s₁⟩, hwalk, _⟩ := bind_eq_ok hwalk
    obtain ⟨⟨_, hfree⟩, _⟩ := takes_walkEntries _ hwalk hp rfl rfl
    have hstart : freeBlocks packerStart.freemap + (freemapNum + 2) = blockNum := by
      rw [← packInv_start.freenum]
      decide
    have hroot : 2 + root.count ≤ directNum ∨
        (openDir rootdir (newRootInode z) rootBlock).indirect = 0 := by
      rw [indirect_openDir, ← Listing.packed_count]
      exact hclear.1
    have hmiss := missing_of_clear hroot (show 2 ≤ directNum by decide) (Nat.le_add_right 2 _)
    rw [hmiss, root.taken_packed packerStart.declared hclear.2] at hfree
    rw [Listing.Fits, Listing.packed_count]
    omega
  obtain ⟨s', hok, hpacked⟩ := mksfs_ok hp.packed hfits
    ((Listing.pathsFit_packed root rootdir).mpr (pathsFit_of_mksfs hp h)) hclear
  rw [mksfs_packed, h] at hok
  cases hok
  exact hpacked

end

end Jokerix
