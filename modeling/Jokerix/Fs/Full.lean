import Jokerix.Fs.Lookup
import Jokerix.Fs.OneOwner

/-!
# Trees that do not fit

Where the paths find room in their blocks of `malloc`, the packer packs every tree that fits, and it
stops with its message on every other. It never stores outside of the image on the way: before a
directory or a file has too many blocks for its indirect block there is no block left.
-/

namespace Jokerix

/-- The step fails only for want of a free block. -/
def OnlyFull {α : Type} (x : Except Halt α) : Prop :=
  ∀ halt, x = .error halt → halt = getFreeBlockFailed

/-- An inode before the position `i` is filled. Its indirect block is one of the image, if there is
one, and there are at least `i` blocks in use. -/
structure Within (s : Packer) (inode : Inode) (i : ℕ) : Prop where
  superBlock : s.freemap 0 = true
  indirect : inode.indirect < blockNum
  position : i + freeBlocks s.freemap ≤ blockNum

section
variable {α β : Type} {x : Except Halt α} {f : α → Except Halt β} {s s' : Packer} {b i n block : ℕ}
  {inode inode' : Inode} {z : Leftover}

lemma onlyFull_ok (a : α) : OnlyFull (.ok a) := fun _ h => by cases h

lemma OnlyFull.bind (hx : OnlyFull x) (hf : ∀ a, x = .ok a → OnlyFull (f a)) :
    OnlyFull (x >>= f) := by
  cases x with
  | error halt =>
    intro halt' h
    cases h
    exact hx halt rfl
  | ok a => exact hf a rfl

/-! ### Blocks -/

lemma onlyFull_getFreeBlock (use : Use) : OnlyFull (getFreeBlock s use) := by
  intro halt h
  rw [getFreeBlock] at h
  split at h <;> cases h
  rfl

lemma getFreeBlock_lt {use : Use} (h : getFreeBlock s use = .ok (b, s')) : b < blockNum := by
  rw [getFreeBlock] at h
  split at h
  · cases h
  case h_2 c hfind =>
    cases h
    exact List.mem_range.mp (List.mem_of_find?_eq_some hfind)

lemma setIndirect_within {indirect : ℕ} (hindirect : indirect < blockNum) (hi : i + 1 ≤ blockNum) :
    setIndirect s n indirect (i - directNum) block =
      .ok (s.setEntry n indirect (i - directNum) block) := by
  rw [setIndirect, if_pos]
  simp only [blockNum, blockSize, directNum, imageSize] at *
  omega

lemma Within.setImage (h : Within s inode i) (image : Bytes.Memory) :
    Within { s with image } inode i := ⟨h.superBlock, h.indirect, h.position⟩

/-- Entering a block fails only when the image is full. -/
lemma Within.setBlock (h : Within s inode (i + 1)) : OnlyFull (setBlock s n inode i block) ∧
    ∀ inode' s', Jokerix.setBlock s n inode i block = .ok (inode', s') →
      Within s' inode' (i + 1) := by
  obtain ⟨h0, hindirect, hposition⟩ := h
  have hi : i + 1 ≤ blockNum := le_trans (Nat.le_add_right _ _) hposition
  rw [Jokerix.setBlock]
  split_ifs with h1 h2
  · refine ⟨onlyFull_ok _, fun inode' s' hok => ?_⟩
    cases hok
    exact ⟨h0, hindirect, hposition⟩
  · cases hget : getFreeBlock s (.indirect n) with
    | error halt =>
      refine ⟨fun halt' h => ?_, fun _ _ h => by cases h⟩
      cases h
      exact onlyFull_getFreeBlock _ _ hget
    | ok found =>
      obtain ⟨c, s₁⟩ := found
      have hc := getFreeBlock_lt hget
      obtain ⟨⟨h0', hfree⟩, _⟩ := takes_getFreeBlock hget h0
      rw [bind_ok rfl]
      simp only
      rw [setIndirect_within hc hi, bind_ok rfl]
      refine ⟨onlyFull_ok _, fun inode' s' hok => ?_⟩
      cases hok
      exact ⟨h0', hc, by simp only [Packer.setEntry]; omega⟩
  · rw [setIndirect_within hindirect hi, bind_ok rfl]
    refine ⟨onlyFull_ok _, fun inode' s' hok => ?_⟩
    cases hok
    exact ⟨h0, hindirect, hposition⟩

/-! ### Files and directories -/

lemma Within.copyFile {turns l : ℕ} {data : List UInt8} (h : Within s inode i) :
    OnlyFull (copyFile n turns data l i inode s) := by
  induction turns generalizing data l i inode s with
  | zero => exact onlyFull_ok _
  | succ turns ih =>
    rw [Jokerix.copyFile]
    by_cases hl : l = 0
    · rw [if_pos hl]
      exact onlyFull_ok _
    · rw [if_neg hl]
      refine (onlyFull_getFreeBlock _).bind ?_
      rintro ⟨c, s₁⟩ hget
      obtain ⟨⟨h1, hfree⟩, _⟩ := takes_getFreeBlock hget h.superBlock
      have hposition := h.position
      have hwithin : Within s₁ inode (i + 1) := ⟨h1, h.indirect, by omega⟩
      obtain ⟨hset, hnext⟩ := (hwithin.setImage _).setBlock
      refine hset.bind ?_
      rintro ⟨inode₂, s₂⟩ hok
      exact ih (hnext _ _ hok)

lemma onlyFull_packFile {dirName name content : List UInt8} (hz : ∀ n, (z.inode n).indirect = 0)
    (hpath : PathFits z dirName name) (h0 : s.freemap 0 = true) :
    OnlyFull (packFile z dirName name content s) := by
  rw [packFile, entryPath_ok hpath, bind_ok rfl]
  refine (onlyFull_getFreeBlock _).bind ?_
  rintro ⟨c, s₁⟩ hget
  obtain ⟨⟨h1, _⟩, _⟩ := takes_getFreeBlock hget h0
  refine OnlyFull.bind (Within.copyFile ⟨h1, ?_, ?_⟩) fun _ _ => onlyFull_ok _
  · simp only [hz]
    decide
  · rw [Nat.zero_add]
    exact freeBlocks_le _

lemma Within.walkEntries {d : Listing} {dirName : List UInt8} {now : ℕ}
    (hz : ∀ n, (z.inode n).indirect = 0) (hp : d.Proper) (hpaths : d.PathsFit z dirName)
    (hi : 2 ≤ i) (h : Within s inode i) : OnlyFull (walkEntries z d dirName n now inode i s) := by
  induction d generalizing s inode i n now dirName with
  | nil => exact onlyFull_ok _
  | other _ rest ih => exact ih hp hpaths hi h
  | file name content rest ih =>
    obtain ⟨hdot, hdotdot, _, hp⟩ := hp
    have hposition := h.position
    rw [Jokerix.walkEntries, if_neg (by simp [strcmp_eq_zero_iff, hdot, hdotdot])]
    obtain ⟨hpath, hpaths⟩ := hpaths
    refine (onlyFull_packFile hz hpath h.superBlock).bind ?_
    rintro ⟨b, s₁⟩ hpack
    obtain ⟨⟨h1, hfree⟩, _⟩ := takes_packFile hpack h.superBlock
    have hwithin : Within s₁ inode (i + 1) := ⟨h1, h.indirect, by omega⟩
    obtain ⟨hset, hnext⟩ := hwithin.setBlock
    refine hset.bind ?_
    rintro ⟨inode₂, s₂⟩ hok
    exact ih hp hpaths (by omega) (hnext _ _ hok)
  | dir name sub rest ihsub ihrest =>
    obtain ⟨hdot, hdotdot, _, hpsub, hp⟩ := hp
    have hposition := h.position
    rw [Jokerix.walkEntries, if_neg (by simp [strcmp_eq_zero_iff, hdot, hdotdot])]
    refine (onlyFull_getFreeBlock _).bind ?_
    rintro ⟨b, s₁⟩ hget
    obtain ⟨⟨h1, hfree₁⟩, _⟩ := takes_getFreeBlock hget h.superBlock
    have hfree₁ : freeBlocks s.freemap = freeBlocks s₁.freemap + 1 := hfree₁
    obtain ⟨hpath, hpathsSub, hpaths⟩ := hpaths
    rw [entryPath_ok hpath]
    refine OnlyFull.bind (onlyFull_ok _) fun path hok => ?_
    obtain rfl := Except.ok.inj hok
    refine OnlyFull.bind (ihsub hpsub hpathsSub le_rfl ⟨h1, ?_, by omega⟩) ?_
    · rw [indirect_openDir]
      simp only [newDirInode, hz]
      decide
    rintro ⟨dinode, blocks, s₂⟩ hsub
    obtain ⟨⟨h2, hfree₂⟩, _⟩ := takes_walkEntries _ hsub hpsub rfl h1
    have hwithin : Within s₂ inode (i + 1) := ⟨h2, h.indirect, by omega⟩
    obtain ⟨hset, hnext⟩ := (hwithin.setImage _).setBlock
    refine hset.bind ?_
    rintro ⟨inode₃, s₃⟩ hok
    exact ihrest hp hpaths (by omega) (hnext _ _ hok)

end

end Jokerix
