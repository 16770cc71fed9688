import Jokerix.Fs.Writer
import Mathlib.Data.Finset.Card
import Mathlib.Data.Finset.Range

/-!
# The blocks of the packer

`PackInv` is the invariant of the packer's free map: a block is marked exactly when it has a use,
and it has one use only. The rules for `getFreeBlock` and `setBlock` say what they keep.
-/

namespace Jokerix

/-! ### Blocks and their bytes -/

/-- A block has the same bytes. -/
def SameBlock (mem mem' : Bytes.Memory) (b : ℕ) : Prop :=
  ∀ x, b * blockSize ≤ x → x < b * blockSize + blockSize → mem' x = mem x

/-- The block at a position of an inode. -/
def entryBlock (mem : Bytes.Memory) (n : Inode) (i : ℕ) : ℕ :=
  if i < directNum then n.direct i
  else Bytes.loadLE 4 mem (n.indirect * blockSize + 4 * (i - directNum))

section
variable {mem mem' mem'' : Bytes.Memory} {b c i : ℕ} {n n' : Inode}

lemma SameBlock.refl (mem : Bytes.Memory) (b : ℕ) : SameBlock mem mem b := fun _ _ _ => rfl

lemma SameBlock.trans (h : SameBlock mem mem' b) (h' : SameBlock mem' mem'' b) :
    SameBlock mem mem'' b := fun x h1 h2 => (h' x h1 h2).trans (h x h1 h2)

/-- Changing one block leaves the others alone. -/
lemma SameBlock.of_ne (hc : ∀ x, x < c * blockSize ∨ c * blockSize + blockSize ≤ x → mem' x = mem x)
    (h : b ≠ c) : SameBlock mem mem' b := by
  intro x h1 h2
  apply hc
  simp only [blockSize] at *
  omega

lemma SameBlock.readInode (h : SameBlock mem mem' b) :
    (readInode mem' (b * blockSize)).Agrees (readInode mem (b * blockSize)) := by
  apply readInode_congr
  intro y h1 h2
  have hle : sizeofInode ≤ blockSize := by decide
  exact h y h1 (by omega)

/-- The positions of an indirect block. -/
def indirectNum : ℕ := 1024

lemma entryBlock_congr (hd : i < directNum → n.direct i = n'.direct i)
    (hi : directNum ≤ i → n.indirect = n'.indirect)
    (hb : directNum ≤ i → i < directNum + indirectNum → SameBlock mem mem' n'.indirect)
    (hlt : i < directNum + indirectNum) : entryBlock mem' n i = entryBlock mem n' i := by
  rw [entryBlock, entryBlock]
  split_ifs with h
  · exact hd h
  · rw [hi (by omega)]
    apply Bytes.loadLE_congr
    intro x h1 h2
    apply hb (by omega) hlt x (by omega)
    simp only [blockSize, directNum, indirectNum] at *
    omega

end

/-! ### Uses -/

/-- The number of the inode that a block belongs to. -/
def Use.owner : Use → Option ℕ
  | .superBlock => none
  | .freemap => none
  | .inode n => some n
  | .data n _ => some n
  | .indirect n => some n

/-- Every block that is used has one use. -/
def OneUse (uses : List (ℕ × Use)) : Prop :=
  ∀ b r r', (b, r) ∈ uses → (b, r') ∈ uses → r = r'

/-- The number of blocks that are free. -/
def freeBlocks (freemap : ℕ → Bool) : ℕ :=
  ((Finset.range blockNum).filter fun b => freemap b = false).card

/-- The invariant of the packer. -/
structure PackInv (s : Packer) : Prop where
  superBlock : (0, .superBlock) ∈ s.uses
  freemapBlock : (1, .freemap) ∈ s.uses
  root : (rootBlock, .inode 0) ∈ s.uses
  bound : ∀ b, s.freemap b = true → b < blockNum
  used : ∀ b, s.freemap b = true ↔ ∃ r, (b, r) ∈ s.uses
  oneUse : OneUse s.uses
  freenum : s.freenum = freeBlocks s.freemap
  owner : ∀ b r n, (b, r) ∈ s.uses → r.owner = some n → n < s.declared

/-- What stays while the inode `m` is filled: all uses, and all blocks but its indirect block. -/
structure Grows (m : ℕ) (s s' : Packer) : Prop where
  uses : s.uses ⊆ s'.uses
  declared : s.declared ≤ s'.declared
  block : ∀ b r, (b, r) ∈ s.uses → r ≠ .indirect m → SameBlock s.image s'.image b

section
variable {m n b i fin block : ℕ} {s s' s'' : Packer} {inode : Inode} {use : Use}

lemma Grows.refl (m : ℕ) (s : Packer) : Grows m s s :=
  ⟨List.Subset.refl _, le_rfl, fun b _ _ _ => SameBlock.refl _ b⟩

lemma Grows.trans (h : Grows m s s') (h' : Grows m s' s'') : Grows m s s'' :=
  ⟨List.Subset.trans h.uses h'.uses, h.declared.trans h'.declared, fun b r hb hr =>
    (h.block b r hb hr).trans (h'.block b r (h.uses hb) hr)⟩

/-- Filling an inode that is new leaves all blocks alone. -/
lemma Grows.of_new (hi : PackInv s) (h : Grows n s s') (hn : s.declared ≤ n) : Grows m s s' := by
  refine ⟨h.uses, h.declared, fun b r hb _ => h.block b r hb ?_⟩
  rintro rfl
  exact absurd (hi.owner b _ n hb rfl) (by omega)

lemma freeBlocks_update {freemap : ℕ → Bool} (hb : b < blockNum) (hfree : freemap b = false) :
    freeBlocks (Function.update freemap b true) + 1 = freeBlocks freemap := by
  have hmem : b ∈ (Finset.range blockNum).filter fun b => freemap b = false := by
    simp [hb, hfree]
  rw [freeBlocks, freeBlocks, ← Finset.card_erase_add_one hmem]
  congr 2
  ext x
  by_cases hx : x = b <;> simp [hx, Function.update_apply]

lemma freeBlocks_le (freemap : ℕ → Bool) : freeBlocks freemap ≤ blockNum :=
  (Finset.card_filter_le _ _).trans (by simp)

/-- What `getFreeBlock` does when a block is free. -/
lemma PackInv.getFreeBlock_ok (hi : PackInv s) (use : Use)
    (howner : ∀ n, use.owner = some n → n < s.declared) (hfree : 0 < s.freenum) :
    ∃ b, b < blockNum ∧ s.freemap b = false ∧ (∀ r, (b, r) ∉ s.uses) ∧ ∃ s',
      getFreeBlock s use = .ok (b, s') ∧ PackInv s' ∧ s'.image = s.image ∧
      s'.declared = s.declared ∧ s'.uses = s.uses ++ [(b, use)] ∧ s'.freenum + 1 = s.freenum := by
  rw [hi.freenum, freeBlocks, Finset.card_pos] at hfree
  obtain ⟨c, hc⟩ := hfree
  simp only [Finset.mem_filter, Finset.mem_range] at hc
  cases hfind : (List.range blockNum).find? fun i => !s.freemap i with
  | none =>
    have := List.find?_eq_none.mp hfind c (List.mem_range.mpr hc.1)
    simp [hc.2] at this
  | some b =>
    have hb : b < blockNum := List.mem_range.mp (List.mem_of_find?_eq_some hfind)
    have hfree : s.freemap b = false := by simpa using List.find?_some hfind
    have hnot : ∀ r, (b, r) ∉ s.uses := by
      intro r hr
      rw [(hi.used b).mpr ⟨r, hr⟩] at hfree
      cases hfree
    have hcount := freeBlocks_update hb hfree
    have hle := freeBlocks_le s.freemap
    have hnum : (s.freenum + 2 ^ 32 - 1) % 2 ^ 32 =
        freeBlocks (Function.update s.freemap b true) := by
      rw [hi.freenum]
      simp only [blockNum] at hle
      omega
    have hsub := List.subset_append_left s.uses [(b, use)]
    refine ⟨b, hb, hfree, hnot, s.mark b use, by rw [getFreeBlock, hfind],
      ⟨hsub hi.superBlock, hsub hi.freemapBlock, hsub hi.root, ?_, ?_, ?_, hnum, ?_⟩, rfl, rfl, rfl,
      ?_⟩
    · intro x hx
      by_cases hxb : x = b
      · rwa [hxb]
      · exact hi.bound x (by simpa [Packer.mark, Function.update_apply, hxb] using hx)
    · intro x
      by_cases hxb : x = b
      · simp [Packer.mark, hxb]
      · simp [Packer.mark, hxb, hi.used]
    · intro x r r' hr hr'
      simp only [Packer.mark, List.mem_append, List.mem_singleton, Prod.mk.injEq] at hr hr'
      rcases hr with hr | ⟨rfl, rfl⟩ <;> rcases hr' with hr' | ⟨hx, rfl⟩
      · exact hi.oneUse x r r' hr hr'
      · exact absurd (hx ▸ hr) (hnot r)
      · exact absurd hr' (hnot r')
      · rfl
    · intro x r k hr hk
      simp only [Packer.mark, List.mem_append, List.mem_singleton, Prod.mk.injEq] at hr
      rcases hr with hr | ⟨rfl, rfl⟩
      · exact hi.owner x r k hr hk
      · exact howner k hk
    · change (s.freenum + 2 ^ 32 - 1) % 2 ^ 32 + 1 = s.freenum
      rw [hnum, hcount, hi.freenum]

/-- Writing to the indirect block of an inode. -/
lemma PackInv.setIndirect_ok (hi : PackInv s) {c : ℕ} (hc : (c, .indirect n) ∈ s.uses)
    (hk : i < indirectNum) (block : ℕ) : ∃ s', setIndirect s n c i block = .ok s' ∧ PackInv s' ∧
      Grows n s s' ∧ s'.freenum = s.freenum ∧ s'.declared = s.declared ∧
      (∀ b r, (b, r) ∈ s'.uses ↔ (b, r) ∈ s.uses) ∧
      s'.image = Bytes.storeLE 4 s.image (c * blockSize + 4 * i) block := by
  have hlt := hi.bound c ((hi.used c).mpr ⟨_, hc⟩)
  have hmem : ∀ b r, (b, r) ∈ s.uses ++ [(c, Use.indirect n)] ↔ (b, r) ∈ s.uses := by
    intro b r
    rw [List.mem_append, List.mem_singleton]
    exact or_iff_left_of_imp fun h => h ▸ hc
  have hin : c * blockSize + 4 * i + 4 ≤ imageSize := by
    simp only [blockNum, imageSize, blockSize, indirectNum] at *
    omega
  have hsub := List.subset_append_left s.uses [(c, Use.indirect n)]
  refine ⟨s.setEntry n c i block, if_pos hin,
    ⟨hsub hi.superBlock, hsub hi.freemapBlock, hsub hi.root, hi.bound, ?_, ?_, hi.freenum, ?_⟩,
    ⟨hsub, le_rfl, ?_⟩, rfl, rfl, hmem, rfl⟩
  · simpa only [Packer.setEntry, hmem] using hi.used
  · simpa only [Packer.setEntry, OneUse, hmem] using hi.oneUse
  · simpa only [Packer.setEntry, hmem] using hi.owner
  · intro b r hb hr
    have hne : b ≠ c := by
      rintro rfl
      exact hr (hi.oneUse b _ _ hb hc)
    have hle : 4 * indirectNum = blockSize := rfl
    exact SameBlock.of_ne (fun x hx => Bytes.storeLE_of_not_mem (by omega)) hne

/-- The indirect block of an inode with `i` blocks so far and `fin` in the end: it is not needed, it
is still to come, or it is there. -/
def IndirectReady (s : Packer) (n : ℕ) (inode : Inode) (i fin : ℕ) : Prop :=
  fin ≤ directNum ∨ i ≤ directNum ∧ inode.indirect = 0 ∨
    directNum < i ∧ inode.indirect ≠ 0 ∧ (inode.indirect, .indirect n) ∈ s.uses

/-- The inode has the same fields apart from the places of blocks. -/
structure SameHead (inode inode' : Inode) : Prop where
  size : inode'.size = inode.size
  type : inode'.type = inode.type
  filename : inode'.filename = inode.filename
  blocks : inode'.blocks = inode.blocks

lemma SameHead.refl (inode : Inode) : SameHead inode inode := ⟨rfl, rfl, rfl, rfl⟩

lemma SameHead.trans {n n' n'' : Inode} (h : SameHead n n') (h' : SameHead n' n'') :
    SameHead n n'' :=
  ⟨h'.size.trans h.size, h'.type.trans h.type, h'.filename.trans h.filename,
    h'.blocks.trans h.blocks⟩

/-- The blocks that an inode needs for itself when it goes from `i` to `fin` blocks. -/
def indirectCost (i fin : ℕ) : ℕ := if i ≤ directNum ∧ directNum < fin then 1 else 0

/-- What `setBlock` does when there is room. -/
structure BlockSet (s : Packer) (n : ℕ) (inode : Inode) (i block : ℕ) (inode' : Inode)
    (s' : Packer) : Prop where
  inv : PackInv s'
  grows : Grows n s s'
  declared : s'.declared = s.declared
  head : SameHead inode inode'
  indirect : i < directNum → inode'.indirect = inode.indirect
  entry : entryBlock s'.image inode' i = block
  entries : ∀ j < i, entryBlock s'.image inode' j = entryBlock s.image inode j
  owner : ∀ b r, (b, r) ∈ s'.uses → (b, r) ∈ s.uses ∨ r = .indirect n

lemma PackInv.setBlock_ok (hi : PackInv s) (hready : IndirectReady s n inode i fin) (hfin : i < fin)
    (hn : n < s.declared) (hblock : block < 2 ^ 32) (hmax : i < directNum + indirectNum)
    (hroom : (if i = directNum then 1 else 0) ≤ s.freenum) :
    ∃ inode' s', setBlock s n inode i block = .ok (inode', s') ∧
      BlockSet s n inode i block inode' s' ∧ IndirectReady s' n inode' (i + 1) fin ∧
      s'.freenum + (if i = directNum then 1 else 0) = s.freenum := by
  have hread : ∀ mem a, Bytes.loadLE 4 (Bytes.storeLE 4 mem a block) a = block := by
    intro mem a
    rw [Bytes.loadLE_storeLE_same, show (256 : ℕ) ^ 4 = 2 ^ 32 by norm_num,
      Nat.mod_eq_of_lt hblock]
  rw [setBlock]
  by_cases h1 : i < directNum
  · rw [if_pos h1, if_neg (by omega)]
    refine ⟨_, s, rfl, ⟨hi, Grows.refl n s, rfl, ⟨rfl, rfl, rfl, rfl⟩, fun _ => rfl, ?_, ?_,
      fun b r h => .inl h⟩, ?_, rfl⟩
    · rw [entryBlock, if_pos h1]
      exact Function.update_self _ _ _
    · intro j hj
      rw [entryBlock, entryBlock, if_pos (by omega), if_pos (by omega)]
      exact Function.update_of_ne (by omega) _ _
    · rcases hready with h | ⟨_, h⟩ | ⟨h, _⟩
      · exact .inl h
      · exact .inr (.inl ⟨h1, h⟩)
      · omega
  have hk : i - directNum < indirectNum := by omega
  rw [if_neg h1]
  rcases hready with h | ⟨hle, hzero⟩ | ⟨hlt, hne, huse⟩
  · omega
  · -- the indirect block is allocated
    obtain rfl : i = directNum := by omega
    rw [if_pos rfl] at hroom ⊢
    obtain ⟨c, hc, hfree, hnot, s₁, hget, hi₁, himage, hdecl, huses, hnum⟩ :=
      hi.getFreeBlock_ok (.indirect n) (by rintro k h; cases h; exact hn) (by omega)
    have hcu : (c, Use.indirect n) ∈ s₁.uses := by simp [huses]
    obtain ⟨s₂, hset, hi₂, hgrows, hnum₂, hdecl₂, hmem, himage₂⟩ :=
      hi₁.setIndirect_ok hcu hk block
    have hgrows₁ : Grows n s s₁ := ⟨by simp [huses], hdecl.ge, fun b _ _ _ => by
      rw [himage]; exact SameBlock.refl _ b⟩
    have hc0 : c ≠ 0 := by
      rintro rfl
      exact hnot _ hi.superBlock
    rw [if_pos hzero, bind_ok hget]
    refine ⟨_, s₂, bind_ok hset, ⟨hi₂, hgrows₁.trans hgrows, hdecl₂.trans hdecl,
      ⟨rfl, rfl, rfl, rfl⟩, fun h => absurd h h1, ?_, ?_, ?_⟩, ?_, by omega⟩
    · rw [entryBlock, if_neg h1, himage₂, hread]
    · intro j hj
      rw [entryBlock, entryBlock, if_pos hj, if_pos hj]
    · intro b r h
      rw [hmem, huses, List.mem_append, List.mem_singleton, Prod.mk.injEq] at h
      exact h.imp_right And.right
    · exact .inr (.inr ⟨by omega, hc0, (hmem _ _).mpr hcu⟩)
  · obtain ⟨s₁, hset, hi₁, hgrows, hnum, hdecl, hmem, himage⟩ := hi.setIndirect_ok huse hk block
    rw [if_neg hne, if_neg (by omega)]
    refine ⟨_, s₁, bind_ok hset, ⟨hi₁, hgrows, hdecl, SameHead.refl _, fun h => absurd h h1, ?_, ?_,
      fun b r h => .inl ((hmem b r).mp h)⟩, ?_, by omega⟩
    · rw [entryBlock, if_neg h1, himage, hread]
    · intro j hj
      rw [entryBlock, entryBlock]
      split_ifs
      · rfl
      · rw [himage, Bytes.loadLE_storeLE_of_disjoint (by omega)]
    · exact .inr (.inr ⟨by omega, hne, (hmem _ _).mpr huse⟩)

end

end Jokerix
