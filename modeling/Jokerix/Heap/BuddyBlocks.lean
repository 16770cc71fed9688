import Jokerix.Heap.BuddyOps
import Mathlib.Order.Bounds.Basic
import Mathlib.Order.Interval.Set.Disjoint

/-!
# Blocks of the buddy tree

A node of the tree stands for an aligned run of blocks. The file says what the entries of the tree
mean in terms of blocks: an entry that is not below a live node is the greatest size of a wholly
free aligned run under its node, and a block is occupied when a node on its way to the root holds
zero.
-/

namespace Jokerix

open TreeArray

/-! ### Nodes and runs of blocks -/

/-- The run of a node: the offset of its first block and the number of its blocks. -/
def nodeBlock (d p : ℕ) : ℕ × ℕ := (p * 2 ^ height d p - 2 ^ d, 2 ^ height d p)

/-- The node of an aligned run. -/
def blockNode (d : ℕ) (b : ℕ × ℕ) : ℕ := (b.1 + 2 ^ d) / b.2

/-- The blocks of the run with a given offset and size. -/
def blockSet (b : ℕ × ℕ) : Set ℕ := Set.Ico b.1 (b.1 + b.2)

section
variable {d p q b : ℕ}

lemma blockNode_nodeBlock (hp : IsNode d p) : blockNode d (nodeBlock d p) = p := by
  have hlow := hp.bounds.1
  simp only [blockNode, nodeBlock]
  rw [Nat.sub_add_cancel hlow, Nat.mul_div_cancel _ (Nat.two_pow_pos _)]

lemma mem_blockSet (hp : IsNode d p) : b ∈ blockSet (nodeBlock d p) ↔ b + 2 ^ d ∈ leaves d p := by
  have hlow := hp.bounds.1
  have hsucc : (p + 1) * 2 ^ height d p = p * 2 ^ height d p + 2 ^ height d p := by ring
  simp only [blockSet, nodeBlock, leaves, Set.mem_Ico, hsucc]
  omega

/-- The run of a node is aligned and lies inside the managed blocks. -/
lemma nodeBlock_aligned (hp : IsNode d p) :
    (nodeBlock d p).2 ∣ (nodeBlock d p).1 ∧ (nodeBlock d p).1 + (nodeBlock d p).2 ≤ 2 ^ d := by
  obtain ⟨hlow, hhigh⟩ := hp.bounds
  have hsucc : (p + 1) * 2 ^ height d p = p * 2 ^ height d p + 2 ^ height d p := by ring
  have hpow : 2 ^ (d + 1) = 2 * 2 ^ d := pow_succ' 2 d
  simp only [nodeBlock]
  refine ⟨Nat.dvd_sub (Nat.dvd_mul_left _ _) (Nat.pow_dvd_pow 2 (Nat.sub_le _ _)), by omega⟩

/-- Every aligned run inside the managed blocks is the run of a node. -/
lemma exists_nodeBlock {j o : ℕ} (hdvd : 2 ^ j ∣ o) (hfit : o + 2 ^ j ≤ 2 ^ d) :
    ∃ q, IsNode d q ∧ height d q = j ∧ nodeBlock d q = (o, 2 ^ j) := by
  have hpow : 2 ^ (d + 1) = 2 * 2 ^ d := pow_succ' 2 d
  have hjd : j ≤ d := (Nat.pow_le_pow_iff_right (by omega : 1 < 2)).mp (by omega)
  have hdvd' : 2 ^ j ∣ o + 2 ^ d := Nat.dvd_add hdvd (Nat.pow_dvd_pow 2 hjd)
  obtain ⟨hq, hh⟩ := exists_node_of_aligned (d := d) hdvd' (by omega) (by omega)
  refine ⟨_, hq, hh, ?_⟩
  simp only [nodeBlock, hh]
  rw [Nat.div_mul_cancel hdvd', Nat.add_sub_cancel]

/-- A run contains another one exactly when its node is an ancestor of the other's. -/
lemma blockSet_subset_iff (hp : IsNode d p) (hq : IsNode d q) :
    blockSet (nodeBlock d q) ⊆ blockSet (nodeBlock d p) ↔ Above p q := by
  rw [← leaves_subset_iff hp hq]
  constructor
  · intro hsub r hr
    have hlow := (hq.leaf_bounds hr).1
    obtain ⟨b, rfl⟩ : ∃ b, r = b + 2 ^ d := ⟨r - 2 ^ d, by omega⟩
    exact (mem_blockSet hp).mp (hsub ((mem_blockSet hq).mpr hr))
  · intro hsub b hb
    exact (mem_blockSet hp).mpr (hsub ((mem_blockSet hq).mp hb))

/-- Runs are disjoint exactly when neither node is an ancestor of the other. -/
lemma blockSet_disjoint_iff (hp : IsNode d p) (hq : IsNode d q) :
    Disjoint (blockSet (nodeBlock d p)) (blockSet (nodeBlock d q)) ↔
      ¬ Above p q ∧ ¬ Above q p := by
  rw [← leaves_disjoint_iff hp hq, Set.disjoint_left, Set.disjoint_left]
  constructor
  · intro hdis r hrp hrq
    have hlow := (hq.leaf_bounds hrq).1
    obtain ⟨b, rfl⟩ : ∃ b, r = b + 2 ^ d := ⟨r - 2 ^ d, by omega⟩
    exact hdis ((mem_blockSet hp).mpr hrp) ((mem_blockSet hq).mpr hrq)
  · intro hdis b hbp hbq
    exact hdis ((mem_blockSet hp).mp hbp) ((mem_blockSet hq).mp hbq)

end

/-- Of incomparable nodes one has its run before that of the other. -/
lemma nodeBlock_separate {d p q : ℕ} (hp : IsNode d p) (hq : IsNode d q) (hpq : ¬ Above p q)
    (hqp : ¬ Above q p) :
    (nodeBlock d p).1 + (nodeBlock d p).2 ≤ (nodeBlock d q).1 ∨
      (nodeBlock d q).1 + (nodeBlock d q).2 ≤ (nodeBlock d p).1 := by
  have hdis := (blockSet_disjoint_iff hp hq).mpr ⟨hpq, hqp⟩
  have hp' : 0 < (nodeBlock d p).2 := Nat.two_pow_pos _
  have hq' : 0 < (nodeBlock d q).2 := Nat.two_pow_pos _
  rw [blockSet, blockSet, Set.Ico_disjoint_Ico] at hdis
  omega

/-! ### What the entries mean -/

section
variable {d : ℕ} {live : Finset ℕ} {p : ℕ}

/-- No block of the node is live, and it is not part of a live node. -/
def FreeNode (live : Finset ℕ) (q : ℕ) : Prop := ∀ a ∈ live, ¬ Above a q ∧ ¬ Above q a

/-- The sizes of the wholly free nodes of a subtree, and `0`. -/
def freeSizes (d : ℕ) (live : Finset ℕ) (p : ℕ) : Set ℕ :=
  {r | r = 0 ∨ ∃ q, IsNode d q ∧ Above p q ∧ FreeNode live q ∧ r = 2 ^ height d q}

lemma freeSizes_of_mem (hp : p ∈ live) : freeSizes d live p = {0} := by
  ext r
  simp only [freeSizes, Set.mem_ofPred_eq, Set.mem_singleton_iff]
  constructor
  · rintro (h | ⟨q, _, hab, hfree, _⟩)
    · exact h
    · exact absurd hab (hfree p hp).1
  · exact Or.inl

/-- The free nodes under an inner node are the node itself and those under its children. -/
lemma mem_freeSizes_succ {h r : ℕ} (hp : IsNode d p) (hh : height d p = h + 1) :
    r ∈ freeSizes d live p ↔ (FreeNode live p ∧ r = 2 ^ (h + 1)) ∨
      r ∈ freeSizes d live (2 * p) ∨ r ∈ freeSizes d live (2 * p + 1) := by
  obtain ⟨hln, hlh⟩ := hp.left hh
  obtain ⟨hrn, hrh⟩ := hp.right hh
  simp only [freeSizes, Set.mem_ofPred_eq]
  constructor
  · rintro (h0 | ⟨q, hq, hab, hfree, hr⟩)
    · exact .inr (.inl (.inl h0))
    · have hu := hq.under hp hab
      rw [hh] at hu
      rcases (under_succ h p q).mp hu with rfl | hu | hu
      · exact .inl ⟨hfree, by rw [hr, hh]⟩
      · exact .inr (.inl (.inr ⟨q, hq, hu.above, hfree, hr⟩))
      · exact .inr (.inr (.inr ⟨q, hq, hu.above, hfree, hr⟩))
  · have hl : Above p (2 * p) := ((strictlyAbove_left p p).mpr (Above.refl p)).above
    have hr' : Above p (2 * p + 1) := ((strictlyAbove_right p p).mpr (Above.refl p)).above
    rintro (⟨hfree, hr⟩ | (h0 | ⟨q, hq, hab, hfree, hr⟩) | h0 | ⟨q, hq, hab, hfree, hr⟩)
    · exact .inr ⟨p, hp, Above.refl p, hfree, by rw [hr, hh]⟩
    · exact .inl h0
    · exact .inr ⟨q, hq, hl.trans hab, hfree, hr⟩
    · exact .inl h0
    · exact .inr ⟨q, hq, hr'.trans hab, hfree, hr⟩

/-- The entry of a node that is not below a live one is the greatest size of a wholly free node
under it. -/
theorem LiveSet.nodeRun_isGreatest (hl : LiveSet d live) (hp : IsNode d p)
    (hnb : ¬ ∃ a ∈ live, StrictlyAbove a p) :
    IsGreatest (freeSizes d live p) (nodeRun d live p) := by
  induction hh : height d p generalizing p with
  | zero =>
    by_cases hmem : p ∈ live
    · rw [freeSizes_of_mem hmem, hl.nodeRun_of_mem hmem]
      exact isGreatest_singleton
    · have hno : ∀ a ∈ live, ¬ Above p a := by
        intro a ha hab
        have hu := (hl.node a ha).under hp hab
        rw [hh, under_zero] at hu
        exact hmem (hu ▸ ha)
      have hfree : FreeNode live p := by
        refine fun a ha => ⟨fun hab => ?_, hno a ha⟩
        rcases (above_iff_eq_or a p).mp hab with rfl | hs
        · exact hmem ha
        · exact hnb ⟨a, ha, hs⟩
      rw [nodeRun_full hno]
      refine ⟨.inr ⟨p, hp, Above.refl p, hfree, rfl⟩, ?_⟩
      rintro r (rfl | ⟨q, hq, hab, _, rfl⟩)
      · exact Nat.zero_le _
      · have hu := hq.under hp hab
        rw [hh, under_zero] at hu
        rw [hu]
  | succ h ih =>
    by_cases hmem : p ∈ live
    · rw [freeSizes_of_mem hmem, hl.nodeRun_of_mem hmem]
      exact isGreatest_singleton
    · have hun : Uncovered live p := by
        intro a ha hab
        rcases (above_iff_eq_or a p).mp hab with rfl | hs
        · exact hmem ha
        · exact hnb ⟨a, ha, hs⟩
      obtain ⟨hln, hlh⟩ := hp.left hh
      obtain ⟨hrn, hrh⟩ := hp.right hh
      have hnl : ¬ ∃ a ∈ live, StrictlyAbove a (2 * p) := fun ⟨a, ha, hab⟩ =>
        hun a ha ((strictlyAbove_left a p).mp hab)
      have hnr : ¬ ∃ a ∈ live, StrictlyAbove a (2 * p + 1) := fun ⟨a, ha, hab⟩ =>
        hun a ha ((strictlyAbove_right a p).mp hab)
      have hgl := ih hln hnl hlh
      have hgr := ih hrn hnr hrh
      have hll := nodeRun_le d live (2 * p)
      have hrl := nodeRun_le d live (2 * p + 1)
      have hpow : 2 ^ (h + 1) = 2 * 2 ^ h := pow_succ' 2 h
      rw [hlh] at hll
      rw [hrh] at hrl
      -- the node is wholly free exactly when both halves are
      have hpar := nodeRun_parent hp hh hun
      by_cases hfull : nodeRun d live p = 2 ^ (h + 1)
      · have hno := not_above_of_full hl hp hun (by rw [hfull, hh])
        refine ⟨?_, ?_⟩
        · rw [hfull, mem_freeSizes_succ hp hh]
          exact .inl ⟨fun a ha => ⟨hun a ha, hno a ha⟩, rfl⟩
        · intro r hr
          rw [hfull]
          rcases (mem_freeSizes_succ hp hh).mp hr with ⟨_, rfl⟩ | hr | hr
          · exact le_refl _
          · have := hgl.2 hr
            omega
          · have := hgr.2 hr
            omega
      · have hmax : nodeRun d live p = max (nodeRun d live (2 * p))
          (nodeRun d live (2 * p + 1)) := by
          rw [hpar, combine]
          rw [hpar, combine] at hfull
          split_ifs at hfull ⊢ with hsum
          · exact absurd rfl hfull
          · rfl
        have hnot : ¬ FreeNode live p := fun hfree =>
          hfull (by rw [nodeRun_full fun a ha => (hfree a ha).2, hh])
        rw [hmax]
        refine ⟨?_, ?_⟩
        · rw [mem_freeSizes_succ hp hh]
          rcases le_total (nodeRun d live (2 * p)) (nodeRun d live (2 * p + 1)) with hle | hle
          · rw [max_eq_right hle]
            exact .inr (.inr hgr.1)
          · rw [max_eq_left hle]
            exact .inr (.inl hgl.1)
        · intro r hr
          rcases (mem_freeSizes_succ hp hh).mp hr with ⟨hfree, _⟩ | hr | hr
          · exact absurd hfree hnot
          · exact (hgl.2 hr).trans (le_max_left _ _)
          · exact (hgr.2 hr).trans (le_max_right _ _)

end

/-! ### Occupied blocks -/

/-- A node on the way from the block to the root is marked `0`. -/
def Occupied (t : BuddyTree) (b : ℕ) : Prop :=
  ∃ a, 1 ≤ a ∧ Above a (b + t.size) ∧ t.longest (a - 1) = 0

/-- `k` blocks from `o` on are aligned, inside the tree, and none is occupied. -/
def WhollyFree (t : BuddyTree) (k o : ℕ) : Prop :=
  k ∣ o ∧ o + k ≤ t.size ∧ ∀ b ∈ blockSet (o, k), ¬ Occupied t b

section
variable {d : ℕ} {live : Finset ℕ} {t : BuddyTree}

lemma isNode_leaf {b : ℕ} (hb : b < 2 ^ d) : IsNode d (b + 2 ^ d) := by
  have hpow : 2 ^ (d + 1) = 2 * 2 ^ d := pow_succ' 2 d
  have hpos := Nat.two_pow_pos d
  exact ⟨by omega, by omega⟩

lemma not_strictlyAbove_root (hl : LiveSet d live) : ¬ ∃ a ∈ live, StrictlyAbove a 1 := by
  rintro ⟨a, ha, hab⟩
  have h1 := (hl.node a ha).1
  have := hab.lt h1
  omega

/-- The occupied blocks are the blocks of the live nodes. -/
theorem Represents.occupied_iff (hr : Represents d live t) {b : ℕ} (hb : b < 2 ^ d) :
    Occupied t b ↔ ∃ a ∈ live, b ∈ blockSet (nodeBlock d a) := by
  have hleaf := isNode_leaf hb
  have hmem : ∀ a ∈ live, (b ∈ blockSet (nodeBlock d a) ↔ Above a (b + 2 ^ d)) := by
    intro a ha
    rw [mem_blockSet (hr.node a ha), mem_leaves_iff (hr.node a ha) (by omega) hleaf.2]
  rw [Occupied, hr.size]
  constructor
  · rintro ⟨a, ha1, hab, hzero⟩
    have han := hleaf.above hab ha1
    rw [hr.entry a han] at hzero
    by_cases hbelow : ∃ c ∈ live, StrictlyAbove c a
    · obtain ⟨c, hc, hs⟩ := hbelow
      exact ⟨c, hc, (hmem c hc).mpr (hs.above.trans hab)⟩
    · -- otherwise the block itself would be a free node below `a`
      by_contra hno
      have hfree : FreeNode live (b + 2 ^ d) := by
        refine fun c hc => ⟨fun hcb => hno ⟨c, hc, (hmem c hc).mpr hcb⟩, fun hbc => ?_⟩
        have hu := (hr.node c hc).under hleaf hbc
        rw [(height_eq_zero_iff hleaf).mpr (by omega), under_zero] at hu
        exact hno ⟨c, hc, (hmem c hc).mpr (hu ▸ Above.refl c)⟩
      have hle := (hr.toLiveSet.nodeRun_isGreatest han hbelow).2
        (.inr ⟨_, hleaf, hab, hfree, rfl⟩)
      have := Nat.two_pow_pos (height d (b + 2 ^ d))
      omega
  · rintro ⟨a, ha, hb'⟩
    refine ⟨a, (hr.node a ha).1, (hmem a ha).mp hb', ?_⟩
    rw [hr.entry a (hr.node a ha), hr.toLiveSet.nodeRun_of_mem ha]

/-- A run is free when it meets no live node. -/
lemma Represents.whollyFree_iff (hr : Represents d live t) {k o : ℕ} :
    WhollyFree t k o ↔ k ∣ o ∧ o + k ≤ 2 ^ d ∧
      ∀ a ∈ live, Disjoint (blockSet (nodeBlock d a)) (blockSet (o, k)) := by
  rw [WhollyFree, hr.size]
  refine and_congr_right fun _ => and_congr_right fun hfit => ?_
  constructor
  · intro hfree a ha
    rw [Set.disjoint_left]
    intro b hba hb
    exact hfree b hb ((hr.occupied_iff (lt_of_lt_of_le hb.2 hfit)).mpr ⟨a, ha, hba⟩)
  · intro hdis b hb hocc
    obtain ⟨a, ha, hba⟩ := (hr.occupied_iff (lt_of_lt_of_le hb.2 hfit)).mp hocc
    exact Set.disjoint_left.mp (hdis a ha) hba hb

/-- A node is free exactly when none of its blocks is occupied. -/
lemma Represents.freeNode_iff (hr : Represents d live t) {q : ℕ} (hq : IsNode d q) :
    FreeNode live q ↔ ∀ b ∈ blockSet (nodeBlock d q), ¬ Occupied t b := by
  have hfit := (nodeBlock_aligned hq).2
  have hlt : ∀ b ∈ blockSet (nodeBlock d q), b < 2 ^ d := fun b hb => lt_of_lt_of_le hb.2 hfit
  constructor
  · intro hfree b hb hocc
    obtain ⟨a, ha, hba⟩ := (hr.occupied_iff (hlt b hb)).mp hocc
    have hdis := (blockSet_disjoint_iff (hr.node a ha) hq).mpr (hfree a ha)
    exact Set.disjoint_left.mp hdis hba hb
  · intro hno a ha
    rw [← blockSet_disjoint_iff (hr.node a ha) hq, Set.disjoint_left]
    intro b hba hb
    exact hno b hb ((hr.occupied_iff (hlt b hb)).mpr ⟨a, ha, hba⟩)

/-- The root entry reaches `2 ^ j` exactly when some aligned run of `2 ^ j` blocks is free. -/
theorem Represents.exists_whollyFree_iff (hr : Represents d live t) (j : ℕ) :
    (∃ o, WhollyFree t (2 ^ j) o) ↔ 2 ^ j ≤ nodeRun d live 1 := by
  have hroot : IsNode d 1 := ⟨le_refl 1, Nat.one_lt_two_pow (by omega)⟩
  have hgreat := hr.toLiveSet.nodeRun_isGreatest hroot (not_strictlyAbove_root hr.toLiveSet)
  constructor
  · rintro ⟨o, hdvd, hfit, hfree⟩
    rw [hr.size] at hfit
    obtain ⟨q, hq, hh, hblock⟩ := exists_nodeBlock hdvd hfit
    rw [← hblock] at hfree
    exact hgreat.2 (.inr ⟨q, hq, above_one hq.1, (hr.freeNode_iff hq).mpr hfree, by rw [hh]⟩)
  · intro hle
    rcases hgreat.1 with h0 | ⟨q, hq, _, hfree, hval⟩
    · have := Nat.two_pow_pos j
      omega
    · obtain ⟨hdvd, hfit⟩ := nodeBlock_aligned hq
      have hjq : j ≤ height d q := (Nat.pow_le_pow_iff_right (by omega : 1 < 2)).mp (by omega)
      have hsub : 2 ^ j ≤ (nodeBlock d q).2 := Nat.pow_le_pow_right two_pos hjq
      refine ⟨(nodeBlock d q).1, (Nat.pow_dvd_pow 2 hjq).trans hdvd, by rw [hr.size]; omega, ?_⟩
      intro b hb
      apply (hr.freeNode_iff hq).mp hfree b
      simp only [blockSet, Set.mem_Ico] at hb ⊢
      omega

end

end Jokerix
