import Jokerix.Heap.BuddyBlocks
import Mathlib.Data.Finset.Image

/-!
# Runs of the buddy allocator

Sequences of `buddyAlloc` and `buddyFree` calls on a tree built by `buddyInit`, with the blocks that
are live after each call. The whole array is a function of the live blocks, and an allocation fails
only when no aligned run of the rounded size is free.
-/

namespace Jokerix

open TreeArray

/-! ### Calls -/

inductive BuddyOp where
  | alloc (size : BitVec 32)
  | free (offset : ℕ)

/-- The tree, with the blocks that were handed out and not freed: their offsets and sizes. -/
structure BuddyState where
  tree : BuddyTree
  live : Finset (ℕ × ℕ)

/-- One call; `none` when it does not return or leaves the array. The freed block is the live one
that `offset` lies in. -/
def buddyStep (s : BuddyState) : BuddyOp → Option BuddyState
  | .alloc size =>
    match buddyAlloc s.tree size.toInt with
    | none => none
    | some (offset, tree) =>
      if offset = -1 then some { s with tree }
      else some ⟨tree, insert (offset.toNat, (buddyRequest size.toInt).toNat) s.live⟩
  | .free offset =>
    if offset < s.tree.size then
      some ⟨buddyFree s.tree offset, s.live.filter fun b => ¬ (b.1 ≤ offset ∧ offset < b.1 + b.2)⟩
    else none

def buddyRun (s : BuddyState) (ops : List BuddyOp) : Option BuddyState :=
  ops.foldlM buddyStep s

/-- The state `buddyInit` leaves. -/
def buddyStart (t : BuddyTree) (n : ℕ) : BuddyState := ⟨buddyInit t n, ∅⟩

/-- The live blocks are the runs of the live nodes that the tree represents. -/
def BuddyInv (d : ℕ) (s : BuddyState) : Prop :=
  ∃ nodes, Represents d nodes s.tree ∧ s.live = nodes.image (nodeBlock d)

/-! ### Requests of any size -/

/-- A negative request passes every node size, so the descent does not end. -/
lemma buddyDescend_neg (longest : ℕ → ℕ) {size : ℤ} (hneg : size < 0) (fuel nodeSize index : ℕ) :
    buddyDescend longest size fuel nodeSize index = none := by
  induction fuel generalizing nodeSize index with
  | zero => rfl
  | succ fuel ih =>
    rw [buddyDescend, if_neg (by omega)]
    exact ih _ _

lemma buddyAlloc_congr (t : BuddyTree) {a b : ℤ} (h : buddyRequest a = buddyRequest b) :
    buddyAlloc t a = buddyAlloc t b := by
  rw [buddyAlloc, h, buddyAlloc]

/-- A call with any `int` does not return or is a call with a size that can be rounded. -/
lemma buddyAlloc_cases (t : BuddyTree) (size : BitVec 32) :
    buddyAlloc t size.toInt = none ∨ ∃ n : ℕ, 1 ≤ n ∧ n ≤ 2 ^ 30 ∧
      buddyRequest size.toInt = buddyRequest n := by
  have hlt : size.toInt < 2 ^ 31 := BitVec.toInt_lt
  by_cases hpos : size.toInt ≤ 0
  · right
    refine ⟨1, le_refl 1, Nat.one_le_two_pow, ?_⟩
    rw [buddyRequest_eq (le_refl 1) Nat.one_le_two_pow, buddyRequest, if_pos hpos]
    rfl
  · obtain ⟨n, hn⟩ : ∃ n : ℕ, size.toInt = n := ⟨size.toInt.toNat, by omega⟩
    rw [hn] at hpos hlt ⊢
    by_cases hle : n ≤ 2 ^ 30
    · exact .inr ⟨n, by omega, hle, rfl⟩
    · left
      have hneg := buddyRequest_neg (by omega : 2 ^ 30 < n) (by omega)
      rw [buddyAlloc]
      simp only [Int.toNat_of_nonpos hneg.le, Nat.not_lt_zero, if_false,
        buddyDescend_neg t.longest hneg]

/-! ### Blocks that are not live -/

lemma buddyFreeSearch_none {longest : ℕ → ℕ} (fuel : ℕ) {q : ℕ} (hq : 1 ≤ q)
    (hne : ∀ a, 1 ≤ a → Above a q → longest (a - 1) ≠ 0) (nodeSize : ℕ) :
    buddyFreeSearch longest fuel (q - 1) nodeSize = none := by
  induction fuel generalizing q nodeSize with
  | zero => rfl
  | succ fuel ih =>
    rw [buddyFreeSearch, if_neg (hne q hq (Above.refl q))]
    by_cases h1 : q = 1
    · rw [if_pos (by omega)]
    · rw [if_neg (by omega), parent_pred hq]
      exact ih (by omega) (fun a ha hab => hne a ha ((strictlyAbove_iff a q).mpr hab).above) _

/-- Freeing a block that is not live changes nothing. -/
lemma buddyFree_of_not_occupied {t : BuddyTree} {b : ℕ} (hpos : 0 < t.size)
    (hno : ¬ Occupied t b) : buddyFree t b = t := by
  have hnone := buddyFreeSearch_none (b + t.size - 1 + 1) (by omega : 1 ≤ b + t.size)
    (fun a ha hab hzero => hno ⟨a, ha, hab, hzero⟩) 1
  rw [buddyFree, hnone]

/-! ### The invariant along a run -/

section
variable {d : ℕ} {s s' : BuddyState}

lemma buddyInv_start (t : BuddyTree) (hd : d < 31) : BuddyInv d (buddyStart t (2 ^ d)) :=
  ⟨∅, buddyInit_represents t hd, rfl⟩

lemma nodeBlock_fst {p : ℕ} :
    (((p * 2 ^ height d p - 2 ^ d : ℕ) : ℤ)).toNat = (nodeBlock d p).1 := Int.toNat_natCast _

lemma BuddyInv.alloc {size : BitVec 32} (hi : BuddyInv d s)
    (hs : buddyStep s (.alloc size) = some s') : BuddyInv d s' := by
  obtain ⟨nodes, hr, hlive⟩ := hi
  simp only [buddyStep] at hs
  rcases buddyAlloc_cases s.tree size with hnone | ⟨n, h1, h2, hreq⟩
  · rw [hnone] at hs
    cases hs
  · have hval := buddyRequest_eq h1 h2
    rw [buddyAlloc_congr s.tree hreq, hreq, hval] at hs
    rcases buddyAlloc_spec hr h1 h2 with ⟨_, hok⟩ | ⟨_, p, t', hp, _, _, hh, hok, hr'⟩
    · rw [hok] at hs
      simp only [if_pos, Option.some.injEq] at hs
      subst hs
      exact ⟨nodes, hr, hlive⟩
    · rw [hok] at hs
      simp only at hs
      rw [if_neg (by omega), nodeBlock_fst, Int.toNat_natCast, Option.some.injEq] at hs
      subst hs
      have hblock : nodeBlock d p = ((nodeBlock d p).1, 2 ^ Nat.clog 2 n) := by
        rw [← hh, nodeBlock]
      exact ⟨insert p nodes, hr', by rw [Finset.image_insert, hlive, ← hblock]⟩

lemma BuddyInv.free {offset : ℕ} (hi : BuddyInv d s)
    (hs : buddyStep s (.free offset) = some s') : BuddyInv d s' := by
  obtain ⟨nodes, hr, hlive⟩ := hi
  simp only [buddyStep] at hs
  split_ifs at hs with hlt
  rw [Option.some.injEq] at hs
  subst hs
  rw [hr.size] at hlt
  by_cases hex : ∃ a ∈ nodes, offset ∈ blockSet (nodeBlock d a)
  · obtain ⟨a, ha, hmem⟩ := hex
    have han := hr.node a ha
    have hab : Above a (offset + 2 ^ d) :=
      above_of_mem_leaves ((mem_blockSet han).mp hmem)
    refine ⟨nodes.erase a, buddyFree_spec hr ha hlt hab, ?_⟩
    ext b
    simp only [hlive, Finset.mem_filter, Finset.mem_image, Finset.mem_erase]
    constructor
    · rintro ⟨⟨c, hc, rfl⟩, hout⟩
      refine ⟨c, ⟨?_, hc⟩, rfl⟩
      rintro rfl
      exact hout hmem
    · rintro ⟨c, ⟨hne, hc⟩, rfl⟩
      refine ⟨⟨c, hc, rfl⟩, fun hin => ?_⟩
      -- two live nodes with a common block are one
      have hcn := hr.node c hc
      rcases Above.of_leaves ((mem_blockSet han).mp hmem) ((mem_blockSet hcn).mp hin) with h | h
      · exact hne (hr.antichain a ha c hc h).symm
      · exact hne (hr.antichain c hc a ha h)
  · have hno : ¬ Occupied s.tree offset := fun hocc => hex ((hr.occupied_iff hlt).mp hocc)
    have hpos : 0 < s.tree.size := by rw [hr.size]; exact Nat.two_pow_pos d
    rw [buddyFree_of_not_occupied hpos hno]
    refine ⟨nodes, hr, ?_⟩
    rw [Finset.filter_true_of_mem, hlive]
    intro b hb hin
    rw [hlive, Finset.mem_image] at hb
    obtain ⟨a, ha, rfl⟩ := hb
    exact hex ⟨a, ha, hin⟩

/-- Every reachable state satisfies the invariant. -/
theorem BuddyInv.run {ops : List BuddyOp} (hi : BuddyInv d s) (hs : buddyRun s ops = some s') :
    BuddyInv d s' := by
  induction ops generalizing s with
  | nil =>
    rw [buddyRun, List.foldlM_nil] at hs
    cases hs
    exact hi
  | cons op ops ih =>
    rw [buddyRun, List.foldlM_cons, Option.bind_eq_bind, Option.bind_eq_some_iff] at hs
    obtain ⟨s₁, h₁, hs⟩ := hs
    cases op with
    | alloc size => exact ih (hi.alloc h₁) hs
    | free offset => exact ih (hi.free h₁) hs

end

/-! ### The array is a function of the live blocks -/

/-- What the entry of a node says, given the live blocks: `0` for a live block, the full size below
a live block, and otherwise the greatest size of an aligned free run under the node. -/
structure EntryMeans (live : Finset (ℕ × ℕ)) (node : ℕ × ℕ) (value : ℕ) : Prop where
  zero : node ∈ live → value = 0
  full : (∃ b ∈ live, blockSet node ⊂ blockSet b) → value = node.2
  greatest : node ∉ live → (¬ ∃ b ∈ live, blockSet node ⊂ blockSet b) →
    IsGreatest {r | r = 0 ∨ ∃ o j, r = 2 ^ j ∧ r ∣ o ∧ blockSet (o, r) ⊆ blockSet node ∧
      ∀ b ∈ live, Disjoint (blockSet b) (blockSet (o, r))} value

section
variable {d : ℕ} {nodes : Finset ℕ} {t : BuddyTree} {p : ℕ}

lemma Represents.mem_image_iff (hr : Represents d nodes t) (hp : IsNode d p) :
    nodeBlock d p ∈ nodes.image (nodeBlock d) ↔ p ∈ nodes := by
  rw [Finset.mem_image]
  constructor
  · rintro ⟨a, ha, heq⟩
    rw [← blockNode_nodeBlock hp, ← heq, blockNode_nodeBlock (hr.node a ha)]
    exact ha
  · exact fun hp' => ⟨p, hp', rfl⟩

/-- A strictly larger live block is a live proper ancestor. -/
lemma Represents.below_iff (hr : Represents d nodes t) (hp : IsNode d p) :
    (∃ b ∈ nodes.image (nodeBlock d), blockSet (nodeBlock d p) ⊂ blockSet b) ↔
      ∃ a ∈ nodes, StrictlyAbove a p := by
  have key : ∀ a ∈ nodes, (blockSet (nodeBlock d p) ⊂ blockSet (nodeBlock d a) ↔
      StrictlyAbove a p) := by
    intro a ha
    have han := hr.node a ha
    rw [ssubset_iff_subset_not_subset, blockSet_subset_iff han hp, blockSet_subset_iff hp han]
    constructor
    · rintro ⟨hab, hno⟩
      rcases (above_iff_eq_or a p).mp hab with rfl | hs
      · exact absurd (Above.refl a) hno
      · exact hs
    · intro hs
      refine ⟨hs.above, fun hpa => ?_⟩
      have h1 := hs.lt han.1
      have h2 := hpa.le
      omega
  constructor
  · rintro ⟨b, hb, hsub⟩
    obtain ⟨a, ha, rfl⟩ := Finset.mem_image.mp hb
    exact ⟨a, ha, (key a ha).mp hsub⟩
  · rintro ⟨a, ha, hs⟩
    exact ⟨_, Finset.mem_image_of_mem _ ha, (key a ha).mpr hs⟩

/-- The free nodes under a node are the aligned free runs inside its run. -/
lemma Represents.freeSizes_eq (hr : Represents d nodes t) (hp : IsNode d p) :
    freeSizes d nodes p = {r | r = 0 ∨ ∃ o j, r = 2 ^ j ∧ r ∣ o ∧
      blockSet (o, r) ⊆ blockSet (nodeBlock d p) ∧
      ∀ b ∈ nodes.image (nodeBlock d), Disjoint (blockSet b) (blockSet (o, r))} := by
  have hfit := (nodeBlock_aligned hp).2
  ext r
  simp only [freeSizes, Set.mem_ofPred_eq]
  apply or_congr_right
  constructor
  · rintro ⟨q, hq, hab, hfree, rfl⟩
    refine ⟨(nodeBlock d q).1, height d q, rfl, (nodeBlock_aligned hq).1,
      (blockSet_subset_iff hp hq).mpr hab, ?_⟩
    intro b hb
    obtain ⟨a, ha, rfl⟩ := Finset.mem_image.mp hb
    exact (blockSet_disjoint_iff (hr.node a ha) hq).mpr (hfree a ha)
  · rintro ⟨o, j, rfl, hdvd, hsub, hdis⟩
    have hpos := Nat.two_pow_pos j
    have hlast : o + 2 ^ j - 1 ∈ blockSet (nodeBlock d p) := hsub ⟨by omega, by omega⟩
    have hin : o + 2 ^ j ≤ 2 ^ d := by
      have := hlast.2
      omega
    obtain ⟨q, hq, hh, hblock⟩ := exists_nodeBlock hdvd hin
    rw [← hblock] at hsub hdis
    refine ⟨q, hq, (blockSet_subset_iff hp hq).mp hsub, ?_, by rw [hh]⟩
    intro a ha
    exact (blockSet_disjoint_iff (hr.node a ha) hq).mp (hdis _ (Finset.mem_image_of_mem _ ha))

lemma Represents.entryMeans (hr : Represents d nodes t) (hp : IsNode d p) :
    EntryMeans (nodes.image (nodeBlock d)) (nodeBlock d p) (t.longest (p - 1)) := by
  rw [hr.entry p hp]
  constructor
  · intro hmem
    exact hr.toLiveSet.nodeRun_of_mem ((hr.mem_image_iff hp).mp hmem)
  · intro hbelow
    exact nodeRun_below ((hr.below_iff hp).mp hbelow)
  · intro _ hbelow
    rw [← hr.freeSizes_eq hp]
    exact hr.toLiveSet.nodeRun_isGreatest hp (mt (hr.below_iff hp).mpr hbelow)

/-- The live nodes can be read off the live blocks. -/
lemma Represents.nodes_eq (hr : Represents d nodes t) :
    nodes = (nodes.image (nodeBlock d)).image (blockNode d) := by
  rw [Finset.image_image]
  ext p
  simp only [Finset.mem_image, Function.comp_apply]
  constructor
  · exact fun hp => ⟨p, hp, blockNode_nodeBlock (hr.node p hp)⟩
  · rintro ⟨q, hq, rfl⟩
    rw [blockNode_nodeBlock (hr.node q hq)]
    exact hq

/-- Trees that represent the same live nodes hold the same array. -/
lemma Represents.longest_eq {t' : BuddyTree} (hr : Represents d nodes t)
    (hr' : Represents d nodes t') {i : ℕ} (hi : i < 2 * 2 ^ d - 1) :
    t.longest i = t'.longest i := by
  have hpow : 2 ^ (d + 1) = 2 * 2 ^ d := pow_succ' 2 d
  have hnode : IsNode d (i + 1) := ⟨by omega, by omega⟩
  have h := hr.entry (i + 1) hnode
  have h' := hr'.entry (i + 1) hnode
  rw [Nat.add_sub_cancel] at h h'
  rw [h, h']

end

/-- After any two runs with the same live blocks the whole array is the same, and each entry says
what the live blocks imply. With no live block it is the array of `buddyInit`, and freeing what was
just allocated restores it. -/
theorem buddyTree_canonical {d : ℕ} (hd : d < 31) (t t' : BuddyTree) (ops ops' : List BuddyOp)
    (s s' : BuddyState) (hrun : buddyRun (buddyStart t (2 ^ d)) ops = some s)
    (hrun' : buddyRun (buddyStart t' (2 ^ d)) ops' = some s') (hlive : s.live = s'.live) :
    (∀ i < 2 * 2 ^ d - 1, s.tree.longest i = s'.tree.longest i) ∧
    (∀ i < 2 * 2 ^ d - 1, EntryMeans s.live (nodeBlock d (i + 1)) (s.tree.longest i)) ∧
    (s.live = ∅ → ∀ i < 2 * 2 ^ d - 1, s.tree.longest i = (buddyInit t (2 ^ d)).longest i) ∧
    ∀ (size : BitVec 32) (offset : ℤ) (tree : BuddyTree),
      buddyAlloc s.tree size.toInt = some (offset, tree) → offset ≠ -1 →
      ∀ i < 2 * 2 ^ d - 1, (buddyFree tree offset.toNat).longest i = s.tree.longest i := by
  have hpow : 2 ^ (d + 1) = 2 * 2 ^ d := pow_succ' 2 d
  obtain ⟨nodes, hr, hnodes⟩ := (buddyInv_start t hd).run hrun
  obtain ⟨nodes', hr', hnodes'⟩ := (buddyInv_start t' hd).run hrun'
  have hsame : nodes = nodes' := by
    rw [hr.nodes_eq, hr'.nodes_eq, ← hnodes, ← hnodes', hlive]
  refine ⟨fun i hi => hr.longest_eq (hsame ▸ hr') hi, ?_, ?_, ?_⟩
  · intro i hi
    rw [hnodes]
    exact hr.entryMeans (p := i + 1) ⟨by omega, by omega⟩
  · intro hempty i hi
    rw [hempty] at hnodes
    obtain rfl : nodes = ∅ := Finset.image_eq_empty.mp hnodes.symm
    exact hr.longest_eq (buddyInit_represents t hd) hi
  · intro size offset tree hok hne i hi
    rcases buddyAlloc_cases s.tree size with hnone | ⟨n, h1, h2, hreq⟩
    · rw [hnone] at hok
      cases hok
    · rw [buddyAlloc_congr s.tree hreq] at hok
      rcases buddyAlloc_spec hr h1 h2 with ⟨_, hfail⟩ | ⟨_, p, t', hp, hun, _, _, hok', hr₁⟩
      · rw [hfail] at hok
        cases hok
        exact absurd rfl hne
      · rw [hok'] at hok
        cases hok
        have hfit := (nodeBlock_aligned hp).2
        have hpos : 0 < (nodeBlock d p).2 := Nat.two_pow_pos _
        have hab : Above p ((nodeBlock d p).1 + 2 ^ d) :=
          above_of_mem_leaves ((mem_blockSet hp).mp ⟨le_refl _, by omega⟩)
        have hfree := buddyFree_spec hr₁ (Finset.mem_insert_self p nodes) (by omega) hab
        rw [Finset.erase_insert hun.not_mem] at hfree
        rw [nodeBlock_fst]
        exact hfree.longest_eq hr hi

/-- A tree before `buddyInit`. -/
def sampleTree : BuddyTree := ⟨0, fun _ => 0⟩

/-- Of four blocks one is allocated and freed, which restores the array. -/
theorem buddyTree_canonical_alloc_free : ∃ s,
    buddyRun (buddyStart sampleTree (2 ^ 2)) [.alloc 1, .free 0] = some s ∧
      ∀ i < 7, s.tree.longest i = (buddyInit sampleTree (2 ^ 2)).longest i := by
  obtain ⟨s, hs, hlive⟩ : ∃ s, buddyRun (buddyStart sampleTree (2 ^ 2)) [.alloc 1, .free 0] =
      some s ∧ s.live = ∅ := ⟨_, rfl, by decide⟩
  exact ⟨s, hs, (buddyTree_canonical (by decide) sampleTree sampleTree _ [] s _ hs rfl hlive).1⟩

/-! ### An allocation fails only when it must -/

/-- A successful call ends its descent at the node of the returned run. -/
lemma buddyDescend_of_alloc {t tree : BuddyTree} {size offset : ℤ}
    (hok : buddyAlloc t size = some (offset, tree)) (hne : offset ≠ -1) :
    ∃ index : ℕ, buddyDescend t.longest (buddyRequest size) (t.size + 1) t.size 0 = some index ∧
      offset = (index + 1) * buddyRequest size - t.size ∧ tree = buddyTake t index := by
  simp only [buddyAlloc] at hok
  split_ifs at hok
  · cases hok
    exact absurd rfl hne
  · rcases hdesc : buddyDescend t.longest (buddyRequest size) (t.size + 1) t.size 0 with _ | index
    · rw [hdesc] at hok
      cases hok
    · rw [hdesc] at hok
      cases hok
      exact ⟨index, rfl, rfl, rfl⟩

/-- In every reachable tree, for a request whose rounding is `k`: `buddyAlloc` returns `-1` exactly
when no aligned run of `k` blocks is free, and then leaves the tree as it was. Otherwise the descent
ends at a node of `k` blocks inside the array, and its run, which was free, is what becomes
occupied. -/
theorem buddyAlloc_exact {d : ℕ} (hd : d < 31) (t : BuddyTree) (ops : List BuddyOp)
    (s : BuddyState) (hrun : buddyRun (buddyStart t (2 ^ d)) ops = some s) {n k : ℕ} (h1 : 1 ≤ n)
    (h2 : n ≤ 2 ^ 25) (hk : IsLeast {m : ℕ | m.isPowerOfTwo ∧ n ≤ m} k) :
    (∀ b < 2 ^ d, Occupied s.tree b ↔ ∃ x ∈ s.live, b ∈ blockSet x) ∧
    ((∃ tree, buddyAlloc s.tree n = some (-1, tree)) ↔ ¬ ∃ o, WhollyFree s.tree k o) ∧
    (∀ tree, buddyAlloc s.tree n = some (-1, tree) → tree = s.tree) ∧
    ((∃ o, WhollyFree s.tree k o) → ∃ (index o : ℕ) (tree : BuddyTree),
      buddyDescend s.tree.longest k (s.tree.size + 1) s.tree.size 0 = some index ∧
      index < 2 * 2 ^ d - 1 ∧ (index + 1) * k = o + 2 ^ d ∧
      buddyAlloc s.tree n = some (↑o, tree) ∧ WhollyFree s.tree k o ∧
      ∀ b < 2 ^ d, Occupied tree b ↔ Occupied s.tree b ∨ b ∈ blockSet (o, k)) := by
  obtain ⟨nodes, hr, hnodes⟩ := (buddyInv_start t hd).run hrun
  obtain rfl : k = 2 ^ Nat.clog 2 n := hk.unique (PowTwo.isLeast_pow_clog n)
  have hocc : ∀ b < 2 ^ d, (Occupied s.tree b ↔ ∃ x ∈ s.live, b ∈ blockSet x) := by
    intro b hb
    rw [hr.occupied_iff hb, hnodes]
    simp only [Finset.exists_mem_image]
  have hfree := hr.exists_whollyFree_iff (Nat.clog 2 n)
  refine ⟨hocc, ?_⟩
  rcases buddyAlloc_spec hr h1 (by omega) with ⟨hlt, hok⟩ |
    ⟨hge, p, tree, hp, hun, hno, hh, hok, hr'⟩
  · have hnone : ¬ ∃ o, WhollyFree s.tree (2 ^ Nat.clog 2 n) o := by
      rw [hfree]
      omega
    refine ⟨⟨fun _ => hnone, fun _ => ⟨_, hok⟩⟩, ?_, fun hex => absurd hex hnone⟩
    intro tree hok'
    rw [hok] at hok'
    cases hok'
    rfl
  · have hex := hfree.mpr hge
    have hpos := Nat.two_pow_pos (Nat.clog 2 n)
    have hblock : nodeBlock d p = ((nodeBlock d p).1, 2 ^ Nat.clog 2 n) := by rw [← hh, nodeBlock]
    have hno1 : ∀ tree', buddyAlloc s.tree n ≠ some (-1, tree') := by
      intro tree' hok'
      rw [hok] at hok'
      simp only [Option.some.injEq, Prod.mk.injEq] at hok'
      omega
    refine ⟨⟨fun hfail => hfail.elim fun tree' h => absurd h (hno1 tree'), fun h => absurd hex h⟩,
      fun tree' h => absurd h (hno1 tree'), fun _ => ?_⟩
    obtain ⟨index, hdesc, hoff, _⟩ := buddyDescend_of_alloc hok (by omega)
    rw [buddyRequest_eq h1 (by omega)] at hdesc hoff
    obtain ⟨hdvd, hfit⟩ := nodeBlock_aligned hp
    have hlow := hp.bounds.1
    have hindex : (index + 1) * 2 ^ Nat.clog 2 n = (nodeBlock d p).1 + 2 ^ d := by
      have hoff' : ((nodeBlock d p).1 : ℤ) =
          (index + 1) * (2 ^ Nat.clog 2 n : ℕ) - (2 ^ d : ℕ) := by rw [← hr.size]; exact hoff
      have hcast : (((index + 1) * 2 ^ Nat.clog 2 n : ℕ) : ℤ) =
          ((nodeBlock d p).1 + 2 ^ d : ℕ) := by
        rw [Nat.cast_add, hoff', Nat.cast_mul, Nat.cast_succ]
        omega
      exact_mod_cast hcast
    have hle : index + 1 ≤ (index + 1) * 2 ^ Nat.clog 2 n := Nat.le_mul_of_pos_right _ hpos
    rw [hblock] at hdvd hfit
    simp only at hdvd hfit
    refine ⟨index, (nodeBlock d p).1, tree, hdesc, by omega, hindex, hok, ?_, ?_⟩
    · refine ⟨hdvd, by rw [hr.size]; exact hfit, ?_⟩
      rw [← hblock]
      exact (hr.freeNode_iff hp).mp fun a ha => ⟨hun a ha, hno a ha⟩
    · intro b hb
      rw [hr'.occupied_iff hb, hr.occupied_iff hb, ← hblock, Finset.exists_mem_insert, or_comm]

/-- Of eight blocks the first, the third and the fourth are occupied: a request for three goes down
to the other half and takes all of it. -/
theorem buddyAlloc_exact_three : ∃ (s : BuddyState) (tree : BuddyTree),
    buddyRun (buddyStart sampleTree (2 ^ 3)) [.alloc 1, .alloc 2] = some s ∧
    s.live = {(0, 1), (2, 2)} ∧ buddyAlloc s.tree (3 : ℕ) = some (4, tree) ∧
      ∀ b < 8, Occupied tree b ↔ Occupied s.tree b ∨ b ∈ blockSet (4, 4) := by
  have hk : IsLeast {m : ℕ | m.isPowerOfTwo ∧ 3 ≤ m} 4 := by
    have h := PowTwo.isLeast_pow_clog 3
    rwa [show 2 ^ Nat.clog 2 3 = 4 by decide] at h
  have hfacts : (buddyRun (buddyStart sampleTree (2 ^ 3)) [.alloc 1, .alloc 2]).map
      (fun s => (s.live, s.tree.size, (buddyAlloc s.tree (3 : ℕ)).map Prod.fst)) =
        some ({(0, 1), (2, 2)}, 8, some 4) := by decide +kernel
  obtain ⟨s, hrun, hfacts⟩ := Option.map_eq_some_iff.mp hfacts
  simp only [Prod.mk.injEq] at hfacts
  obtain ⟨hlive, hsize, halloc⟩ := hfacts
  obtain ⟨hocc, _, _, hfree⟩ := buddyAlloc_exact (d := 3) (by decide) sampleTree _ s
    hrun (by decide)
    (by decide) hk
  have hex : WhollyFree s.tree 4 4 := by
    refine ⟨dvd_refl _, by omega, fun b hb hoccupied => ?_⟩
    obtain ⟨h4, h8⟩ := hb
    obtain ⟨x, hx, hbx⟩ := (hocc b h8).mp hoccupied
    rw [hlive, Finset.mem_insert, Finset.mem_singleton] at hx
    simp only [blockSet, Set.mem_Ico] at hbx h4
    rcases hx with rfl | rfl <;> simp only at hbx <;> omega
  obtain ⟨_, o, tree, _, _, _, hok, _, hocc'⟩ := hfree ⟨4, hex⟩
  rw [hok] at halloc
  have ho : (o : ℤ) = 4 := by simpa using halloc
  obtain rfl : o = 4 := by exact_mod_cast ho
  exact ⟨s, tree, hrun, hlive, hok, hocc'⟩

end Jokerix
