import Jokerix.Heap.Kalloc

/-!
# The blocks of the kernel heap

`Holds h blocks` says that the live allocations of the heap `h` are exactly `blocks`, each an
address with the number of bytes reserved for it. `initHeap`, `kalloc` and `kfree` keep it, whatever
the clients write to memory in between.
-/

namespace Jokerix

open TreeArray

/-- The live allocations of the heap, each the byte range of one live node. -/
def Holds (h : KernelHeap) (blocks : List (ℕ × ℕ)) : Prop :=
  ∃ nodes : List ℕ, nodes.Nodup ∧ Represents heapDepth nodes.toFinset h.tree ∧
    blocks = nodes.map fun p => (nodeAddr h.region.base p, nodeBytes p)

/-- The ranges of two allocations do not meet. -/
def Apart (x y : ℕ × ℕ) : Prop := x.1 + x.2 ≤ y.1 ∨ y.1 + y.2 ≤ x.1

/-- A permutation of the images comes from one of the elements. -/
lemma exists_perm_of_map_perm {α β : Type*} {f : α → β} {xs : List α} {ys zs : List β}
    (hp : ys.Perm zs) (hys : ys = xs.map f) : ∃ xs', xs.Perm xs' ∧ zs = xs'.map f := by
  induction hp generalizing xs with
  | nil => exact ⟨xs, List.Perm.refl _, hys⟩
  | cons y _ ih =>
    obtain ⟨a, as, rfl, rfl, h2⟩ := List.map_eq_cons_iff.mp hys.symm
    obtain ⟨as', hp', rfl⟩ := ih h2.symm
    exact ⟨a :: as', hp'.cons a, rfl⟩
  | swap y z _ =>
    obtain ⟨a, as, rfl, rfl, h2⟩ := List.map_eq_cons_iff.mp hys.symm
    obtain ⟨b, bs, rfl, rfl, rfl⟩ := List.map_eq_cons_iff.mp h2
    exact ⟨b :: a :: bs, List.Perm.swap b a bs, rfl⟩
  | trans _ _ ih₁ ih₂ =>
    obtain ⟨as, hp₁, rfl⟩ := ih₁ hys
    obtain ⟨bs, hp₂, rfl⟩ := ih₂ rfl
    exact ⟨bs, hp₁.trans hp₂, rfl⟩

section
variable {h h' : KernelHeap} {blocks : List (ℕ × ℕ)} {size : BitVec 32} {ptr : ℕ}

lemma holds_initHeap (h : KernelHeap) : Holds (initHeap h) [] :=
  ⟨[], List.nodup_nil, by simpa using initHeap_represents h, rfl⟩

/-- The bytes of the memory play no part in which blocks are live. -/
lemma Holds.setMem (hh : Holds h blocks) (mem : Bytes.Memory) :
    Holds { h with mem := mem } blocks := hh

lemma Holds.inside (hh : Holds h blocks) {b : ℕ × ℕ} (hb : b ∈ blocks) :
    0 < b.2 ∧ h.region.base ≤ b.1 ∧ b.1 + b.2 ≤ h.region.base + kernelHeapSize := by
  obtain ⟨nodes, _, hr, rfl⟩ := hh
  obtain ⟨p, hp, rfl⟩ := List.mem_map.mp hb
  have hnode := hr.node p (List.mem_toFinset.mpr hp)
  exact ⟨nodeBytes_pos p, nodeAddr_inside _ hnode⟩

lemma Holds.pairwise_apart (hh : Holds h blocks) : blocks.Pairwise Apart := by
  obtain ⟨nodes, hnd, hr, rfl⟩ := hh
  rw [List.pairwise_map]
  apply hnd.imp_of_mem
  intro p q hp hq hne
  have hp' := List.mem_toFinset.mpr hp
  have hq' := List.mem_toFinset.mpr hq
  apply nodeAddr_disjoint _ (hr.node p hp') (hr.node q hq')
  · exact fun hab => hne (hr.antichain p hp' q hq' hab)
  · exact fun hab => hne (hr.antichain q hq' p hp' hab).symm

/-- What a successful `kalloc` does: one new block, its bytes cleared, nothing else changed. -/
theorem Holds.kalloc (hh : Holds h blocks) (hpos : 0 < size.toInt)
    (hok : kalloc h size = .ok (ptr, h')) :
    Holds h' ((ptr, kallocBytes size) :: blocks) ∧
      (∀ b ∈ blocks, Apart (ptr, kallocBytes size) b) ∧
      h'.region = h.region ∧ h'.mem = Bytes.fill h.mem ptr (kallocBytes size) 0 := by
  obtain ⟨nodes, hnd, hr, rfl⟩ := hh
  rcases kalloc_spec hr hpos with ⟨_, hfail⟩ | ⟨p, tree, hp, hun, hno, hbytes, hr', hok'⟩
  · rw [hfail] at hok
    cases hok
  · rw [hok', Except.ok.injEq, Prod.mk.injEq] at hok
    obtain ⟨rfl, rfl⟩ := hok
    have hnew : p ∉ nodes := fun hmem => hun p (List.mem_toFinset.mpr hmem) (Above.refl p)
    have hnew' : Holds
        { h with tree, mem := Bytes.fill h.mem (nodeAddr h.region.base p) (nodeBytes p) 0 }
        ((nodeAddr h.region.base p, kallocBytes size) ::
          nodes.map fun p => (nodeAddr h.region.base p, nodeBytes p)) :=
      ⟨p :: nodes, List.nodup_cons.mpr ⟨hnew, hnd⟩, by simpa using hr', by simp [hbytes]⟩
    refine ⟨hnew', ?_, rfl, by rw [hbytes]⟩
    exact (List.pairwise_cons.mp hnew'.pairwise_apart).1

/-- Dropping the one element whose image has a property. -/
lemma filter_map_of_iff {α β : Type*} [DecidableEq α] {f : α → β} {P : β → Prop} [DecidablePred P]
    {xs : List α} {a : α} (h : ∀ x ∈ xs, P (f x) ↔ x = a) :
    ((xs.map f).filter fun b => ¬ P b) = (xs.filter fun x => x ≠ a).map f := by
  rw [List.filter_map]
  congr 1
  apply List.filter_congr
  intro x hx
  simp [h x hx]

/-- Dropping the image of one element whose key is its own drops that element. -/
lemma filter_map_ne {α : Type*} [DecidableEq α] {f : α → ℕ × ℕ} {xs : List α} {a : α}
    (hinj : ∀ p ∈ xs, (f p).1 = (f a).1 → p = a) :
    ((xs.map f).filter fun b => b.1 ≠ (f a).1) = (xs.filter fun p => p ≠ a).map f :=
  filter_map_of_iff fun p hp => ⟨hinj p hp, fun heq => by rw [heq]⟩

/-- On the empty heap `kalloc` succeeds for every request of at most all blocks. -/
lemma Holds.kalloc_of_empty (hh : Holds h []) (hpos : 0 < size.toInt)
    (hle : kallocBlocks size ≤ heapBlockNum) : ∃ ptr h', Jokerix.kalloc h size = .ok (ptr, h') := by
  obtain ⟨nodes, _, hr, hmap⟩ := hh
  obtain rfl : nodes = [] := List.map_eq_nil_iff.mp hmap.symm
  rcases kalloc_spec hr hpos with ⟨hlt, _⟩ | ⟨p, tree, _, _, _, _, _, hok⟩
  · have hfull : nodeRun heapDepth ([] : List ℕ).toFinset 1 = 2 ^ height heapDepth 1 :=
      nodeRun_full (by simp)
    rw [heapBlockNum_eq] at hle
    have hclog : Nat.clog 2 (kallocBlocks size) ≤ heapDepth := Nat.clog_le_of_le_pow hle
    have hpow : 2 ^ Nat.clog 2 (kallocBlocks size) ≤ 2 ^ heapDepth :=
      Nat.pow_le_pow_right (by omega) hclog
    rw [hfull, height_one] at hlt
    omega
  · exact ⟨_, _, hok⟩

/-- What `kfree` of a live pointer does: its block is gone, nothing else changed. -/
theorem Holds.kfree (hh : Holds h blocks) (hmem : ptr ∈ blocks.map Prod.fst) :
    Holds (kfree h ptr) (blocks.filter fun b => b.1 ≠ ptr) ∧
      (kfree h ptr).mem = h.mem ∧ (kfree h ptr).region = h.region := by
  have hapart := hh.pairwise_apart
  obtain ⟨nodes, hnd, hr, rfl⟩ := hh
  simp only [List.map_map, List.mem_map, Function.comp_apply] at hmem
  obtain ⟨a, ha, rfl⟩ := hmem
  have ha' := List.mem_toFinset.mpr ha
  obtain ⟨hr', hm, hreg⟩ := kfree_spec hr ha'
  refine ⟨⟨nodes.filter fun p => p ≠ a, hnd.filter _, ?_, ?_⟩, hm, hreg⟩
  · have hset : (nodes.filter fun p => p ≠ a).toFinset = nodes.toFinset.erase a := by
      ext p
      simp [and_comm]
    rw [hset]
    exact hr'
  · rw [hreg]
    apply filter_map_ne (f := fun p => (nodeAddr h.region.base p, nodeBytes p))
    intro p hp heq
    by_contra hne
    -- distinct live nodes have distinct addresses
    have hp' := List.mem_toFinset.mpr hp
    have hsep := nodeAddr_disjoint h.region.base (hr.node p hp') (hr.node a ha')
      (fun hab => hne (hr.antichain p hp' a ha' hab))
      (fun hab => hne (hr.antichain a ha' p hp' hab).symm)
    have h1 := nodeBytes_pos p
    have h2 := nodeBytes_pos a
    simp only at heq
    omega

/-- The order in which the blocks are listed does not matter. -/
lemma Holds.perm {blocks' : List (ℕ × ℕ)} (hh : Holds h blocks) (hp : blocks.Perm blocks') :
    Holds h blocks' := by
  obtain ⟨nodes, hnd, hr, rfl⟩ := hh
  obtain ⟨nodes', hp', rfl⟩ := exists_perm_of_map_perm hp rfl
  refine ⟨nodes', hp'.nodup_iff.mp hnd, ?_, rfl⟩
  rwa [← List.toFinset_eq_of_perm _ _ hp']

/-- Freeing the block that is listed first. -/
lemma Holds.kfree_cons {n : ℕ} (hh : Holds h ((ptr, n) :: blocks)) :
    Holds (Jokerix.kfree h ptr) blocks ∧ (Jokerix.kfree h ptr).mem = h.mem ∧
      (Jokerix.kfree h ptr).region = h.region := by
  have hmem : ptr ∈ ((ptr, n) :: blocks).map Prod.fst := by simp
  obtain ⟨hh', hm, hreg⟩ := hh.kfree hmem
  refine ⟨?_, hm, hreg⟩
  obtain ⟨hapart, _⟩ := List.pairwise_cons.mp hh.pairwise_apart
  rw [List.filter_cons_of_neg (by simp), List.filter_eq_self.mpr] at hh'
  · exact hh'
  · intro b hb
    obtain ⟨hb2, _⟩ := hh.inside (List.mem_cons_of_mem _ hb)
    obtain ⟨hn, _⟩ := hh.inside (List.mem_cons_self)
    have hab := hapart b hb
    simp only [Apart] at hab hn
    simp only [ne_eq, decide_not, Bool.not_eq_eq_eq_not, Bool.not_true, decide_eq_false_iff_not]
    omega

end

end Jokerix
