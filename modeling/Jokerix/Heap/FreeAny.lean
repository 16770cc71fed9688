import Jokerix.Heap.Safety
import Jokerix.Heap.BuddyRuns
import Mathlib.Data.List.Pairwise

/-!
# Freeing any address

Runs of the kernel heap in which `kfree` gets any 64-bit value: pointers outside `HEAP`, pointers
into the middle of an allocation, pointers to blocks that are free. What happens depends only on
the live allocation that the pointer lies in.
-/

namespace Jokerix

open TreeArray

/-! ### The entries `kfree` reads -/

/-- The indices that the search of `buddyFree` reads, in order. -/
def buddyFreeSearchReads (longest : ℕ → ℕ) : ℕ → ℕ → List ℕ
  | 0, _ => []
  | fuel + 1, index =>
    index :: if longest index = 0 ∨ index = 0 then []
      else buddyFreeSearchReads longest fuel (parent index)

/-- The indices that the upward pass of `buddyFree` reads. -/
def buddyFreeUpReads : ℕ → ℕ → List ℕ
  | 0, _ => []
  | fuel + 1, index =>
    if index = 0 then []
    else
      leftLeaf (parent index) :: rightLeaf (parent index) :: buddyFreeUpReads fuel (parent index)

/-- The indices of `longest` that `buddyFree` reads. -/
def buddyFreeReads (t : BuddyTree) (offset : ℕ) : List ℕ :=
  let index := offset + t.size - 1
  buddyFreeSearchReads t.longest (index + 1) index ++
    match buddyFreeSearch t.longest (index + 1) index 1 with
    | none => []
    | some (index, _) => buddyFreeUpReads index index

/-- The indices of `longest` that `kfree` reads. -/
def kfreeReads (h : KernelHeap) (ptr : ℕ) : List ℕ :=
  if ptr < h.region.base then []
  else if ptr > h.region.base + kernelHeapSize - minBlockSize then []
  else buddyFreeReads h.tree ((ptr - h.region.base) / minBlockSize)

lemma parent_le (index : ℕ) : parent index ≤ index := by
  unfold parent
  omega

lemma buddyFreeSearchReads_le {longest : ℕ → ℕ} (fuel index : ℕ) :
    ∀ i ∈ buddyFreeSearchReads longest fuel index, i ≤ index := by
  induction fuel generalizing index with
  | zero => simp [buddyFreeSearchReads]
  | succ fuel ih =>
    intro i hi
    rw [buddyFreeSearchReads, List.mem_cons] at hi
    rcases hi with rfl | hi
    · exact le_refl i
    · split_ifs at hi
      · cases hi
      · exact (ih _ i hi).trans (parent_le index)

/-- The search stops: the last index it reads holds `0` or is the root. -/
lemma buddyFreeSearchReads_last {longest : ℕ → ℕ} (fuel index : ℕ) (hfuel : index < fuel) :
    ∃ i, (buddyFreeSearchReads longest fuel index).getLast? = some i ∧
      (longest i = 0 ∨ i = 0) := by
  induction fuel generalizing index with
  | zero => omega
  | succ fuel ih =>
    rw [buddyFreeSearchReads]
    by_cases hstop : longest index = 0 ∨ index = 0
    · exact ⟨index, by simp [hstop], hstop⟩
    · have hlt : parent index < fuel := by
        unfold parent
        omega
      obtain ⟨i, hi, hlast⟩ := ih (parent index) hlt
      exact ⟨i, by rw [if_neg hstop, List.getLast?_cons, hi, Option.getD_some], hlast⟩

/-- The search ends at an index it has read. -/
lemma buddyFreeSearch_le {longest : ℕ → ℕ} (fuel index nodeSize : ℕ) {i n : ℕ}
    (h : buddyFreeSearch longest fuel index nodeSize = some (i, n)) : i ≤ index := by
  induction fuel generalizing index nodeSize with
  | zero => cases h
  | succ fuel ih =>
    rw [buddyFreeSearch] at h
    split_ifs at h
    · cases h
      exact le_refl i
    · exact (ih _ _ h).trans (parent_le index)

/-- An array of `2 * n - 1` nodes holds with each node its sibling. -/
lemma buddyFreeUpReads_lt {n : ℕ} (fuel index : ℕ) (hindex : index < 2 * n - 1) :
    ∀ i ∈ buddyFreeUpReads fuel index, i < 2 * n - 1 := by
  induction fuel generalizing index with
  | zero => simp [buddyFreeUpReads]
  | succ fuel ih =>
    intro i hi
    rw [buddyFreeUpReads] at hi
    split_ifs at hi with h0
    · cases hi
    · have hle := parent_le index
      simp only [List.mem_cons] at hi
      rcases hi with rfl | rfl | hi
      · unfold leftLeaf parent
        omega
      · unfold rightLeaf parent
        omega
      · exact ih _ (by omega) i hi

lemma buddyFreeReads_lt {t : BuddyTree} {offset : ℕ} (h : offset < t.size) :
    ∀ i ∈ buddyFreeReads t offset, i < 2 * t.size - 1 := by
  intro i hi
  rw [buddyFreeReads, List.mem_append] at hi
  rcases hi with hi | hi
  · have := buddyFreeSearchReads_le _ _ i hi
    omega
  · rcases hsearch : buddyFreeSearch t.longest (offset + t.size - 1 + 1) (offset + t.size - 1) 1
      with _ | ⟨index, n⟩
    · simp only [hsearch] at hi
      cases hi
    · simp only [hsearch] at hi
      have hle := buddyFreeSearch_le _ _ _ hsearch
      exact buddyFreeUpReads_lt _ _ (by omega) i hi

/-! ### Any pointer -/

/-- `kfree` of `ptr` reaches the allocation `b`: the pointer lies in it, and not behind the first
byte of the last block of `HEAP`. -/
def Frees (h : KernelHeap) (ptr : ℕ) (b : ℕ × ℕ) : Prop :=
  b.1 ≤ ptr ∧ ptr < b.1 + b.2 ∧ ptr ≤ h.region.base + kernelHeapSize - minBlockSize

instance (h : KernelHeap) (ptr : ℕ) (b : ℕ × ℕ) : Decidable (Frees h ptr b) :=
  inferInstanceAs (Decidable (_ ∧ _ ∧ _))

section
variable {h : KernelHeap} {blocks : List (ℕ × ℕ)} {ptr : ℕ}

/-- A pointer into `HEAP` that no live allocation contains is in a block that is not occupied. -/
lemma Represents.not_occupied_of_ptr {live : Finset ℕ} (hr : Represents heapDepth live h.tree)
    (hlow : h.region.base ≤ ptr) (hlast : ptr ≤ h.region.base + kernelHeapSize - minBlockSize)
    (hno : ∀ p ∈ live, ¬ Frees h ptr (nodeAddr h.region.base p, nodeBytes p)) :
    ¬ Occupied h.tree ((ptr - h.region.base) / minBlockSize) := by
  rw [hr.occupied_iff (by simp only [kernelHeapSize, minBlockSize, heapDepth] at *; omega)]
  rintro ⟨p, hp, hmem⟩
  have hoff := nodeOffset_eq (hr.node p hp)
  simp only [blockSet, nodeBlock, Set.mem_Ico, ← hoff] at hmem
  apply hno p hp
  simp only [Frees, nodeAddr, nodeBytes]
  simp only [minBlockSize] at *
  omega

/-- `kfree` of any pointer drops the allocation that the pointer reaches; when there is none it
changes nothing. -/
theorem Holds.kfree_any (hh : Holds h blocks) (ptr : ℕ) :
    Holds (Jokerix.kfree h ptr) (blocks.filter fun b => ¬ Frees h ptr b) ∧
      (Jokerix.kfree h ptr).mem = h.mem ∧ (Jokerix.kfree h ptr).region = h.region ∧
      ((∀ b ∈ blocks, ¬ Frees h ptr b) → Jokerix.kfree h ptr = h) := by
  obtain ⟨nodes, hnd, hr, rfl⟩ := hh
  by_cases hex : ∃ a ∈ nodes, Frees h ptr (nodeAddr h.region.base a, nodeBytes a)
  · obtain ⟨a, ha, hfrees⟩ := hex
    have ha' := List.mem_toFinset.mpr ha
    obtain ⟨hr', hm, hreg⟩ := kfree_inside hr ha' hfrees.1 hfrees.2.1 hfrees.2.2
    refine ⟨⟨nodes.filter fun p => p ≠ a, hnd.filter _, ?_, ?_⟩, hm, hreg, ?_⟩
    · have hset : (nodes.filter fun p => p ≠ a).toFinset = nodes.toFinset.erase a := by
        ext p
        simp [and_comm]
      rw [hset]
      exact hr'
    · rw [hreg]
      apply filter_map_of_iff
      intro p hp
      refine ⟨fun hpf => ?_, fun heq => by rw [heq]; exact hfrees⟩
      by_contra hne
      -- the ranges of two live nodes have no address in common
      have hp' := List.mem_toFinset.mpr hp
      have hsep := nodeAddr_disjoint h.region.base (hr.node p hp') (hr.node a ha')
        (fun hab => hne (hr.antichain p hp' a ha' hab))
        (fun hab => hne (hr.antichain a ha' p hp' hab).symm)
      simp only [Frees] at hpf hfrees
      omega
    · exact fun hno => absurd hfrees (hno _ (List.mem_map_of_mem ha))
  · push Not at hex
    have hsame : Jokerix.kfree h ptr = h := by
      by_cases hlow : ptr < h.region.base
      · rw [Jokerix.kfree, if_pos hlow]
      · by_cases hlast : ptr > h.region.base + kernelHeapSize - minBlockSize
        · rw [Jokerix.kfree, if_neg hlow, if_pos hlast]
        · have hocc := hr.not_occupied_of_ptr (by omega : h.region.base ≤ ptr) (by omega)
            fun p hp => hex p (List.mem_toFinset.mp hp)
          have hpos : 0 < h.tree.size := by rw [hr.size]; exact Nat.two_pow_pos _
          rw [Jokerix.kfree, if_neg hlow, if_neg hlast, buddyFree_of_not_occupied hpos hocc]
    rw [hsame]
    refine ⟨⟨nodes, hnd, hr, ?_⟩, rfl, rfl, fun _ => rfl⟩
    rw [List.filter_eq_self]
    intro b hb
    obtain ⟨a, ha, rfl⟩ := List.mem_map.mp hb
    simpa using hex a ha

instance : Std.Symm Apart := ⟨fun _ _ hxy => hxy.symm⟩

/-- Two live allocations with a common address are one. -/
lemma Holds.eq_of_mem (hh : Holds h blocks) {b c : ℕ × ℕ} (hb : b ∈ blocks) (hc : c ∈ blocks)
    (hb1 : b.1 ≤ ptr) (hb2 : ptr < b.1 + b.2) (hc1 : c.1 ≤ ptr) (hc2 : ptr < c.1 + c.2) :
    b = c := by
  by_contra hne
  have hapart := hh.pairwise_apart.forall hb hc hne
  simp only [Apart] at hapart
  omega

/-- No index outside `longest` is read. -/
lemma Holds.kfreeReads_lt (hh : Holds h blocks) : ∀ i ∈ kfreeReads h ptr, i < buddyNodeNum := by
  obtain ⟨nodes, _, hr, _⟩ := hh
  intro i hi
  simp only [kfreeReads] at hi
  split_ifs at hi with hlow hlast
  · cases hi
  · cases hi
  · have hsize := hr.size
    have hlt : (ptr - h.region.base) / minBlockSize < h.tree.size := by
      rw [hsize]
      simp only [kernelHeapSize, minBlockSize, heapDepth] at *
      omega
    have := buddyFreeReads_lt hlt i hi
    rw [hsize] at this
    exact this

end

/-! ### Runs -/

/-- The calls of a run: `kfree` may get any pointer. -/
inductive HeapCall where
  | kalloc (size : BitVec 32)
  | kfree (ptr : BitVec 64)

/-- The heap together with the live allocations: their addresses and the bytes reserved for them. -/
structure HeapBlocks where
  heap : KernelHeap
  blocks : List (ℕ × ℕ)

/-- One call; `none` for a `kalloc` that panics. A `kalloc` of at most `0` bytes does nothing. -/
def callStep (s : HeapBlocks) : HeapCall → Option HeapBlocks
  | .kalloc size =>
    match kalloc s.heap size with
    | .ok (ptr, heap) =>
      some ⟨heap, if size.toInt ≤ 0 then s.blocks else (ptr, kallocBytes size) :: s.blocks⟩
    | .error _ => none
  | .kfree ptr =>
    some ⟨kfree s.heap ptr.toNat, s.blocks.filter fun b => ¬ Frees s.heap ptr.toNat b⟩

def callRun (s : HeapBlocks) (calls : List HeapCall) : Option HeapBlocks :=
  calls.foldlM callStep s

lemma callRun_kalloc {h heap : KernelHeap} {blocks : List (ℕ × ℕ)} {size : BitVec 32} {ptr : ℕ}
    (hpos : 0 < size.toInt) (hok : kalloc h size = .ok (ptr, heap)) (calls : List HeapCall) :
    callRun ⟨h, blocks⟩ (.kalloc size :: calls) =
      callRun ⟨heap, (ptr, kallocBytes size) :: blocks⟩ calls := by
  rw [callRun, List.foldlM_cons, callStep, hok]
  simp only [if_neg (not_le.mpr hpos)]
  rfl

/-- Step lemma: the blocks of the state are the ones the heap holds. -/
lemma Holds.callStep {s s' : HeapBlocks} {call : HeapCall} (hh : Holds s.heap s.blocks)
    (hs : Jokerix.callStep s call = some s') :
    Holds s'.heap s'.blocks ∧ s'.heap.region = s.heap.region := by
  cases call with
  | kalloc size =>
    simp only [Jokerix.callStep] at hs
    rcases hok : Jokerix.kalloc s.heap size with e | ⟨ptr, heap⟩
    · rw [hok] at hs
      cases hs
    · rw [hok] at hs
      cases hs
      by_cases hpos : size.toInt ≤ 0
      · rw [Jokerix.kalloc, if_pos hpos] at hok
        cases hok
        simpa only [if_pos hpos, and_true] using hh
      · obtain ⟨hh', _, hreg, _⟩ := hh.kalloc (by omega) hok
        simpa only [if_neg hpos] using ⟨hh', hreg⟩
  | kfree ptr =>
    cases hs
    obtain ⟨hh', _, hreg, _⟩ := hh.kfree_any ptr.toNat
    exact ⟨hh', hreg⟩

/-- Run lemma. -/
lemma Holds.callRun {s s' : HeapBlocks} {calls : List HeapCall} (hh : Holds s.heap s.blocks)
    (hs : Jokerix.callRun s calls = some s') :
    Holds s'.heap s'.blocks ∧ s'.heap.region = s.heap.region := by
  induction calls generalizing s with
  | nil =>
    cases hs
    exact ⟨hh, rfl⟩
  | cons call calls ih =>
    rw [Jokerix.callRun, List.foldlM_cons, Option.bind_eq_bind, Option.bind_eq_some_iff] at hs
    obtain ⟨s₁, h₁, hs⟩ := hs
    obtain ⟨hh₁, hreg₁⟩ := hh.callStep h₁
    obtain ⟨hh', hreg'⟩ := ih hh₁ hs
    exact ⟨hh', hreg'.trans hreg₁⟩

/-- A heap with a live allocation is not one without. -/
lemma Holds.ne_nil {h : KernelHeap} {blocks : List (ℕ × ℕ)} (hh : Holds h blocks)
    (hempty : Holds h []) : blocks = [] := by
  obtain ⟨nodes, _, hr, rfl⟩ := hh
  obtain ⟨nodes', _, hr', hnil⟩ := hempty
  obtain rfl : nodes' = [] := List.map_eq_nil_iff.mp hnil.symm
  have hroot : IsNode heapDepth 1 := ⟨le_refl 1, Nat.one_lt_two_pow (by decide)⟩
  have hfull : nodeRun heapDepth ([] : List ℕ).toFinset 1 = 2 ^ height heapDepth 1 :=
    nodeRun_full (by simp)
  have hsame := hr.entry 1 hroot
  rw [hr'.entry 1 hroot, hfull] at hsame
  rcases nodes with _ | ⟨p, nodes⟩
  · rfl
  · have hp : p ∈ (p :: nodes).toFinset := by simp
    have hlt := hr.toLiveSet.nodeRun_lt hp hroot (above_one (hr.node p hp).1)
    omega

/-- In every heap that calls lead to, for every pointer: outside `HEAP`, behind the first byte of
its last block or in no live allocation, `kfree` changes nothing. Otherwise exactly the allocation
that the pointer lies in becomes free. The search stops and every index read is one of `longest`. -/
theorem kfree_any_exact (h : KernelHeap) (calls : List HeapCall) (s : HeapBlocks)
    (hrun : callRun ⟨initHeap h, []⟩ calls = some s) (ptr : BitVec 64) :
    Holds s.heap s.blocks ∧
    (ptr.toNat < h.region.base ∨ h.region.base + kernelHeapSize - minBlockSize < ptr.toNat ∨
      (∀ b ∈ s.blocks, ¬ (b.1 ≤ ptr.toNat ∧ ptr.toNat < b.1 + b.2)) →
      kfree s.heap ptr.toNat = s.heap) ∧
    (∀ b ∈ s.blocks, b.1 ≤ ptr.toNat → ptr.toNat < b.1 + b.2 →
      ptr.toNat ≤ h.region.base + kernelHeapSize - minBlockSize →
      Holds (kfree s.heap ptr.toNat) (s.blocks.filter fun c => c ≠ b) ∧
        (kfree s.heap ptr.toNat).mem = s.heap.mem ∧
        (kfree s.heap ptr.toNat).region = s.heap.region) ∧
    (∀ i ∈ kfreeReads s.heap ptr.toNat, i < buddyNodeNum) ∧
    ∀ index, ∃ i, (buddyFreeSearchReads s.heap.tree.longest (index + 1) index).getLast? = some i ∧
      (s.heap.tree.longest i = 0 ∨ i = 0) := by
  obtain ⟨hh, hreg⟩ := (holds_initHeap h).callRun (s := ⟨initHeap h, []⟩) hrun
  have hreg : s.heap.region = h.region := hreg
  obtain ⟨hfree, hm, hreg', hnone⟩ := hh.kfree_any ptr.toNat
  refine ⟨hh, ?_, ?_, hh.kfreeReads_lt, fun index => buddyFreeSearchReads_last _ _ (by omega)⟩
  · intro hout
    apply hnone
    rintro b hb ⟨h1, h2, h3⟩
    rw [hreg] at h3
    rcases hout with hlow | hlast | hno
    · have := (hh.inside hb).2.1
      rw [hreg] at this
      omega
    · omega
    · exact hno b hb ⟨h1, h2⟩
  · intro b hb h1 h2 h3
    refine ⟨?_, hm, hreg'⟩
    have heq : (s.blocks.filter fun c => c ≠ b) =
        s.blocks.filter fun c => ¬ Frees s.heap ptr.toNat c := by
      apply List.filter_congr
      intro c hc
      rw [decide_eq_decide]
      refine not_congr ⟨fun hcb => ?_, fun hcf => ?_⟩
      · rw [hcb]
        exact ⟨h1, h2, hreg ▸ h3⟩
      · exact hh.eq_of_mem hc hb hcf.1 hcf.2.1 h1 h2
    rw [heq]
    exact hfree

/-- The heap after one `kalloc` on the empty heap, and its only block. -/
lemma exists_callRun_kalloc (size : BitVec 32) (hpos : 0 < size.toInt)
    (hle : kallocBlocks size ≤ heapBlockNum) : ∃ s ptr,
      callRun ⟨initHeap sampleHeap, []⟩ [.kalloc size] = some s ∧
        s.blocks = [(ptr, kallocBytes size)] ∧ Holds s.heap s.blocks ∧
        s.heap.region = sampleHeap.region := by
  obtain ⟨ptr, heap, hok⟩ := (holds_initHeap sampleHeap).kalloc_of_empty hpos hle
  obtain ⟨hh, _, hreg, _⟩ := (holds_initHeap sampleHeap).kalloc hpos hok
  refine ⟨⟨heap, [(ptr, kallocBytes size)]⟩, ptr, ?_, rfl, hh, hreg⟩
  simp only [callRun, List.foldlM_cons, List.foldlM_nil, callStep, hok]
  rw [if_neg (by omega)]
  rfl

/-- Of the block of `kalloc(100)` the address five bytes on frees the whole block. -/
theorem kfree_any_exact_interior : ∃ s ptr,
    callRun ⟨initHeap sampleHeap, []⟩ [.kalloc 100] = some s ∧ s.blocks = [(ptr, 128)] ∧
      Holds (kfree s.heap (BitVec.ofNat 64 (ptr + 5)).toNat) [] := by
  have hbytes : kallocBytes 100 = 128 := by decide
  obtain ⟨s, ptr, hrun, hblocks, hh, hreg⟩ :=
    exists_callRun_kalloc 100 (by decide) (by decide)
  rw [hbytes] at hblocks
  have hmem : (ptr, 128) ∈ s.blocks := by simp [hblocks]
  obtain ⟨_, hlow, hhigh⟩ := hh.inside hmem
  have hfits := sampleHeap.region.fits
  rw [hreg] at hlow hhigh
  simp only at hlow hhigh
  have hptr : (BitVec.ofNat 64 (ptr + 5)).toNat = ptr + 5 := by
    rw [BitVec.toNat_ofNat, Nat.mod_eq_of_lt (by omega)]
  obtain ⟨_, _, hfree, _⟩ := kfree_any_exact sampleHeap _ s hrun (BitVec.ofNat 64 (ptr + 5))
  have hone := (hfree _ hmem (by rw [hptr]; omega) (by rw [hptr]; omega)
    (by rw [hptr]; simp only [minBlockSize]; omega)).1
  refine ⟨s, ptr, hrun, hblocks, ?_⟩
  rwa [hblocks, List.filter_cons_of_neg (by simp), List.filter_nil] at hone

/-- Of an allocation of the whole heap the last address frees nothing. -/
theorem kfree_last_byte_keeps : ∃ s b,
    callRun ⟨initHeap sampleHeap, []⟩ [.kalloc 0x7fffff] = some s ∧ s.blocks = [b] ∧
      b.1 ≤ (0xffffffff80bfffff : BitVec 64).toNat ∧
      (0xffffffff80bfffff : BitVec 64).toNat < b.1 + b.2 ∧
      kfree s.heap (0xffffffff80bfffff : BitVec 64).toNat = s.heap ∧
      ¬ Holds (kfree s.heap (0xffffffff80bfffff : BitVec 64).toNat) [] := by
  have hbytes : kallocBytes 0x7fffff = kernelHeapSize := by decide
  obtain ⟨s, ptr, hrun, hblocks, hh, hreg⟩ :=
    exists_callRun_kalloc 0x7fffff (by decide) (by decide)
  rw [hbytes] at hblocks
  have hmem : (ptr, kernelHeapSize) ∈ s.blocks := by simp [hblocks]
  obtain ⟨_, hlow, hhigh⟩ := hh.inside hmem
  rw [hreg] at hlow hhigh
  have hptr : (0xffffffff80bfffff : BitVec 64).toNat = 0xffffffff80bfffff := by decide
  have hbase : sampleHeap.region.base = 0xffffffff80400000 := rfl
  simp only [hbase, kernelHeapSize] at hlow hhigh
  have hsame : kfree s.heap (0xffffffff80bfffff : BitVec 64).toNat = s.heap := by
    rw [hptr, kfree, hreg, hbase, if_neg (by decide), if_pos (by decide)]
  refine ⟨s, (ptr, kernelHeapSize), hrun, hblocks, ?_, ?_, hsame, fun hempty => ?_⟩
  · rw [hptr]
    simp only
    omega
  · rw [hptr]
    simp only [kernelHeapSize]
    omega
  · rw [hsame] at hempty
    have := hh.ne_nil hempty
    rw [hblocks] at this
    cases this

end Jokerix
