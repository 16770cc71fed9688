import Jokerix.User.Malloc
import Jokerix.Heap.Safety

/-!
# Runs of the user heap

Sequences of `malloc` and `free` calls of a user program after `initHeap`. Live ranges lie inside
`HEAP` and are disjoint, a new range is zero, and `malloc` fails exactly when no aligned run of
blocks of the rounded size is free.
-/

namespace Jokerix.User

open TreeArray

/-- The live allocations of the heap, each the byte range of one live node. -/
def Holds (h : UserHeap) (blocks : List (ℕ × ℕ)) : Prop :=
  ∃ nodes : List ℕ, nodes.Nodup ∧ Represents heapDepth nodes.toFinset h.tree ∧
    blocks = nodes.map (nodeRange h.region.base)

section
variable {h h' : UserHeap} {blocks : List (ℕ × ℕ)} {size : BitVec 32} {ptr : ℕ}

lemma holds_initHeap (h : UserHeap) : Holds (initHeap h) [] :=
  ⟨[], List.nodup_nil, by simpa using initHeap_represents h, rfl⟩

lemma Holds.inside (hh : Holds h blocks) {b : ℕ × ℕ} (hb : b ∈ blocks) :
    0 < b.2 ∧ h.region.base ≤ b.1 ∧ b.1 + b.2 ≤ h.region.base + userHeapSize := by
  obtain ⟨nodes, _, hr, rfl⟩ := hh
  obtain ⟨p, hp, rfl⟩ := List.mem_map.mp hb
  exact nodeRange_inside _ (hr.node p (List.mem_toFinset.mpr hp))

/-- Distinct live nodes have disjoint byte ranges. -/
lemma nodeRange_apart {live : Finset ℕ} (hl : LiveSet heapDepth live) (base : ℕ) {p q : ℕ}
    (hp : p ∈ live) (hq : q ∈ live) (hne : p ≠ q) :
    Apart (nodeRange base p) (nodeRange base q) := by
  have hsep := nodeBlock_separate (hl.node p hp) (hl.node q hq)
    (fun hab => hne (hl.antichain p hp q hq hab))
    (fun hab => hne (hl.antichain q hq p hp hab).symm)
  simp only [Apart, nodeRange, minBlockSize]
  omega

lemma Holds.pairwise_apart (hh : Holds h blocks) : blocks.Pairwise Apart := by
  obtain ⟨nodes, hnd, hr, rfl⟩ := hh
  rw [List.pairwise_map]
  apply hnd.imp_of_mem
  intro p q hp hq hne
  exact nodeRange_apart hr.toLiveSet _ (List.mem_toFinset.mpr hp) (List.mem_toFinset.mpr hq) hne

/-- What a successful `malloc` does: one new block, its bytes cleared, nothing else changed. -/
theorem Holds.malloc (hh : Holds h blocks) (hsize : size ≠ 0)
    (hok : malloc h size = .ok (ptr, h')) :
    Holds h' ((ptr, mallocBytes size) :: blocks) ∧ size.toNat ≤ mallocBytes size ∧
      h'.region = h.region ∧ h'.mem = Bytes.fill h.mem ptr (mallocBytes size) 0 := by
  obtain ⟨nodes, hnd, hr, rfl⟩ := hh
  rcases malloc_spec hr hsize with ⟨_, hfail⟩ | ⟨_, p, tree, _, hun, hrange, hbytes, hr', hok'⟩
  · rw [hfail] at hok
    cases hok
  · rw [hok', Except.ok.injEq, Prod.mk.injEq] at hok
    obtain ⟨rfl, rfl⟩ := hok
    have hnew : p ∉ nodes := fun hmem => hun p (List.mem_toFinset.mpr hmem) (Above.refl p)
    refine ⟨⟨p :: nodes, List.nodup_cons.mpr ⟨hnew, hnd⟩, by simpa using hr', ?_⟩, ?_, rfl, rfl⟩
    · rw [List.map_cons, ← hrange]
    · obtain ⟨_, _, hle, _⟩ := mallocBlocks_bounds hsize
      have hclog := Nat.le_pow_clog (by omega : 1 < 2) (mallocBlocks size).toNat
      rw [hbytes]
      exact hle.trans (Nat.mul_le_mul_right _ hclog)

/-- What `free` of a live pointer does: its block is gone, nothing else changed. -/
theorem Holds.free (hh : Holds h blocks) (hmem : ptr ∈ blocks.map Prod.fst) :
    Holds (free h ptr) (blocks.filter fun b => b.1 ≠ ptr) ∧ (free h ptr).mem = h.mem ∧
      (free h ptr).region = h.region := by
  obtain ⟨nodes, hnd, hr, rfl⟩ := hh
  simp only [List.map_map, List.mem_map, Function.comp_apply] at hmem
  obtain ⟨a, ha, rfl⟩ := hmem
  have ha' := List.mem_toFinset.mpr ha
  obtain ⟨hr', hm, hreg⟩ := free_spec hr ha'
  refine ⟨⟨nodes.filter fun p => p ≠ a, hnd.filter _, ?_, ?_⟩, hm, hreg⟩
  · have hset : (nodes.filter fun p => p ≠ a).toFinset = nodes.toFinset.erase a := by
      ext p
      simp [and_comm]
    rw [hset]
    exact hr'
  · rw [hreg]
    apply filter_map_ne
    intro p hp heq
    by_contra hne
    have hp' := List.mem_toFinset.mpr hp
    have hapart := nodeRange_apart hr.toLiveSet h.region.base hp' ha' hne
    have h1 := (nodeRange_inside h.region.base (hr.node p hp')).1
    have h2 := (nodeRange_inside h.region.base (hr.node a ha')).1
    simp only [Apart] at hapart
    omega

end

/-! ### Runs -/

/-- The calls of a run. `write` stands for whatever the program stores in its memory. -/
inductive HeapOp where
  | malloc (size : BitVec 32)
  | free (ptr : ℕ)
  | write (addr : ℕ) (value : UInt8)

/-- The heap together with the pointers obtained and not yet freed, each with its size. -/
structure HeapState where
  heap : UserHeap
  live : List (ℕ × BitVec 32)

/-- One call; `none` for a call that is not allowed and for a `malloc` that panics. -/
def heapStep (s : HeapState) : HeapOp → Option HeapState
  | .malloc size =>
    if size ≠ 0 then
      match malloc s.heap size with
      | .ok (ptr, heap) => some ⟨heap, (ptr, size) :: s.live⟩
      | .error _ => none
    else none
  | .free ptr =>
    if ptr ∈ s.live.map Prod.fst then
      some ⟨free s.heap ptr, s.live.filter fun b => b.1 ≠ ptr⟩
    else none
  | .write addr value =>
    some { s with heap := { s.heap with mem := Function.update s.heap.mem addr value } }

def heapRun (s : HeapState) (ops : List HeapOp) : Option HeapState := ops.foldlM heapStep s

/-- The invariant of runs. -/
structure HeapInv (s : HeapState) : Prop where
  holds : Holds s.heap (s.live.map fun b => (b.1, mallocBytes b.2))
  covers : ∀ b ∈ s.live, b.2.toNat ≤ mallocBytes b.2

/-- Step lemma: a call keeps the invariant and the place of the heap. -/
lemma HeapInv.step {s s' : HeapState} {op : HeapOp} (hi : HeapInv s)
    (hs : heapStep s op = some s') : HeapInv s' ∧ s'.heap.region = s.heap.region := by
  obtain ⟨hh, hcov⟩ := hi
  cases op with
  | malloc size =>
    simp only [heapStep] at hs
    split_ifs at hs with hsize
    rcases hok : malloc s.heap size with e | ⟨ptr, heap⟩
    · rw [hok] at hs
      cases hs
    · rw [hok] at hs
      cases hs
      obtain ⟨hh', hle, hreg, _⟩ := hh.malloc hsize hok
      refine ⟨⟨hh', ?_⟩, hreg⟩
      intro b hb
      rcases List.mem_cons.mp hb with rfl | hb
      · exact hle
      · exact hcov b hb
  | free ptr =>
    simp only [heapStep] at hs
    split_ifs at hs with hmem
    cases hs
    have hmem' : ptr ∈ (s.live.map fun b => (b.1, mallocBytes b.2)).map Prod.fst := by
      simpa [List.map_map, Function.comp_def] using hmem
    obtain ⟨hh', _, hreg⟩ := hh.free hmem'
    refine ⟨⟨?_, fun b hb => hcov b (List.mem_of_mem_filter hb)⟩, hreg⟩
    rw [List.filter_map] at hh'
    exact hh'
  | write addr value =>
    cases hs
    exact ⟨⟨hh, hcov⟩, rfl⟩

/-- Run lemma. -/
lemma HeapInv.run {s s' : HeapState} {ops : List HeapOp} (hi : HeapInv s)
    (hs : heapRun s ops = some s') : HeapInv s' ∧ s'.heap.region = s.heap.region := by
  induction ops generalizing s with
  | nil =>
    cases hs
    exact ⟨hi, rfl⟩
  | cons op ops ih =>
    rw [heapRun, List.foldlM_cons, Option.bind_eq_bind, Option.bind_eq_some_iff] at hs
    obtain ⟨s₁, h1, h2⟩ := hs
    obtain ⟨hi₁, hreg₁⟩ := hi.step h1
    obtain ⟨hi', hreg'⟩ := ih hi₁ h2
    exact ⟨hi', hreg'.trans hreg₁⟩

lemma heapInv_init (h : UserHeap) : HeapInv ⟨initHeap h, []⟩ :=
  ⟨holds_initHeap h, by simp⟩

/-! ### The contract -/

/-- The range reserved for a live pointer, which is the range its `malloc` cleared. -/
def reserved (b : ℕ × BitVec 32) : Set ℕ := Set.Ico b.1 (b.1 + mallocBytes b.2)

/-- `k` blocks of `HEAP` from block `o` on are aligned and meet no live range. -/
def FreeBlocks (s : HeapState) (k o : ℕ) : Prop :=
  k ∣ o ∧ o + k ≤ heapBlockNum ∧ ∀ b ∈ s.live, Disjoint (reserved b)
    (Set.Ico (s.heap.region.base + o * minBlockSize) (s.heap.region.base + (o + k) * minBlockSize))

/-- The free runs of blocks are those of the tree. -/
lemma freeBlocks_iff {s : HeapState} {nodes : List ℕ} {k o : ℕ} (hk : 0 < k)
    (hr : Represents heapDepth nodes.toFinset s.heap.tree)
    (hmap : (s.live.map fun b => (b.1, mallocBytes b.2)) =
      nodes.map (nodeRange s.heap.region.base)) :
    FreeBlocks s k o ↔ WhollyFree s.heap.tree k o := by
  rw [hr.whollyFree_iff, FreeBlocks, heapBlockNum_eq]
  refine and_congr_right fun _ => and_congr_right fun _ => ?_
  -- a live range is the byte range of a live node
  have hbytes : ∀ a ∈ nodes, (Disjoint (blockSet (nodeBlock heapDepth a)) (blockSet (o, k)) ↔
      Disjoint (Set.Ico (nodeRange s.heap.region.base a).1
          ((nodeRange s.heap.region.base a).1 + (nodeRange s.heap.region.base a).2))
        (Set.Ico (s.heap.region.base + o * minBlockSize)
          (s.heap.region.base + (o + k) * minBlockSize))) := by
    intro a _
    have hpos : 0 < (nodeBlock heapDepth a).2 := Nat.two_pow_pos _
    simp only [blockSet, nodeRange, minBlockSize, Set.Ico_disjoint_Ico]
    omega
  constructor
  · intro hlive a ha
    have ha' := List.mem_toFinset.mp ha
    have hmem : nodeRange s.heap.region.base a ∈ s.live.map fun b => (b.1, mallocBytes b.2) := by
      rw [hmap]
      exact List.mem_map_of_mem ha'
    obtain ⟨b, hb, heq⟩ := List.mem_map.mp hmem
    have hdis := hlive b hb
    rw [hbytes a ha', ← heq]
    exact hdis
  · intro hnodes b hb
    have hmem : (b.1, mallocBytes b.2) ∈ nodes.map (nodeRange s.heap.region.base) := by
      rw [← hmap]
      exact List.mem_map_of_mem (f := fun b : ℕ × BitVec 32 => (b.1, mallocBytes b.2)) hb
    obtain ⟨a, ha, heq⟩ := List.mem_map.mp hmem
    have hdis := (hbytes a ha).mp (hnodes a (List.mem_toFinset.mpr ha))
    rw [heq] at hdis
    exact hdis

/-- The contract of the user heap over whole runs: live ranges lie inside `HEAP` and are disjoint,
a further `malloc` clears the bytes it returns and no byte of another live allocation, and it fails
exactly when no aligned run of the rounded size is free. -/
theorem userHeap_contract (h : UserHeap) (ops : List HeapOp) (s : HeapState)
    (hrun : heapRun ⟨initHeap h, []⟩ ops = some s) :
    (∀ b ∈ s.live, h.region.base ≤ b.1 ∧ b.1 + b.2.toNat ≤ h.region.base + userHeapSize) ∧
    s.live.Pairwise (fun x y => Disjoint (reserved x) (reserved y)) ∧
    (∀ b ∈ s.live, Set.Ico b.1 (b.1 + b.2.toNat) ⊆ reserved b) ∧
    ∀ size : BitVec 32, size ≠ 0 →
      (∀ ptr heap, malloc s.heap size = .ok (ptr, heap) →
        (∀ x ∈ Set.Ico ptr (ptr + size.toNat), heap.mem x = 0) ∧
        ∀ b ∈ s.live, ∀ x ∈ reserved b, heap.mem x = s.heap.mem x) ∧
      ∀ k : ℕ, IsLeast {m : ℕ | m.isPowerOfTwo ∧ (size.toNat + 31) / 32 ≤ m} k →
        ((∃ e, malloc s.heap size = .error e) ↔ ¬ ∃ o, FreeBlocks s k o) ∧
        ∀ e, malloc s.heap size = .error e → e = .panic "Malloc failed!\n" := by
  obtain ⟨⟨hh, hcov⟩, hreg⟩ := (heapInv_init h).run hrun
  have hreg : s.heap.region = h.region := hreg
  have hapart := hh.pairwise_apart
  rw [List.pairwise_map] at hapart
  refine ⟨?_, hapart.imp ?_, ?_, ?_⟩
  · intro b hb
    obtain ⟨_, h1, h2⟩ := hh.inside (List.mem_map_of_mem hb)
    have hle := hcov b hb
    rw [hreg] at h1 h2
    simp only at h1 h2
    exact ⟨h1, by omega⟩
  · intro x y hxy
    simp only [Apart] at hxy
    rw [reserved, reserved, Set.Ico_disjoint_Ico]
    omega
  · intro b hb x hx
    exact ⟨hx.1, lt_of_lt_of_le hx.2 (Nat.add_le_add_left (hcov b hb) _)⟩
  · intro size hsize
    constructor
    · intro ptr heap hok
      obtain ⟨hh', hle, _, hmem⟩ := hh.malloc hsize hok
      have hnew := (List.pairwise_cons.mp hh'.pairwise_apart).1
      rw [hmem]
      constructor
      · intro x hx
        have := hx.2
        exact Bytes.fill_of_mem hx.1 (by omega)
      · intro b hb x hx
        have hab := hnew _ (List.mem_map_of_mem hb)
        simp only [Apart, reserved, Set.mem_Ico] at hab hx
        exact Bytes.fill_of_not_mem (by omega)
    · intro k hk
      obtain ⟨_, _, _, hceil⟩ := mallocBlocks_bounds hsize
      simp only [minBlockSize, Nat.reduceSub] at hceil
      rw [← hceil] at hk
      obtain rfl := hk.unique (PowTwo.isLeast_pow_clog _)
      obtain ⟨nodes, _, hr, hmap⟩ := hh
      have hfree : (∃ o, FreeBlocks s (2 ^ Nat.clog 2 (mallocBlocks size).toNat) o) ↔
          2 ^ Nat.clog 2 (mallocBlocks size).toNat ≤ nodeRun heapDepth nodes.toFinset 1 := by
        rw [← hr.exists_whollyFree_iff]
        exact exists_congr fun o => freeBlocks_iff (Nat.two_pow_pos _) hr hmap
      rw [hfree]
      rcases malloc_spec hr hsize with ⟨hlt, hfail⟩ | ⟨hge, p, tree, _, _, _, _, _, hok⟩
      · refine ⟨⟨fun _ => by omega, fun _ => ⟨_, hfail⟩⟩, fun e he => ?_⟩
        rw [hfail] at he
        cases he
        rfl
      · have hno : ∀ e, malloc s.heap size ≠ .error e := by
          intro e he
          rw [hok] at he
          cases he
        exact ⟨⟨fun herr => herr.elim fun e he => absurd he (hno e), fun hlt => absurd hge hlt⟩,
          fun e he => absurd he (hno e)⟩

/-- A heap at a fixed place, before `initHeap`. -/
def sampleHeap : UserHeap where
  region := ⟨0x12000, by decide, by decide⟩
  tree := ⟨0, fun _ => 0⟩
  mem := fun _ => 0

/-- Two blocks, of which the first is freed: a request for two thousand bytes is met with zeros, and
one for four thousand, which would need all of `HEAP`, panics. -/
theorem userHeap_contract_free : ∃ s,
    heapRun ⟨initHeap sampleHeap, []⟩ [.malloc 100, .malloc 40, .free 0x12000] = some s ∧
    s.live = [(0x12080, 40)] ∧
    (∃ ptr heap, malloc s.heap 2000 = .ok (ptr, heap) ∧
      ∀ x ∈ Set.Ico ptr (ptr + 2000), heap.mem x = 0) ∧
    ∃ e, malloc s.heap 4000 = .error e ∧ e = .panic "Malloc failed!\n" := by
  have hlive : (heapRun ⟨initHeap sampleHeap, []⟩ [.malloc 100, .malloc 40, .free 0x12000]).map
      (·.live) = some [(0x12080, 40)] := by decide +kernel
  obtain ⟨s, hrun, hlive⟩ := Option.map_eq_some_iff.mp hlive
  have hregion : s.heap.region.base = 0x12000 := by
    rw [((heapInv_init sampleHeap).run hrun).2]
    rfl
  have hreserved : reserved (0x12080, 40) = Set.Ico 0x12080 0x120c0 := by
    rw [reserved, show mallocBytes 40 = 64 by decide +kernel]
  obtain ⟨_, _, _, hsize⟩ := userHeap_contract sampleHeap _ s hrun
  refine ⟨s, hrun, hlive, ?_, ?_⟩
  · obtain ⟨hzero, hk⟩ := hsize 2000 (by decide)
    have hleast :
        IsLeast {m : ℕ | m.isPowerOfTwo ∧ ((2000 : BitVec 32).toNat + 31) / 32 ≤ m} 64 := by
      have h := PowTwo.isLeast_pow_clog 63
      rw [show 2 ^ Nat.clog 2 63 = 64 by decide] at h
      exact h
    obtain ⟨hiff, _⟩ := hk 64 hleast
    -- the second half of `HEAP` is free
    have hfree : FreeBlocks s 64 64 := by
      refine ⟨dvd_refl _, by decide, fun b hb => ?_⟩
      rw [hlive, List.mem_singleton] at hb
      rw [hb, hreserved, hregion, Set.Ico_disjoint_Ico]
      decide
    cases hok : malloc s.heap 2000 with
    | error e => exact absurd ⟨64, hfree⟩ (hiff.mp ⟨e, hok⟩)
    | ok r => exact ⟨r.1, r.2, rfl, (hzero r.1 r.2 hok).1⟩
  · obtain ⟨_, hk⟩ := hsize 4000 (by decide)
    have hleast :
        IsLeast {m : ℕ | m.isPowerOfTwo ∧ ((4000 : BitVec 32).toNat + 31) / 32 ≤ m} 128 := by
      have h := PowTwo.isLeast_pow_clog 125
      rw [show 2 ^ Nat.clog 2 125 = 128 by decide] at h
      exact h
    obtain ⟨hiff, herr⟩ := hk 128 hleast
    have hno : ¬ ∃ o, FreeBlocks s 128 o := by
      rintro ⟨o, _, hfit, hall⟩
      have hmeets := hall (0x12080, 40) (by rw [hlive]; exact List.mem_cons_self)
      obtain rfl : o = 0 := by
        simp only [heapBlockNum] at hfit
        omega
      rw [hreserved, hregion, Set.Ico_disjoint_Ico] at hmeets
      exact absurd hmeets (by decide)
    obtain ⟨e, he⟩ := hiff.mpr hno
    exact ⟨e, he, herr e he⟩

end Jokerix.User
