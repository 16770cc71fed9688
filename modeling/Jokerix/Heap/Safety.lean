import Jokerix.Heap.Room

/-!
# Runs of the kernel heap

Every run of `kalloc` and `kfree` from `initHeap` keeps the blocks apart, whatever the clients write
to memory in between.
-/

namespace Jokerix

/-! ### Runs -/

/-- The calls of a run. `write` stands for whatever the clients store between two calls. -/
inductive HeapOp where
  | kalloc (size : BitVec 32)
  | kfree (ptr : ℕ)
  | write (addr : ℕ) (value : UInt8)

/-- The heap together with the pointers obtained and not yet freed, each with its size. -/
structure HeapState where
  heap : KernelHeap
  live : List (ℕ × BitVec 32)

/-- One call; `none` for a call that is not allowed and for a `kalloc` that panics. -/
def heapStep (s : HeapState) : HeapOp → Option HeapState
  | .kalloc size =>
    if 0 < size.toInt then
      match kalloc s.heap size with
      | .ok (ptr, heap) => some ⟨heap, (ptr, size) :: s.live⟩
      | .error _ => none
    else none
  | .kfree ptr =>
    if ptr ∈ s.live.map Prod.fst then
      some ⟨kfree s.heap ptr, s.live.filter fun b => b.1 ≠ ptr⟩
    else none
  | .write addr value =>
    some { s with heap := { s.heap with mem := Function.update s.heap.mem addr value } }

/-- A sequence of calls. -/
def heapRun (s : HeapState) : List HeapOp → Option HeapState
  | [] => some s
  | op :: ops => (heapStep s op).bind fun s => heapRun s ops

lemma heapRun_kalloc {h heap : KernelHeap} {live : List (ℕ × BitVec 32)} {size : BitVec 32}
    {ptr : ℕ} (hpos : 0 < size.toInt) (hok : kalloc h size = .ok (ptr, heap)) (ops : List HeapOp) :
    heapRun ⟨h, live⟩ (.kalloc size :: ops) = heapRun ⟨heap, (ptr, size) :: live⟩ ops := by
  rw [heapRun, heapStep, if_pos hpos, hok]
  rfl

/-- The invariant of runs. -/
def HeapInv (s : HeapState) : Prop :=
  Holds s.heap (s.live.map fun b => (b.1, kallocBytes b.2)) ∧ ∀ b ∈ s.live, 0 < b.2.toInt

/-- Step lemma: a call keeps the invariant and the place of the heap. -/
lemma HeapInv.step {s s' : HeapState} {op : HeapOp} (hi : HeapInv s)
    (hs : heapStep s op = some s') : HeapInv s' ∧ s'.heap.region = s.heap.region := by
  obtain ⟨hh, hsize⟩ := hi
  cases op with
  | kalloc size =>
    simp only [heapStep] at hs
    split_ifs at hs with hpos
    split at hs
    · rename_i ptr heap hok
      cases hs
      obtain ⟨hh', _, hreg, _⟩ := hh.kalloc hpos hok
      refine ⟨⟨hh', ?_⟩, hreg⟩
      intro b hb
      rcases List.mem_cons.mp hb with rfl | hb
      · exact hpos
      · exact hsize b hb
    · cases hs
  | kfree ptr =>
    simp only [heapStep] at hs
    split_ifs at hs with hmem
    cases hs
    have hmem' : ptr ∈ (s.live.map fun b => (b.1, kallocBytes b.2)).map Prod.fst := by
      simpa [List.map_map, Function.comp_def] using hmem
    obtain ⟨hh', _, hreg⟩ := hh.kfree hmem'
    refine ⟨⟨?_, fun b hb => hsize b (List.mem_of_mem_filter hb)⟩, hreg⟩
    rw [List.filter_map] at hh'
    exact hh'
  | write addr value =>
    simp only [heapStep] at hs
    cases hs
    exact ⟨⟨hh.setMem _, hsize⟩, rfl⟩

/-- Run lemma. -/
lemma HeapInv.run {s s' : HeapState} {ops : List HeapOp} (hi : HeapInv s)
    (hs : heapRun s ops = some s') : HeapInv s' ∧ s'.heap.region = s.heap.region := by
  induction ops generalizing s with
  | nil =>
    cases hs
    exact ⟨hi, rfl⟩
  | cons op ops ih =>
    simp only [heapRun, Option.bind_eq_some_iff] at hs
    obtain ⟨s₁, h1, h2⟩ := hs
    obtain ⟨hi₁, hreg₁⟩ := hi.step h1
    obtain ⟨hi', hreg'⟩ := ih hi₁ h2
    exact ⟨hi', hreg'.trans hreg₁⟩

lemma heapInv_init (h : KernelHeap) : HeapInv ⟨initHeap h, []⟩ :=
  ⟨holds_initHeap h, by simp⟩

/-- The range reserved for a live pointer, which is the range its `kalloc` cleared. -/
def reserved (b : ℕ × BitVec 32) : Set ℕ := Set.Ico b.1 (b.1 + kallocBytes b.2)

lemma disjoint_reserved_iff {x y : ℕ × BitVec 32}
    (h : Apart (x.1, kallocBytes x.2) (y.1, kallocBytes y.2)) :
    Disjoint (reserved x) (reserved y) := by
  rw [Set.disjoint_left]
  intro a hx hy
  simp only [reserved, Set.mem_Ico] at hx hy
  simp only [Apart] at h
  omega

/-- Safety of the kernel heap over whole runs: live allocations lie inside `HEAP` and their
reserved ranges are disjoint, and a further `kalloc` clears the bytes it returns and no byte of
another live allocation. -/
theorem kernelHeap_safe (h : KernelHeap) (ops : List HeapOp) (s : HeapState)
    (hrun : heapRun ⟨initHeap h, []⟩ ops = some s) :
    (∀ b ∈ s.live, h.region.base ≤ b.1 ∧
      (b.1 : ℤ) + b.2.toInt ≤ h.region.base + kernelHeapSize) ∧
    s.live.Pairwise (fun x y => Disjoint (reserved x) (reserved y)) ∧
    (∀ b ∈ s.live, ∀ x : ℕ, b.1 ≤ x → (x : ℤ) < b.1 + b.2.toInt → x ∈ reserved b) ∧
    ∀ (size : BitVec 32) (ptr : ℕ) (heap : KernelHeap), 0 < size.toInt →
      kalloc s.heap size = .ok (ptr, heap) →
      (∀ x : ℕ, ptr ≤ x → (x : ℤ) < ptr + size.toInt → heap.mem x = 0) ∧
      ∀ b ∈ s.live, ∀ x ∈ reserved b, heap.mem x = s.heap.mem x := by
  obtain ⟨⟨hh, hsize⟩, hreg⟩ := (heapInv_init h).run hrun
  have hreg : s.heap.region = h.region := hreg
  refine ⟨?_, ?_, ?_, ?_⟩
  · intro b hb
    obtain ⟨_, h1, h2⟩ := hh.inside (List.mem_map_of_mem hb)
    have hle := le_kallocBytes (hsize b hb)
    rw [hreg] at h1 h2
    simp only at h1 h2
    exact ⟨h1, by omega⟩
  · have hp := hh.pairwise_apart
    rw [List.pairwise_map] at hp
    exact hp.imp disjoint_reserved_iff
  · intro b hb x h1 h2
    have hle := le_kallocBytes (hsize b hb)
    simp only [reserved, Set.mem_Ico]
    omega
  · intro size ptr heap hpos hok
    obtain ⟨_, hapart, _, hmem⟩ := hh.kalloc hpos hok
    have hle := le_kallocBytes hpos
    rw [hmem]
    constructor
    · intro x h1 h2
      exact Bytes.fill_of_mem h1 (by omega)
    · intro b hb x hx
      have hab := hapart _ (List.mem_map_of_mem hb)
      simp only [Apart, reserved, Set.mem_Ico] at hab hx
      exact Bytes.fill_of_not_mem (by omega)

/-- A heap at a fixed place, before `initHeap`. -/
def sampleHeap : KernelHeap where
  region := ⟨0xffffffff80400000, by decide, by decide⟩
  tree := ⟨0, fun _ => 0⟩
  mem := fun _ => 0

/-- A block of 100 bytes and one of 5000, of which the first is freed. -/
theorem kernelHeap_safe_kfree : ∃ s₂ s₃ p q,
    heapRun ⟨initHeap sampleHeap, []⟩ [.kalloc 100, .kalloc 5000] = some s₂ ∧
    s₂.live = [(q, 5000), (p, 100)] ∧ Disjoint (reserved (q, 5000)) (reserved (p, 100)) ∧
    heapRun ⟨initHeap sampleHeap, []⟩ [.kalloc 100, .kalloc 5000, .kfree p] = some s₃ ∧
    s₃.live = [(q, 5000)] ∧ sampleHeap.region.base ≤ q ∧
    q + 5000 ≤ sampleHeap.region.base + kernelHeapSize := by
  obtain ⟨p, h₁, hp, _, hh₁, hroom⟩ := (holds_initHeap sampleHeap).kalloc_roomy (n := 0) 100
    ⟨le_rfl, by simp⟩ (by decide) (by decide) (by decide)
  obtain ⟨q, h₂, hq, _, hh₂, _⟩ := hh₁.kalloc_roomy 5000 hroom (by decide) (by decide) (by decide)
  have hrun : ∀ ops, heapRun ⟨initHeap sampleHeap, []⟩ (.kalloc 100 :: .kalloc 5000 :: ops) =
      heapRun ⟨h₂, [(q, 5000), (p, 100)]⟩ ops := fun ops => by
    rw [heapRun_kalloc (by decide) hp, heapRun_kalloc (by decide) hq]
  have hrun₂ := hrun []
  obtain ⟨_, hpairwise, _⟩ := kernelHeap_safe sampleHeap _ _ hrun₂
  have hdisjoint : Disjoint (reserved (q, 5000)) (reserved (p, 100)) :=
    (List.pairwise_cons.mp hpairwise).1 _ List.mem_cons_self
  have hne : q ≠ p := by
    rintro rfl
    obtain ⟨hpos, _⟩ := hh₂.inside List.mem_cons_self
    obtain ⟨hpos', _⟩ := hh₂.inside (List.mem_cons_of_mem _ List.mem_cons_self)
    exact Set.disjoint_left.mp hdisjoint ⟨le_rfl, Nat.lt_add_of_pos_right hpos⟩
      ⟨le_rfl, Nat.lt_add_of_pos_right hpos'⟩
  have hrun₃ : heapRun ⟨initHeap sampleHeap, []⟩ [.kalloc 100, .kalloc 5000, .kfree p] =
      some ⟨kfree h₂ p, [(q, 5000)]⟩ := by
    rw [hrun, heapRun, heapStep, if_pos (by simp), Option.bind_some, heapRun]
    simp [hne]
  obtain ⟨hinside, _⟩ := kernelHeap_safe sampleHeap _ _ hrun₃
  obtain ⟨h1, h2⟩ := hinside (q, 5000) List.mem_cons_self
  rw [show (5000 : BitVec 32).toInt = 5000 by decide] at h2
  exact ⟨_, _, p, q, hrun₂, rfl, hdisjoint, hrun₃, rfl, h1, by exact_mod_cast h2⟩

end Jokerix
