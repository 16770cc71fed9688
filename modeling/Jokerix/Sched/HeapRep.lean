import Jokerix.Sched.Processor

/-!
# The scheduler's share of the heap

`HeapRep` says which items the buffer and the wait queue of `STDIN` hold and which other blocks of
the heap are live. Every use the scheduler makes of the heap has a rule for it.
-/

namespace Jokerix

/-- The two queues on the heap, with their items, and the other live blocks. -/
def HeapRep (h : KernelHeap) (buf waitQueue : Queue) (items waiters : List ℕ)
    (blocks : List (ℕ × ℕ)) : Prop :=
  ∃ nodes nodes', QueueRep h.mem buf nodes ∧ QueueRep h.mem waitQueue nodes' ∧
    nodes.map Prod.snd = items ∧ nodes'.map Prod.snd = waiters ∧
    Holds h (nodeBlocks nodes ++ (nodeBlocks nodes' ++ blocks))

section
variable {h h' : KernelHeap} {buf buf' waitQueue waitQueue' : Queue} {items waiters : List ℕ}
  {blocks blocks' : List (ℕ × ℕ)} {data p n : ℕ}

lemma HeapRep.perm (hr : HeapRep h buf waitQueue items waiters blocks)
    (hp : blocks.Perm blocks') : HeapRep h buf waitQueue items waiters blocks' := by
  obtain ⟨nodes, nodes', h1, h2, h3, h4, hh⟩ := hr
  exact ⟨nodes, nodes', h1, h2, h3, h4, hh.perm ((hp.append_left _).append_left _)⟩

/-- The two queues play the same part. -/
lemma HeapRep.swap (hr : HeapRep h buf waitQueue items waiters blocks) :
    HeapRep h waitQueue buf waiters items blocks := by
  obtain ⟨nodes, nodes', h1, h2, h3, h4, hh⟩ := hr
  refine ⟨nodes', nodes, h2, h1, h4, h3, hh.perm ?_⟩
  rw [← List.append_assoc, ← List.append_assoc]
  exact List.perm_append_comm.append_right _

lemma HeapRep.isEmpty_iff (hr : HeapRep h buf waitQueue items waiters blocks) :
    isEmpty buf = true ↔ items = [] := by
  obtain ⟨nodes, nodes', h1, _, rfl, _, hh⟩ := hr
  rw [h1.isEmpty_iff hh, List.map_eq_nil_iff]

lemma HeapRep.pushBack (hr : HeapRep h buf waitQueue items waiters blocks)
    (hok : pushBack h buf data = .ok (h', buf')) :
    HeapRep h' buf' waitQueue (items ++ [data % 2 ^ 64]) waiters blocks := by
  obtain ⟨nodes, nodes', h1, h2, rfl, rfl, hh⟩ := hr
  obtain ⟨n, hh', hq, _, hframe⟩ := h1.pushBack hh hok
  refine ⟨_, nodes', hq, ?_, by simp, rfl, hh'⟩
  apply h2.congr
  intro x hx i hi1 hi2
  exact hframe _ (List.mem_append_left _ (mem_nodeBlocks hx)) i hi1 (by simp only; omega)

lemma HeapRep.popFront {d : ℕ} {ds : List ℕ}
    (hr : HeapRep h buf waitQueue (d :: ds) waiters blocks) :
    ∃ h' buf', popFront h buf = (d, h', buf') ∧ HeapRep h' buf' waitQueue ds waiters blocks := by
  obtain ⟨nodes, nodes', h1, h2, hitems, rfl, hh⟩ := hr
  obtain ⟨⟨n, v⟩, ns, rfl, rfl, rfl⟩ := List.map_eq_cons_iff.mp hitems
  obtain ⟨h', buf', hpop, hh', hq, hmem, _⟩ := h1.popFront hh
  exact ⟨h', buf', hpop, ns, nodes', hq, hmem ▸ h2, rfl, rfl, hh'⟩

lemma HeapRep.kfree (hr : HeapRep h buf waitQueue items waiters ((p, n) :: blocks)) :
    HeapRep (kfree h p) buf waitQueue items waiters blocks := by
  obtain ⟨nodes, nodes', h1, h2, h3, h4, hh⟩ := hr
  have hfront : Holds h ((p, n) :: (nodeBlocks nodes ++ (nodeBlocks nodes' ++ blocks))) := by
    apply hh.perm
    rw [← List.append_assoc, ← List.append_assoc]
    exact List.perm_middle
  obtain ⟨hh', hmem, _⟩ := hfront.kfree_cons
  exact ⟨nodes, nodes', hmem ▸ h1, hmem ▸ h2, h3, h4, hh'⟩

/-- The nodes keep their bytes when other blocks are written to. -/
lemma HeapRep.nodes_congr (mem : Bytes.Memory) {nodes nodes' : List (ℕ × ℕ)}
    (h1 : QueueRep h.mem buf nodes) (h2 : QueueRep h.mem waitQueue nodes')
    (hmem : ∀ b ∈ nodeBlocks nodes ++ nodeBlocks nodes', ∀ i, b.1 ≤ i → i < b.1 + b.2 →
      mem i = h.mem i) : QueueRep mem buf nodes ∧ QueueRep mem waitQueue nodes' := by
  constructor
  · apply h1.congr
    intro x hx i hi1 hi2
    exact hmem _ (List.mem_append_left _ (mem_nodeBlocks hx)) i hi1 (by simp only; omega)
  · apply h2.congr
    intro x hx i hi1 hi2
    exact hmem _ (List.mem_append_right _ (mem_nodeBlocks hx)) i hi1 (by simp only; omega)

lemma HeapRep.kalloc {size : BitVec 32} (hr : HeapRep h buf waitQueue items waiters blocks)
    (hpos : 0 < size.toInt) (hok : kalloc h size = .ok (p, h')) :
    HeapRep h' buf waitQueue items waiters ((p, kallocBytes size) :: blocks) := by
  obtain ⟨nodes, nodes', h1, h2, h3, h4, hh⟩ := hr
  obtain ⟨hh', hapart, _, hmem⟩ := hh.kalloc hpos hok
  obtain ⟨h1', h2'⟩ := HeapRep.nodes_congr h'.mem h1 h2 (by
    intro b hb i hi1 hi2
    rw [← List.append_assoc] at hapart
    have hab := hapart b (List.mem_append_left _ hb)
    simp only [Apart] at hab
    rw [hmem, Bytes.fill_of_not_mem (by omega)])
  refine ⟨nodes, nodes', h1', h2', h3, h4, hh'.perm ?_⟩
  rw [← List.append_assoc, ← List.append_assoc]
  exact List.perm_middle.symm

/-- A store inside a block of its own. -/
lemma HeapRep.store {a : ℕ} (hr : HeapRep h buf waitQueue items waiters ((p, n) :: blocks))
    (bs : List UInt8) (hle : p ≤ a)
    (hin : a + bs.length ≤ p + n) :
    HeapRep { h with mem := Bytes.store h.mem a bs } buf waitQueue items waiters
      ((p, n) :: blocks) := by
  obtain ⟨nodes, nodes', h1, h2, h3, h4, hh⟩ := hr
  have hpw := hh.pairwise_apart
  rw [← List.append_assoc, List.pairwise_append] at hpw
  obtain ⟨h1', h2'⟩ := HeapRep.nodes_congr (Bytes.store h.mem a bs) h1 h2 (by
    intro b hb i hi1 hi2
    have hab := hpw.2.2 b hb (p, n) List.mem_cons_self
    simp only [Apart] at hab
    rw [Bytes.store_of_not_mem (by omega)])
  exact ⟨nodes, nodes', h1', h2', h3, h4, hh.setMem _⟩

end

/-! ### Loading a program -/

/-- The bytes reserved for a kernel stack. -/
def stackBytes : ℕ := kallocBytes (BitVec.ofNat 32 kernelStackSize)

lemma kernelStackSize_le_stackBytes : kernelStackSize ≤ stackBytes := by
  have hpos : 0 < (BitVec.ofNat 32 kernelStackSize).toInt := by decide
  have hle := le_kallocBytes hpos
  have heq : (BitVec.ofNat 32 kernelStackSize).toInt = kernelStackSize := by decide
  rw [stackBytes]
  omega

lemma toInt_ofNat_pos {n : ℕ} (hn : n < 2 ^ 32) (hpos : 0 < (BitVec.ofNat 32 n).toInt) :
    (BitVec.ofNat 32 n).toInt = n := by
  rw [BitVec.toInt_eq_toNat_cond, BitVec.toNat_ofNat, Nat.mod_eq_of_lt hn] at hpos ⊢
  split_ifs at hpos ⊢ with h
  · rfl
  · norm_num at hpos hn
    omega

section
variable {h h' : KernelHeap} {buf waitQueue : Queue} {items waiters : List ℕ}
  {blocks : List (ℕ × ℕ)} {t : Thread}

lemma HeapRep.newUserThread {context : List UInt8}
    (hr : HeapRep h buf waitQueue items waiters blocks)
    (hok : newUserThread h context = .ok (t, h')) :
    HeapRep h' buf waitQueue items waiters ((t.kstack, stackBytes) :: blocks) ∧
      t.context = .user ∧ t.wait = 0 := by
  rw [Jokerix.newUserThread] at hok
  split at hok
  · cases hok
  · rename_i kstack h₁ halloc
    rw [Except.ok.injEq, Prod.mk.injEq] at hok
    obtain ⟨rfl, rfl⟩ := hok
    have hr₁ := hr.kalloc (by decide) halloc
    have hle := kernelStackSize_le_stackBytes
    have htake := List.length_take_le sizeofThreadContext context
    refine ⟨hr₁.store _ ?_ ?_, rfl, rfl⟩ <;>
      simp only [stackBytes, kernelStackSize, sizeofThreadContext] at * <;> omega

lemma HeapRep.loadProgram {prog : Program}
    (hr : HeapRep h buf waitQueue items waiters blocks) (hok : loadProgram h prog = .ok (t, h')) :
    HeapRep h' buf waitQueue items waiters ((t.kstack, stackBytes) :: blocks) ∧
      t.context = .user ∧ t.wait = 0 := by
  rw [Jokerix.loadProgram] at hok
  split_ifs at hok with hsize
  split at hok
  · cases hok
  · rename_i buffer h₁ halloc
    have hpos : 0 < (BitVec.ofNat 32 prog.file.length).toInt := by omega
    have hlen := toInt_ofNat_pos prog.size_lt hpos
    have hle := le_kallocBytes hpos
    have hr₁ := (hr.kalloc hpos halloc).store prog.file (le_refl _) (by omega)
    simp only at hok
    split at hok
    · cases hok
    · rename_i t₁ h₂ hnew
      rw [Except.ok.injEq, Prod.mk.injEq] at hok
      obtain ⟨rfl, rfl⟩ := hok
      obtain ⟨hr₂, hctx, hwait⟩ := hr₁.newUserThread hnew
      exact ⟨(hr₂.perm (List.Perm.swap _ _ _)).kfree, hctx, hwait⟩

end

end Jokerix
