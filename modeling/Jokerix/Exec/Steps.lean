import Jokerix.Exec.Execute
import Jokerix.Sched.PoolSlots

/-!
# The steps of an execution

An execution either does not find its file and changes nothing, or it goes through all of its steps.
On the pool, the scheduler and the blocks of the heap it does what `executeCPU` does over an
abstract program.
-/

namespace Jokerix

section
variable {h h' : KernelHeap} {k k' : Kernel} {size : BitVec 32} {ptr : ℕ}

/-! ### The memory beside the heap -/

/-- Which block `kalloc` finds does not depend on the bytes of the memory. -/
lemma kalloc_setMem (mem : Bytes.Memory) (hok : kalloc h size = .ok (ptr, h')) :
    ∃ mem', kalloc { h with mem } size = .ok (ptr, { h' with mem := mem' }) := by
  rw [kalloc] at hok ⊢
  split_ifs at hok ⊢
  · obtain ⟨rfl, rfl⟩ := Prod.mk.inj (Except.ok.inj hok)
    exact ⟨mem, rfl⟩
  · simp only at hok ⊢
    cases halloc : buddyAlloc h.tree (kallocBlocks size) with
    | none => rw [halloc] at hok; cases hok
    | some found =>
      obtain ⟨block, tree⟩ := found
      rw [halloc] at hok
      simp only at hok ⊢
      split_ifs at hok ⊢
      obtain ⟨rfl, rfl⟩ := Prod.mk.inj (Except.ok.inj hok)
      exact ⟨_, rfl⟩

lemma kfree_setMem (mem : Bytes.Memory) (ptr : ℕ) :
    kfree { h with mem } ptr = { kfree h ptr with mem } := by
  simp only [kfree]
  split_ifs <;> rfl

/-- The pool and the scheduler do not look at the heap. -/
lemma addToPool_setHeap {t : Thread} (heap : KernelHeap) (hok : addToPool k t = .ok k') :
    addToPool { k with heap } t = .ok { k' with heap } := by
  simp only [addToPool] at hok ⊢
  cases hslot : allocTid k.threads with
  | none => rw [hslot] at hok; cases hok
  | some tid =>
    rw [hslot] at hok
    simp only [Kernel.push, Kernel.setInfo] at hok ⊢
    cases hpush : schedulerPush k.rrScheduler tid with
    | error => rw [hpush] at hok; cases hok
    | ok s =>
      rw [hpush] at hok
      rw [← Except.ok.inj hok]
      rfl

lemma addToPool_heap {t : Thread} (hok : addToPool k t = .ok k') : k'.heap = k.heap := by
  have hsame := addToPool_setHeap k.heap hok
  rw [show ({ k with heap := k.heap } : Kernel) = k from rfl, hok] at hsame
  rw [Except.ok.inj hsame]

end

namespace Exec

section
variable {L : Layout} {e : Surroundings} {st st' : System} {path : List UInt8}
  {hostTid : ℤ} {b : Bool}

/-! ### What happens -/

lemma newProgramMapping_of_ne {m : Machine} {data : ℕ} (hne : data ≠ 0) :
    newProgramMapping L e m data = newUserThreadMapping L m data := if_pos hne

/-- A null pointer is not read when the running program has no page there. -/
lemma newProgramMapping_null {m : Machine} {r : ℕ × Machine} (hnull : e.program 0 = none) :
    newProgramMapping L e m 0 ≠ .ok r := by
  intro hok
  rw [newProgramMapping, if_neg (not_not.mpr rfl)] at hok
  obtain ⟨⟨_, kernel⟩, _, hok⟩ := bind_eq_ok hok
  have hfaults : e.Faults (loaderReads (e.view kernel.mem 0) 0) := by
    refine ⟨(0, 4), ?_, 0, by norm_num, by norm_num [programEnd], by rw [hnull]; rfl⟩
    rw [loaderReads]
    split_ifs <;> simp
  simp only [if_pos hfaults] at hok
  cases hok

/-- The frames of the new address space, whatever the pointer. -/
lemma newProgramMapping_cases {m m' : Machine} {root data : ℕ}
    (hok : newProgramMapping L e m data = .ok (root, m')) : ∃ mem m₁,
      newUserThreadMapping L { m with mem } data = .ok (root, m₁) ∧ m'.sta = m₁.sta := by
  rw [newProgramMapping] at hok
  split_ifs at hok with hne
  · exact ⟨m.mem, m', hok, rfl⟩
  · obtain ⟨_, _, hok⟩ := bind_eq_ok hok
    simp only at hok
    split_ifs at hok
    obtain ⟨⟨root', m₁⟩, hmap, hok⟩ := bind_eq_ok hok
    obtain ⟨rfl, rfl⟩ := Prod.mk.inj (Except.ok.inj hok)
    exact ⟨_, m₁, hmap, rfl⟩

/-- The steps of `newUserThread` that completed. -/
structure Created (L : Layout) (e : Surroundings) (h : KernelHeap) (sta : FrameTree) (data : ℕ)
    (t : Thread) (h' : KernelHeap) (sta' : FrameTree) : Prop where
  thread : t = ⟨.user, t.kstack, 0, 0⟩
  steps : ∃ root m h₁, newProgramMapping L e ⟨h.mem, sta⟩ data = .ok (root, m) ∧
    kalloc { h with mem := m.mem } (BitVec.ofNat 32 kernelStackSize) = .ok (t.kstack, h₁) ∧
    h' = { h₁ with
      mem := (newUserThreadContext e h₁.mem (readElfHeader (e.view h₁.mem data) data).entry
        (userStackOffset + userStackSize) (t.kstack + kernelStackSize) (satpOf root)).2 } ∧
    sta' = m.sta

lemma created_of_newUserThread {h h' : KernelHeap} {sta sta' : FrameTree} {data : ℕ} {t : Thread}
    (hok : newUserThread L e h sta data = .ok (t, h', sta')) :
    Created L e h sta data t h' sta' := by
  rw [newUserThread] at hok
  obtain ⟨⟨root, m⟩, hmap, hok⟩ := bind_eq_ok hok
  obtain ⟨⟨kstack, h₁⟩, halloc, hok⟩ := bind_eq_ok hok
  obtain ⟨rfl, rfl, rfl⟩ : _ ∧ _ ∧ _ := by simpa using hok
  exact ⟨rfl, root, m, h₁, hmap, halloc, rfl, rfl⟩

/-- The steps of an execution that created a thread. -/
structure Executed (L : Layout) (e : Surroundings) (st : System) (path : List UInt8) (hostTid : ℤ)
    (st' : System) : Prop where
  found : lookup st.fs st.mem 0 path ≠ 0
  steps : ∃ buf h r t h' k',
    kalloc st.kernel.heap (BitVec.ofNat 32 (readInode st.mem (lookup st.fs st.mem 0 path)).size) =
      .ok (buf, h) ∧
    readall st.fs.img h.mem (lookup st.fs st.mem 0 path) buf = .ok r ∧
    Created L e { h with mem := r.mem } st.sta buf t h' st'.sta ∧
    addToPool { st.kernel with heap := kfree h' buf } { t with wait := hostTid } = .ok k' ∧
    st'.kernel = k'.record (.execOk st.kernel.current.thread.uid st.kernel.nextUid) ∧
    st'.fs = st.fs

/-- Without a file nothing happens, and the execution returns. -/
lemma executeCPU_of_not_found (hres : lookup st.fs st.mem 0 path = 0) :
    executeCPU L e st path hostTid = .ok (false,
      { st with kernel := st.kernel.record (.execFailed st.kernel.current.thread.uid) }) :=
  if_pos hres

/-- An execution that returns did not find its file, or it went through all steps. -/
lemma executeCPU_cases (hok : executeCPU L e st path hostTid = .ok (b, st')) :
    (lookup st.fs st.mem 0 path = 0 ∧ b = false ∧ st' =
      { st with kernel := st.kernel.record (.execFailed st.kernel.current.thread.uid) }) ∨
    (b = true ∧ Executed L e st path hostTid st') := by
  by_cases hres : lookup st.fs st.mem 0 path = 0
  · rw [executeCPU_of_not_found hres] at hok
    obtain ⟨rfl, rfl⟩ := Prod.mk.inj (Except.ok.inj hok)
    exact .inl ⟨hres, rfl, rfl⟩
  · rw [executeCPU] at hok
    simp only [if_neg hres] at hok
    obtain ⟨⟨buf, h⟩, hbuf, hok⟩ := bind_eq_ok hok
    obtain ⟨r, hread, hok⟩ := bind_eq_ok hok
    obtain ⟨⟨t, h', sta⟩, hthread, hok⟩ := bind_eq_ok hok
    obtain ⟨k', hpool, hok⟩ := bind_eq_ok hok
    obtain ⟨rfl, rfl⟩ := Prod.mk.inj (Except.ok.inj hok)
    exact .inr ⟨rfl, hres, buf, h, r, t, h', k', hbuf, hread, created_of_newUserThread hthread,
      hpool, rfl, rfl⟩

/-- The other way round: when all steps complete, so does the execution. -/
lemma executeCPU_ok {buf : ℕ} {h h₁ : KernelHeap} {r : ReadState} {root kstack : ℕ} {m : Machine}
    {k' : Kernel} (hres : lookup st.fs st.mem 0 path ≠ 0)
    (hbuf : kalloc st.kernel.heap
      (BitVec.ofNat 32 (readInode st.mem (lookup st.fs st.mem 0 path)).size) = .ok (buf, h))
    (hread : readall st.fs.img h.mem (lookup st.fs st.mem 0 path) buf = .ok r)
    (hmap : newProgramMapping L e ⟨r.mem, st.sta⟩ buf = .ok (root, m))
    (halloc : kalloc { h with mem := m.mem } (BitVec.ofNat 32 kernelStackSize) = .ok (kstack, h₁))
    (hpool : addToPool { st.kernel with heap := kfree { h₁ with
        mem := (newUserThreadContext e h₁.mem (readElfHeader (e.view h₁.mem buf) buf).entry
          (userStackOffset + userStackSize) (kstack + kernelStackSize) (satpOf root)).2 } buf }
        ⟨.user, kstack, hostTid, 0⟩ = .ok k') :
    executeCPU L e st path hostTid = .ok (true, { st with
      kernel := k'.record (.execOk st.kernel.current.thread.uid st.kernel.nextUid)
      sta := m.sta }) := by
  have hthread : newUserThread L e { h with mem := r.mem } st.sta buf = .ok (⟨.user, kstack, 0, 0⟩,
      { h₁ with mem := (newUserThreadContext e h₁.mem (readElfHeader (e.view h₁.mem buf) buf).entry
        (userStackOffset + userStackSize) (kstack + kernelStackSize)
        (satpOf root)).2 }, m.sta) := by
    rw [newUserThread, bind_ok hmap]
    simp only
    rw [bind_ok halloc]
  rw [executeCPU]
  simp only [if_neg hres]
  rw [bind_ok hbuf]
  simp only
  rw [bind_ok hread, bind_ok hthread]
  simp only
  rw [bind_ok hpool]

/-! ### The abstract program -/

/-- What the scheduler sees of an execution: `executeCPU` on the program that was read. -/
theorem executeCPU_refines (hnull : e.program 0 = none)
    (hok : executeCPU L e st path hostTid = .ok (b, st')) : ∃ res k' mem,
      Jokerix.executeCPU st.kernel res hostTid = .ok (b, k') ∧
      st'.kernel = { k' with heap := { k'.heap with mem } } := by
  rcases executeCPU_cases hok with ⟨_, rfl, rfl⟩ | ⟨rfl, hexec⟩
  · exact ⟨none, _, st.kernel.heap.mem, rfl, rfl⟩
  obtain ⟨buf, h, r, t, h', k₁, hbuf, _, hcreated, hpool, hkernel, _⟩ := hexec.steps
  obtain ⟨root, m, h₁, hmap, halloc, rfl, _⟩ := hcreated.steps
  set size := (readInode st.mem (lookup st.fs st.mem 0 path)).size with hsize
  have hlt : size < 2 ^ 32 := lt_of_lt_of_eq (Bytes.loadLE_lt 4 _ _) (by norm_num)
  let p : Program := ⟨Bytes.load r.mem buf size, [], by rwa [Bytes.length_load]⟩
  have hlen : p.file.length = size := Bytes.length_load _ _ _
  have hpos : 0 < (BitVec.ofNat 32 size).toInt := by
    by_contra hle
    rw [kalloc, if_pos (not_lt.mp hle)] at hbuf
    obtain ⟨rfl, rfl⟩ := Prod.mk.inj (Except.ok.inj hbuf)
    exact newProgramMapping_null hnull hmap
  obtain ⟨mem₁, halloc'⟩ := kalloc_setMem (Bytes.store h.mem buf p.file) halloc
  have hload : ∃ mem₂, loadProgram st.kernel.heap p =
      .ok (⟨.user, t.kstack, 0, 0⟩, kfree { h₁ with mem := mem₂ } buf) := by
    rw [loadProgram, hlen, if_neg (by omega), hbuf]
    simp only [Jokerix.newUserThread]
    rw [show ({ h with mem := Bytes.store h.mem buf p.file } : KernelHeap) =
      { { h with mem := m.mem } with mem := Bytes.store h.mem buf p.file } from rfl, halloc']
    exact ⟨_, rfl⟩
  obtain ⟨mem₂, hload⟩ := hload
  have hthread : ({ t with wait := hostTid } : Thread) = ⟨.user, t.kstack, hostTid, 0⟩ := by
    rw [hcreated.thread]
  have hpool' := addToPool_setHeap (kfree { h₁ with mem := mem₂ } buf) hpool
  rw [hthread] at hpool'
  have hheap := addToPool_heap hpool
  refine ⟨some p, { k₁ with heap := kfree { h₁ with mem := mem₂ } buf }.record
    (.execOk st.kernel.current.thread.uid st.kernel.nextUid), k₁.heap.mem, ?_, ?_⟩
  · rw [Jokerix.executeCPU, hload]
    simp only
    rw [hpool']
  · rw [hkernel]
    simp only [Kernel.record, kfree_setMem] at hheap ⊢
    rw [hheap]

end

end Exec

end Jokerix
