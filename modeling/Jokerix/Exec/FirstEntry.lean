import Jokerix.Exec.Outcome

/-!
# The first entry into user mode

The registers and the memory that a new thread finds when it is dispatched for the first time. The
program counter and the stack pointer are those of the file; the other registers are what was on the
kernel stack when the thread was created.
-/

namespace Jokerix.Exec

/-! ### Entering user mode -/

/-- The byte at a virtual address, where users may access its page. -/
def userByte (mem : Bytes.Memory) (root va : ℕ) : Option UInt8 :=
  (sv39Address mem root va).bind fun found =>
    if found.2 / flagUser % 2 = 1 then some (mem (accessVaViaPa found.1)) else none

/-- The registers, the program counter and the memory of a program. -/
structure UserState where
  x : ℕ → ℕ
  pc : ℕ
  byte : ℕ → Option UInt8

/-- `switchContext` to a context whose `ra` is `__restore`, and `__restore`. -/
def enterUser (mem : Bytes.Memory) (contextAddr : ℕ) : UserState :=
  let satp := Bytes.loadLE 8 mem (contextAddr + 8)
  let sp := contextAddr + 14 * 8
  { x := fun i => Bytes.loadLE 8 mem (sp + 8 * i)
    pc := Bytes.loadLE 8 mem (sp + 8 * 33)
    byte := userByte mem (satp % 2 ^ 44) }

/-- The context that `newUserThread` returned for the thread in a slot. -/
def System.contextAddr (st : System) (tid : ℕ) : ℕ :=
  (st.kernel.threads tid).thread.kstack + kernelStackSize - sizeofThreadContext

/-- The thread in a slot enters user mode for the first time. -/
def System.firstEntry (st : System) (tid : ℕ) : UserState := enterUser st.mem (st.contextAddr tid)

/-- The registers `x1` to `x31`, the program counter and the user pages are the same. -/
structure SameEntry (u u' : UserState) : Prop where
  x : ∀ i, 1 ≤ i → i < 32 → u.x i = u'.x i
  pc : u.pc = u'.pc
  byte : u.byte = u'.byte

/-- Two kernels that differ only in memory outside of the image, the kernel stack included. -/
structure Alike (e e' : Surroundings) (st st' : System) : Prop where
  sstatus : e'.sstatus = e.sstatus
  restore : e'.restore = e.restore
  program : e'.program = e.program
  fs : st'.fs = st.fs
  sta : st'.sta = st.sta
  kernel : ∃ mem, st'.kernel = { st.kernel with heap := { st.kernel.heap with mem } }
  image : ∀ x < imageSize, st'.image x = st.image x

/-- In any two such kernels the thread starts in the same state. -/
def EntryDetermined (L : Layout) (path content : List UInt8) (hostTid : ℤ) : Prop :=
  ∀ e₁ e₂ st₁ st₂ st₁' st₂' tid, Consistent L st₁ → Consistent L st₂ → Alike e₁ e₂ st₁ st₂ →
    FindsFile st₁ path content → allocTid st₁.kernel.threads = some tid →
    executeCPU L e₁ st₁ path hostTid = .ok (true, st₁') →
    executeCPU L e₂ st₂ path hostTid = .ok (true, st₂') →
    SameEntry (st₁'.firstEntry tid) (st₂'.firstEntry tid)

section
variable {L : Layout} {e : Surroundings} {st st' : System} {path content : List UInt8} {hostTid : ℤ}
  {tid : ℕ}

/-! ### The words of a context -/

lemma enterUser_storeContext (mem : Bytes.Memory) (a : ℕ) (c : ThreadContext) :
    (∀ i < 32, (enterUser (storeContext mem a c) a).x i = c.ic.x i % 2 ^ 64) ∧
      (enterUser (storeContext mem a c) a).pc = c.ic.sepc % 2 ^ 64 := by
  simp only [enterUser, storeContext]
  constructor
  · intro i hi
    rw [Bytes.loadLE_storeLE_of_disjoint (by omega), Bytes.loadLE_storeLE_of_disjoint (by omega),
      Bytes.loadLE_storeArray hi]
    norm_num
  · rw [show a + 14 * 8 + 8 * 33 = a + 376 by omega, Bytes.loadLE_storeLE_same]
    norm_num

lemma kfree_mem (h : KernelHeap) (ptr : ℕ) : (kfree h ptr).mem = h.mem := by
  simp only [kfree]
  split_ifs <;> rfl

/-- The first entry of a new thread: the entry point of the file, the top of the user stack, and
what the local variable held. -/
theorem Executed.firstEntry (hx : Executed L e st path hostTid st')
    (hslot : allocTid st.kernel.threads = some tid) :
    (∃ mem buf, (st'.firstEntry tid).pc = (readElfHeader mem buf).entry % 2 ^ 64) ∧
    ∀ i < 32, (st'.firstEntry tid).x i =
      (if i = 2 then userStackOffset + userStackSize else e.tc.ic.x i) % 2 ^ 64 := by
  obtain ⟨buf, h, r, t, h', k', _, _, hcreated, hpool, hkernel, _⟩ := hx.steps
  obtain ⟨root, m, h₁, _, _, hh', _⟩ := hcreated.steps
  obtain ⟨k₁, hpool₁, hthreads⟩ := addToPool_ok (k := { st.kernel with heap := kfree h' buf }) hslot
    { t with wait := hostTid }
  obtain rfl := Except.ok.inj (hpool₁.symm.trans hpool)
  let c : ThreadContext := { e.tc with
    ra := e.restore
    satp := satpOf root
    ic := ⟨Function.update e.tc.ic.x 2 (userStackOffset + userStackSize),
      newUserThreadSstatus e.sstatus, (readElfHeader (e.view h₁.mem buf) buf).entry⟩ }
  have hmem :
      st'.mem = storeContext h₁.mem (t.kstack + kernelStackSize - sizeofThreadContext) c := by
    rw [System.mem, hkernel]
    change k₁.heap.mem = _
    rw [addToPool_heap hpool, kfree_mem, hh']
    rfl
  have haddr : st'.contextAddr tid = t.kstack + kernelStackSize - sizeofThreadContext := by
    rw [System.contextAddr, hkernel]
    simp only [Kernel.record, hthreads, Function.update_self]
  obtain ⟨hregs, hpc⟩ := enterUser_storeContext h₁.mem
    (t.kstack + kernelStackSize - sizeofThreadContext) c
  rw [System.firstEntry, hmem, haddr]
  refine ⟨⟨_, _, hpc⟩, fun i hi => (hregs i hi).trans ?_⟩
  simp only [c, Function.update_apply]

/-- The local variables play no part in whether an execution completes. -/
lemma Executed.setContext (hx : Executed L e st path hostTid st') (tc : ThreadContext) :
    ∃ st'', executeCPU L { e with tc } st path hostTid = .ok (true, st'') := by
  obtain ⟨buf, h, r, t, h', k', hbuf, hread, hcreated, hpool, _⟩ := hx.steps
  obtain ⟨root, m, h₁, hmap, halloc, _, _⟩ := hcreated.steps
  have hpool' := addToPool_setHeap (kfree { h₁ with
    mem := (newUserThreadContext { e with tc } h₁.mem (readElfHeader (e.view h₁.mem buf) buf).entry
      (userStackOffset + userStackSize) (t.kstack + kernelStackSize) (satpOf root)).2 } buf) hpool
  rw [hcreated.thread] at hpool'
  exact ⟨_, executeCPU_ok hx.found hbuf hread hmap halloc hpool'⟩

/-- Two runs with different local variables start the program with different registers. -/
lemma Executed.not_determined (hx : Executed L e st path hostTid st') (hc : Consistent L st)
    (hn : FindsFile st path content) (hok : executeCPU L e st path hostTid = .ok (true, st')) :
    ¬ EntryDetermined L path content hostTid := by
  intro hdet
  have hslot : ∃ tid, allocTid st.kernel.threads = some tid := by
    obtain ⟨_, _, _, t, _, _, _, _, _, hpool, _⟩ := hx.steps
    cases hnone : allocTid st.kernel.threads with
    | none =>
      rw [addToPool_full (by exact hnone)] at hpool
      cases hpool
    | some tid => exact ⟨tid, rfl⟩
  obtain ⟨tid, hslot⟩ := hslot
  let tc : ThreadContext := { e.tc with ic := { e.tc.ic with x := fun i => e.tc.ic.x i + 1 } }
  obtain ⟨st'', hok'⟩ := hx.setContext tc
  have hsame := hdet e { e with tc } st st st' st'' tid hc hc ⟨rfl, rfl, rfl, rfl, rfl, ⟨_, rfl⟩,
    fun _ _ => rfl⟩ hn hslot hok hok'
  rcases executeCPU_cases hok' with ⟨_, hfalse, _⟩ | ⟨_, hx'⟩
  · cases hfalse
  have hone := hsame.x 1 le_rfl (by norm_num)
  rw [(hx.firstEntry hslot).2 1 (by norm_num), (hx'.firstEntry hslot).2 1 (by norm_num)] at hone
  simp only [tc] at hone
  norm_num at hone
  omega

end

/-- The small system executes its file. -/
lemma sampleSystem_executes : ∃ st st', Consistent execLayout st ∧
    FindsFile st letterA.bytes (oneByteElf 0x10000) ∧
    executeCPU execLayout sampleSurroundings st letterA.bytes 0 = .ok (true, st') := by
  obtain ⟨p, _, hp⟩ := mksfs_elfDir
  obtain ⟨sta, hc, hroom⟩ := execLayout_start p.image
  have hplace : elfDir.place [letterA.bytes] = some (1, .file (oneByteElf 0x10000)) := rfl
  have hn := findsFile_of_packed hp elfDir_proper (sampleSystem_image p.image sta) hplace (.inl rfl)
  obtain ⟨st', hok, _⟩ := executeCPU_elf hc hn wellFormed_oneByteElf mappable_oneByteElf
    (enough_oneByteElf hroom)
  exact ⟨_, st', hc, hn, hok⟩

/-- The state in which a program starts is never determined by its file. -/
theorem first_entry_not_determined (L : Layout) (e : Surroundings) (st st' : System)
    (path content : List UInt8) (hostTid : ℤ) (hc : Consistent L st)
    (hn : FindsFile st path content) (hok : executeCPU L e st path hostTid = .ok (true, st')) :
    ¬ EntryDetermined L path content hostTid := by
  rcases executeCPU_cases hok with ⟨_, hfalse, _⟩ | ⟨_, hx⟩
  · cases hfalse
  · exact hx.not_determined hc hn hok

theorem first_entry_not_determined_elf :
    ∃ st st', executeCPU execLayout sampleSurroundings st letterA.bytes 0 = .ok (true, st') ∧
      ¬ EntryDetermined execLayout letterA.bytes (oneByteElf 0x10000) 0 := by
  obtain ⟨st, st', hc, hn, hok⟩ := sampleSystem_executes
  exact ⟨st, st', hok, first_entry_not_determined execLayout sampleSurroundings st st' letterA.bytes
    (oneByteElf 0x10000) 0 hc hn hok⟩

/-- The registers of a program with one segment of one byte are not determined. -/
theorem oneByteElf_entry_not_determined :
    ¬ EntryDetermined execLayout letterA.bytes (oneByteElf 0x10000) 0 := by
  obtain ⟨st, st', hc, hn, hok⟩ := sampleSystem_executes
  rcases executeCPU_cases hok with ⟨_, hfalse, _⟩ | ⟨_, hx⟩
  · cases hfalse
  · exact hx.not_determined hc hn hok

end Jokerix.Exec
