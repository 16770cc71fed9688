import Jokerix.Fs.Reader
import Jokerix.Sched.Processor
import Jokerix.Trap.Csr
import Jokerix.Vm.Elf

/-!
# Executing a file

`executeCPU` of `kernel/processor.c` on the memory of the kernel: the file is looked up in the image
and read into a buffer on the heap, `newUserThread` of `kernel/thread.c` builds the address space
and the first context of the thread from it, and the buffer is freed.
-/

namespace Jokerix.Exec

/-! ### Contexts -/

/-- The registers at a trap. -/
structure InterruptContext where
  x : ℕ → ℕ
  sstatus : BitVec 64
  sepc : ℕ

/-- What a switch saves; the context of a trap follows it. -/
structure ThreadContext where
  ra : ℕ
  satp : ℕ
  s : ℕ → ℕ
  ic : InterruptContext

/-- The words of a context, at an address. -/
def storeContext (mem : Bytes.Memory) (a : ℕ) (c : ThreadContext) : Bytes.Memory :=
  let mem := Bytes.storeLE 8 mem a c.ra
  let mem := Bytes.storeLE 8 mem (a + 8) c.satp
  let mem := Bytes.storeArray 8 mem (a + 16) c.s 12
  let mem := Bytes.storeArray 8 mem (a + 112) c.ic.x 32
  let mem := Bytes.storeLE 8 mem (a + 368) c.ic.sstatus.toNat
  Bytes.storeLE 8 mem (a + 376) c.ic.sepc

/-- The address of a context at the top of a stack, and the memory with it. -/
def pushContextToStack (mem : Bytes.Memory) (self : ThreadContext) (stackTop : ℕ) :
    ℕ × Bytes.Memory :=
  let ptr := stackTop - sizeofThreadContext
  (ptr, storeContext mem ptr self)

/-- What a call finds outside of the globals: the local variables `tc` and `ic` of
`newUserThreadContext` before they are assigned, the register `sstatus`, the address of `__restore`,
and the pages of the running program, which the kernel can read. -/
structure Surroundings where
  tc : ThreadContext
  sstatus : BitVec 64
  restore : ℕ
  program : ℕ → Option UInt8

def newUserThreadContext (e : Surroundings) (mem : Bytes.Memory)
    (entry ustackTop kstackTop satp : ℕ) : ℕ × Bytes.Memory :=
  let ic : InterruptContext :=
    { x := Function.update e.tc.ic.x 2 ustackTop
      sstatus := newUserThreadSstatus e.sstatus
      sepc := entry }
  pushContextToStack mem { e.tc with ra := e.restore, satp, ic } kstackTop

/-! ### Threads -/

/-- The end of the addresses of a program. -/
def programEnd : ℕ := 2 ^ 38

/-- The memory as a pointer to a file sees it. Only a null pointer leads below the kernel, into the
pages of the running program. -/
def Surroundings.view (e : Surroundings) (mem : Bytes.Memory) (data : ℕ) : Bytes.Memory :=
  if data = 0 then fun x => if x < programEnd then (e.program x).getD 0 else mem x else mem

/-- What `newUserMapping` reads of the file at `elf`, as addresses and lengths. -/
def loaderReads (mem : Bytes.Memory) (elf : ℕ) : List (ℕ × ℕ) :=
  let eHeader := readElfHeader mem elf
  if eHeader.magic ≠ elfMagic then [(elf, 4)]
  else [(elf, 4), (elf + 24, 8), (elf + 32, 8), (elf + 56, 2)] ++
    (List.range eHeader.phnum).flatMap fun i =>
      let offset := (elf + eHeader.phoff + i * sizeofProgHeader) % 2 ^ 64
      let ph := readProgHeader mem offset
      let segment : Segment := ⟨ph.vaddr, (ph.vaddr + ph.memsz) % 2 ^ 64, convertElfFlags ph.flags⟩
      let pages := segment.endVpn - segment.startVpn
      if ph.type ≠ elfProgLoad then [(offset, 4)]
      else [(offset, 4), (offset + 4, 4), (offset + 8, 8), (offset + 16, 8), (offset + 32, 8),
        (offset + 40, 8), ((elf + ph.off) % 2 ^ 64, min ph.filesz (pages * pageSize))]

/-- A read below the kernel faults where the running program has no page. -/
def Surroundings.Faults (e : Surroundings) (reads : List (ℕ × ℕ)) : Prop :=
  ∃ r ∈ reads, ∃ i < r.2, r.1 + i < programEnd ∧ (e.program (r.1 + i)).isNone

instance (e : Surroundings) (reads : List (ℕ × ℕ)) : Decidable (e.Faults reads) :=
  inferInstanceAs (Decidable (∃ r ∈ reads, ∃ i < r.2, _))

/-- The address space that `newUserThread` builds. With a null pointer the pages of the running
program are read in place of a file. -/
def newProgramMapping (L : Layout) (e : Surroundings) (m : Machine) (data : ℕ) :
    Except Halt (ℕ × Machine) :=
  if data ≠ 0 then newUserThreadMapping L m data
  else do
    let (_, kernel) ← newKernelMapping L m
    if e.Faults (loaderReads (e.view kernel.mem data) data) then .error .fault
    else
      let (root, m') ← newUserThreadMapping L { m with mem := e.view m.mem data } data
      .ok (root, { m' with mem := fun x => if x < programEnd then m.mem x else m'.mem x })

/-- The register `satp` with a root table, in the mode Sv39. -/
def satpOf (root : ℕ) : ℕ := root ||| 8 * 2 ^ 60

def newUserThread (L : Layout) (e : Surroundings) (h : KernelHeap) (sta : FrameTree) (data : ℕ) :
    Except Halt (Thread × KernelHeap × FrameTree) := do
  let (root, m) ← newProgramMapping L e ⟨h.mem, sta⟩ data
  let ustackTop := userStackOffset + userStackSize
  let (kstack, h) ← kalloc { h with mem := m.mem } (BitVec.ofNat 32 kernelStackSize)
  let entryAddr := (readElfHeader (e.view h.mem data) data).entry
  let (_, mem) :=
    newUserThreadContext e h.mem entryAddr ustackTop (kstack + kernelStackSize) (satpOf root)
  .ok ({ context := .user, kstack, wait := 0, uid := 0 }, { h with mem }, m.sta)

/-! ### The system -/

/-- The kernel with the file driver and the frame allocator. The memory of the machine is the one
that the heap lies in. -/
structure System where
  kernel : Kernel
  fs : SimpleFs
  sta : FrameTree

def System.mem (st : System) : Bytes.Memory := st.kernel.heap.mem

def System.machine (st : System) : Machine := ⟨st.mem, st.sta⟩

def executeCPU (L : Layout) (e : Surroundings) (st : System) (path : List UInt8) (hostTid : ℤ) :
    Except Halt (Bool × System) :=
  let res := lookup st.fs st.mem 0 path
  if res = 0 then
    -- `Command not found!`
    .ok (false, { st with kernel := st.kernel.record (.execFailed st.kernel.current.thread.uid) })
  else do
    let (buf, h) ← kalloc st.kernel.heap (BitVec.ofNat 32 (readInode st.mem res).size)
    let r ← readall st.fs.img h.mem res buf
    let (t, h, sta) ← newUserThread L e { h with mem := r.mem } st.sta buf
    let k ← addToPool { st.kernel with heap := kfree h buf } { t with wait := hostTid }
    .ok (true, { st with
      kernel := k.record (.execOk st.kernel.current.thread.uid st.kernel.nextUid)
      sta })

end Jokerix.Exec
