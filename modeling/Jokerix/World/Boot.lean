import Jokerix.Sched.Boot
import Jokerix.World.Soundness

/-!
# Starting the system

What `main` does before the threads run: `initMemory`, `initFs` and `initThread`, which builds the
thread of `idleMain` and loads the file `/bin/sh`.
-/

namespace Jokerix

/-! ### Starting a thread with another memory -/

section
variable {h h' : KernelHeap} {k k' : Kernel} {p : Program} {t : Thread} {wait : ℤ} {root : ℕ → Prop}
  {ready waiters : List ℕ} {buffer : List UInt8}

lemma newUserThread_setMem {context : List UInt8} (mem : Bytes.Memory)
    (hok : newUserThread h context = .ok (t, h')) :
    ∃ mem', newUserThread { h with mem } context = .ok (t, { h' with mem := mem' }) := by
  rw [newUserThread] at hok ⊢
  split at hok
  · cases hok
  · rename_i kstack h₁ halloc
    obtain ⟨rfl, rfl⟩ := Prod.mk.inj (Except.ok.inj hok)
    obtain ⟨mem', halloc'⟩ := kalloc_setMem mem halloc
    rw [halloc']
    exact ⟨_, rfl⟩

lemma loadProgram_setMem (mem : Bytes.Memory) (hok : loadProgram h p = .ok (t, h')) :
    ∃ mem', loadProgram { h with mem } p = .ok (t, { h' with mem := mem' }) := by
  rw [loadProgram] at hok ⊢
  split_ifs at hok ⊢
  split at hok
  · cases hok
  · rename_i buf h₁ hbuf
    simp only at hok
    split at hok
    · cases hok
    · rename_i t' h₂ hnew
      obtain ⟨rfl, rfl⟩ := Prod.mk.inj (Except.ok.inj hok)
      obtain ⟨mem₁, hbuf'⟩ := kalloc_setMem mem hbuf
      obtain ⟨mem₂, hnew'⟩ := newUserThread_setMem (Bytes.store mem₁ buf p.file) hnew
      refine ⟨mem₂, ?_⟩
      rw [hbuf', ← kfree_setMem]
      simp only at hnew' ⊢
      rw [hnew']

lemma startThread_setMem (mem : Bytes.Memory) (hok : startThread k p wait = .ok k') :
    ∃ mem', startThread (k.setMem mem) p wait = .ok (k'.setMem mem') := by
  rw [startThread] at hok ⊢
  split at hok
  · cases hok
  · rename_i t heap hload
    obtain ⟨mem', hload'⟩ := loadProgram_setMem mem hload
    refine ⟨mem', ?_⟩
    rw [show (k.setMem mem).heap = { k.heap with mem } from rfl, hload']
    have hpool := addToPool_setHeap { heap with mem := mem' } hok
    have hheap := addToPool_heap hok
    simp only at hheap
    rw [show k'.setMem mem' = { k' with heap := { heap with mem := mem' } } by
      rw [Kernel.setMem, hheap]]
    exact hpool

/-- Without queues the memory does not matter. -/
lemma Steady.setMem_of_empty (hs : Steady root k ready waiters buffer) (hbuf : k.buf = ⟨0, 0⟩)
    (hwait : k.waitQueue = ⟨0, 0⟩) (mem : Bytes.Memory) :
    Steady root (k.setMem mem) ready waiters buffer := by
  obtain ⟨slots, rest, hnd, hlive, nodes, nodes', h1, h2, hitems, hwaiters, hh⟩ := hs.seen.heap
  obtain rfl := (h1.isEmpty_iff hh).mp (by rw [hbuf]; rfl)
  obtain rfl := (h2.isEmpty_iff hh).mp (by rw [hwait]; rfl)
  exact ⟨⟨hs.seen.linked, slots, rest, hnd, hlive, [], [], h1.congr (by simp), h2.congr (by simp),
    hitems, hwaiters, hh.setMem mem⟩, hs.listed, hs.family, hs.fed, hs.inOrder, hs.settled⟩

lemma Kernel.record_inj {a : Action} (h : k.record a = k'.record a) : k = k' := by
  cases k
  cases k'
  simpa [Kernel.record] using h

end

namespace Exec

/-! ### The thread of `idleMain` -/

def newKernelThreadContext (e : Surroundings) (mem : Bytes.Memory) (entry kernelStackTop satp : ℕ) :
    ℕ × Bytes.Memory :=
  let ic : InterruptContext :=
    { x := Function.update e.tc.ic.x 2 kernelStackTop
      sstatus := newKernelThreadSstatus e.sstatus
      sepc := entry }
  pushContextToStack mem { e.tc with ra := e.restore, satp, ic } kernelStackTop

/-- The bottom of the stack, and the heap with the stack and its context. -/
def newKernelThread (e : Surroundings) (h : KernelHeap) (entry satp : ℕ) :
    Except Halt (ℕ × KernelHeap) := do
  let (stackBottom, h) ← kalloc h (BitVec.ofNat 32 kernelStackSize)
  let (_, mem) := newKernelThreadContext e h.mem entry (stackBottom + kernelStackSize) satp
  .ok (stackBottom, { h with mem })

/-- The scheduler, the idle thread and `initCPU`: the first half of `initThread`. -/
def initCPU (e : Surroundings) (idleMain satp : ℕ) (st : System) : Except Halt System := do
  let rrScheduler := schedulerInit st.kernel.rrScheduler
  let (_, heap) ← newKernelThread e st.kernel.heap idleMain satp
  .ok { st with kernel := { st.kernel with rrScheduler, heap, occupied := false } }

/-! ### The shell -/

/-- The bytes of `/bin/sh`. -/
def shellPath : List UInt8 := [47, 98, 105, 110, 47, 115, 104]

/-- The other half of `initThread`. The result of `lookup` is not tested before its size is read. -/
def startShell (L : Layout) (e : Surroundings) (st : System) : Except Halt System :=
  let helloInode := lookup st.fs st.mem 0 shellPath
  if helloInode = 0 ∧ e.program 0 = none then .error .fault
  else do
    let (buf, h) ← kalloc st.kernel.heap (BitVec.ofNat 32 (readInode st.mem helloInode).size)
    let r ← readall st.fs.img h.mem helloInode buf
    let (t, h, sta) ← newUserThread L e { h with mem := r.mem } st.sta buf
    let kernel ← addToPool { st.kernel with heap := kfree h buf } { t with wait := 0 }
    .ok { st with kernel, sta }

def initThread (L : Layout) (e : Surroundings) (idleMain satp : ℕ) (st : System) :
    Except Halt System := do
  let st ← initCPU e idleMain satp st
  startShell L e st

/-! ### From the entry of the kernel on -/

/-- The root table of the kernel, and the system after `initMemory`. -/
def initMemory (L : Layout) (st : System) : Except Halt (ℕ × System) := do
  let sta ← newAllocator st.sta L.startPpn (memoryEndPaddr / pageSize)
  let heap := initHeap st.kernel.heap
  let (root, m) ← mapKernel L ⟨heap.mem, sta⟩
  .ok (root, { st with
    kernel := { st.kernel with heap := { heap with mem := m.mem } }, sta := m.sta })

/-- `main` up to `runCPU`. The image of the file system is linked into the kernel. -/
def main (L : Layout) (e : Surroundings) (idleMain : ℕ) (st : System) : Except Halt System := do
  let (root, st) ← initMemory L st
  let e := { e with program := fun va => (readPlace root st.mem va).map st.mem }
  let st := { st with fs := initFs st.mem st.fs.img }
  initThread L e idleMain (satpOf root) st

end Exec

/-- A system with one thread, in slot `0`. -/
def World.ofSystem (st : Exec.System) : World :=
  ⟨st, fun _ => Exec.rootOf st.mem (st.contextAddr 0), fun _ => 0, []⟩

/-- The system when `runCPU` is called. -/
def World.boot (L : Layout) (e : Exec.Surroundings) (idleMain : ℕ) (st : Exec.System) :
    Except Halt World := do
  let st ← Exec.main L e idleMain st
  .ok (ofSystem st)

namespace Exec

/-- The globals when the kernel is entered: no slot of the pool is occupied, the queues are empty,
and an image of the file system lies before the heap. -/
structure AtEntry (L : Layout) (image : Bytes.Memory) (st : System) : Prop where
  free : ∀ t, (st.kernel.threads t).occupied = false
  buf : st.kernel.buf = ⟨0, 0⟩
  waitQueue : st.kernel.waitQueue = ⟨0, 0⟩
  nextUid : st.kernel.nextUid = 0
  log : st.kernel.log = []
  image : ImageAt st.mem st.fs.img image
  imageBelow : st.fs.img + imageSize ≤ st.kernel.heap.region.base
  heapBelow : st.kernel.heap.region.base + kernelHeapSize ≤ L.kernelEnd

section
variable {L : Layout} {e : Surroundings} {image : Bytes.Memory} {st st' : System}
  {root idleMain satp : ℕ}

/-! ### Memory -/

/-- Nothing below the end of the kernel changes, and page zero is not mapped. -/
lemma initMemory_ok (hok : initMemory L st = .ok (root, st')) :
    (∃ mem sta,
      st' = ⟨{ st.kernel with heap := { initHeap st.kernel.heap with mem } }, st.fs, sta⟩ ∧
      SameBelow L.kernelEnd st.mem mem) ∧
    Reach L st'.machine [root] ∧ readPlace root st'.mem 0 = none := by
  rw [Exec.initMemory] at hok
  obtain ⟨sta, hnew, hok⟩ := bind_eq_ok hok
  obtain ⟨⟨r, m⟩, hmap, hok⟩ := bind_eq_ok hok
  obtain ⟨rfl, rfl⟩ := Prod.mk.inj (Except.ok.inj hok)
  have hinit : Reach L ⟨st.mem, sta⟩ [] := .init (m := ⟨st.mem, st.sta⟩) hnew
  obtain ⟨owner, ho, _⟩ := hinit.inv
  obtain ⟨_, _, hext, _⟩ := ho.mapKernel hmap
  have hreach := hinit.kernel hmap
  refine ⟨⟨m.mem, m.sta, rfl, fun x hx => hext.outside x (kernelEnd_outside hx)⟩, hreach, ?_⟩
  by_contra hzero
  obtain ⟨p, hp⟩ := Option.ne_none_iff_exists'.mp hzero
  obtain ⟨hp', f, hperm⟩ :=
    KernelSpace.readPlace (ho.mapKernel_leaf hmap).2 hreach List.mem_cons_self hp
  obtain ⟨_, hhigh⟩ := canonical_of_perm hperm
  rw [hp'] at hhigh
  exact absurd hhigh (by decide)

/-! ### The idle thread -/

lemma initCPU_ok (hok : initCPU e idleMain satp st = .ok st') :
    ∃ kstack h mem, kalloc st.kernel.heap (BitVec.ofNat 32 kernelStackSize) = .ok (kstack, h) ∧
      (∀ x, x < kstack ∨ kstack + kernelStackSize ≤ x → mem x = h.mem x) ∧
      st' = { st with kernel := { st.kernel with
        rrScheduler := schedulerInit st.kernel.rrScheduler
        heap := { h with mem }
        occupied := false } } := by
  rw [initCPU] at hok
  obtain ⟨⟨kstack, heap⟩, hthread, hok⟩ := bind_eq_ok hok
  rw [newKernelThread] at hthread
  obtain ⟨⟨kstack', h⟩, halloc, hthread⟩ := bind_eq_ok hthread
  obtain ⟨rfl, rfl⟩ := Prod.mk.inj (Except.ok.inj hthread)
  refine ⟨_, h, _, halloc, fun x hx => ?_, (Except.ok.inj hok).symm⟩
  have hsize : sizeofThreadContext ≤ kernelStackSize := by decide
  exact storeContext_of_not_mem (by omega)

/-! ### The shell -/

/-- Starting the shell is an execution of its file, but for what the log says. -/
lemma startShell_executes (hnull : e.program 0 = none) (hok : startShell L e st = .ok st') :
    executeCPU L e st shellPath 0 = .ok (true, { st' with
      kernel := st'.kernel.record (.execOk st.kernel.current.thread.uid st.kernel.nextUid) }) := by
  rw [startShell] at hok
  simp only at hok
  split_ifs at hok with hzero
  have hres : lookup st.fs st.mem 0 shellPath ≠ 0 := fun h => hzero ⟨h, hnull⟩
  obtain ⟨⟨buf, h⟩, hbuf, hok⟩ := bind_eq_ok hok
  obtain ⟨r, hread, hok⟩ := bind_eq_ok hok
  obtain ⟨⟨t, h', sta⟩, hthread, hok⟩ := bind_eq_ok hok
  obtain ⟨k, hpool, hok⟩ := bind_eq_ok hok
  obtain rfl := Except.ok.inj hok
  rw [executeCPU]
  simp only [if_neg hres]
  rw [bind_ok hbuf]
  simp only
  rw [bind_ok hread, bind_ok hthread]
  simp only
  rw [bind_ok hpool]

/-- A kernel that found the shell without loading it, and the thread that the scheduler is given. -/
lemma startThread_of_executeCPU {k k' : Kernel} {p : Program}
    (hok : Jokerix.executeCPU k (some p) 0 = .ok (true, k')) : ∃ k₁, startThread k p 0 = .ok k₁ ∧
      k' = k₁.record (.execOk k.current.thread.uid k.nextUid) := by
  rw [Jokerix.executeCPU] at hok
  rw [startThread]
  split at hok
  · cases hok
  · rename_i t heap hload
    split at hok
    · cases hok
    · rename_i k₁ hpool
      obtain ⟨_, rfl⟩ := Prod.mk.inj (Except.ok.inj hok)
      exact ⟨k₁, hpool, rfl⟩

lemma initFs_img (mem : Bytes.Memory) (img : ℕ) : (initFs mem img).img = img := rfl

lemma hasImage_initFs {k : Kernel} {img : ℕ} (h : ImageAt k.heap.mem img image) (sta : FrameTree) :
    HasImage ⟨k, initFs k.heap.mem img, sta⟩ image := by
  constructor
  · simp only [System.mem, initFs_img]
  · rw [initFs_img]
    exact h

/-- When the idle thread was created, the system is in order. -/
lemma AtEntry.idle (h : AtEntry L image st) {st₁ st₂ : System}
    (hmem : initMemory L st = .ok (root, st₁))
    (hidle : initCPU e idleMain satp { st₁ with fs := initFs st₁.mem st₁.fs.img } = .ok st₂) :
    Consistent L st₂ ∧ HasImage st₂ image ∧ Reach L st₂.machine [root] ∧
      st₁.kernel.Fresh ∧ Holds st₁.kernel.heap [] ∧
      (st₂.kernel.heap.region = st.kernel.heap.region ∧
        SameBelow st.kernel.heap.region.base st.mem st₂.mem) ∧
      ∃ k mem, Jokerix.initCPU st₁.kernel = .ok k ∧ st₂.kernel = k.setMem mem := by
  obtain ⟨⟨mem₁, sta, rfl, hsame⟩, hreach, _⟩ := initMemory_ok hmem
  obtain ⟨kstack, heap, mem, halloc, houtside, rfl⟩ := initCPU_ok hidle
  have himage := h.imageBelow
  have hheap := h.heapBelow
  have hholds : Holds { initHeap st.kernel.heap with mem := mem₁ } [] := (holds_initHeap _).setMem _
  obtain ⟨hh, _, hregion, hfill⟩ := hholds.kalloc (by decide) halloc
  obtain ⟨_, hlow, hhigh⟩ := hh.inside List.mem_cons_self
  have hstack := kernelStackSize_le_stackBytes
  rw [stackBytes] at hstack
  rw [hregion] at hlow hhigh
  have hregion' : heap.region = st.kernel.heap.region := hregion
  simp only [show (initHeap st.kernel.heap).region = st.kernel.heap.region from rfl] at hlow hhigh
  -- outside of the heap the memory is what `initMemory` left
  have hkeep : ∀ x, x < st.kernel.heap.region.base ∨
      st.kernel.heap.region.base + kernelHeapSize ≤ x → mem x = mem₁ x := by
    intro x hx
    rw [houtside x (by omega), hfill, Bytes.fill_of_not_mem (by omega)]
  obtain ⟨hreach', _⟩ := hreach.setData mem fun x hx => hkeep x (by omega)
  have hstart := hasImage_initFs
    (k := { st.kernel with heap := { initHeap st.kernel.heap with mem := mem₁ } })
    (show ImageAt mem₁ st.fs.img image from
      ⟨fun x hx => by rw [hsame _ (by omega)]; exact h.image.bytes x hx, h.image.fits⟩) sta
  refine ⟨⟨?_, ?_, ⟨_, hh.setMem mem⟩, ⟨_, hreach'⟩, [], schedulerInit_linked _, by simp⟩, ?_,
    hreach', ⟨h.free, h.buf, h.waitQueue, ⟨_, hholds⟩, h.nextUid, h.log⟩, hholds,
    ⟨hregion', fun x hx => (hkeep x (.inl hx)).trans (hsame x (by omega))⟩, ?_⟩
  · simp only [initFs_img, hregion']
    exact himage
  · simp only [hregion']
    exact hheap
  · refine hstart.congr rfl fun x _ hx => hkeep x (.inl ?_)
    simp only [initFs_img] at hx
    exact hx.trans_le himage
  · refine ⟨{ st.kernel with
      rrScheduler := schedulerInit st.kernel.rrScheduler, heap, occupied := false }, mem, ?_, rfl⟩
    rw [Jokerix.initCPU, show kalloc _ _ = _ from halloc]

/-- The steps of `main`. The kernel has no page at zero. -/
lemma main_ok (hok : main L e idleMain st = .ok st') : ∃ root st₁ st₂ e', e'.program 0 = none ∧
    initMemory L st = .ok (root, st₁) ∧
    initCPU e' idleMain (satpOf root) { st₁ with fs := initFs st₁.mem st₁.fs.img } = .ok st₂ ∧
    startShell L e' st₂ = .ok st' := by
  rw [main] at hok
  obtain ⟨⟨root, st₁⟩, hmem, hok⟩ := bind_eq_ok hok
  obtain ⟨st₂, hidle, hshell⟩ := bind_eq_ok hok
  refine ⟨root, st₁, st₂, _, ?_, hmem, hidle, hshell⟩
  simp only [(initMemory_ok hmem).2.2, Option.map_none]

variable {z : Leftover} {files : Listing} {p : Packer}

/-- The scheduler's view of the start is `initThread` on the file. -/
lemma LoadsFile.starts {content : List UInt8} {st₂ : System} {k k₀ : Kernel} {mem₂ : Bytes.Memory}
    (hl : LoadsFile L st₂ content 0 { st' with
      kernel := st'.kernel.record (.execOk st₂.kernel.current.thread.uid st₂.kernel.nextUid) })
    (hc : Consistent L st₂) (hpos : 0 < (BitVec.ofNat 32 content.length).toInt)
    (hlength : content.length < 2 ^ 32) (hinit : Jokerix.initCPU k = .ok k₀)
    (hkernel : st₂.kernel = k₀.setMem mem₂) :
    ∃ sh k' mem, sh.file = content ∧ Jokerix.initThread k sh = .ok k' ∧
      st'.kernel = k'.setMem mem := by
  obtain ⟨sh, k₁, mem, hfile, hexec, hsame, _⟩ := hl.agrees hc hpos hlength
  obtain ⟨k₂, hstart, rfl⟩ := startThread_of_executeCPU hexec
  have hk' : st'.kernel = k₂.setMem mem := Kernel.record_inj (a := _) hsame
  rw [hkernel] at hstart
  obtain ⟨mem', hstart'⟩ := startThread_setMem k₀.heap.mem hstart
  refine ⟨sh, k₂.setMem mem', mem, hfile, ?_, hk'⟩
  rw [Jokerix.initThread, hinit]
  exact hstart'

lemma initCPU_free {k k' : Kernel} (hk : k.Fresh) (hok : Jokerix.initCPU k = .ok k') (t : ℕ) :
    (k'.threads t).occupied = false ∧ k'.nextUid = 0 := by
  rw [Jokerix.initCPU] at hok
  split at hok
  · cases hok
  · obtain rfl := Except.ok.inj hok
    exact ⟨hk.free t, hk.nextUid⟩

/-- The system before the shell is loaded, and when it is the one thread. -/
structure Starts (L : Layout) (image : Bytes.Memory) (content : List UInt8) (st st' : System) :
    Prop where
  consistent : Consistent L st
  hasImage : HasImage st image
  spaces : ∃ root, Reach L st.machine [root]
  free : ∀ t, (st.kernel.threads t).occupied = false
  nextUid : st.kernel.nextUid = 0
  named : FindsFile st shellPath content
  ne_nil : content ≠ []
  loads : LoadsFile L st content 0 { st' with
    kernel := st'.kernel.record (.execOk st.kernel.current.thread.uid st.kernel.nextUid) }
  scheduler : ∃ k sh k' mem, k.Fresh ∧ Holds k.heap [] ∧ sh.file = content ∧
    Jokerix.initThread k sh = .ok k' ∧ st'.kernel = k'.setMem mem

lemma Starts.length_lt {content : List UInt8} (h : Starts L image content st st') :
    content.length < 2 ^ 31 ∧ 0 < (BitVec.ofNat 32 content.length).toInt := by
  obtain ⟨b, _, hfile⟩ := h.named.file
  have hlength := hfile.length_le
  have hpos := List.length_pos_iff.mpr h.ne_nil
  have hint := toInt_ofNat (show content.length < 2 ^ 31 by omega)
  omega

/-- From the idle thread on. -/
lemma AtEntry.starts_shell (h : AtEntry L p.image st) (hpacked : Packed z files p)
    {st₁ st₂ : System}
    (hnull : e.program 0 = none) (hmem : initMemory L st = .ok (root, st₁))
    (hidle : initCPU e idleMain satp { st₁ with fs := initFs st₁.mem st₁.fs.img } = .ok st₂)
    (hshell : startShell L e st₂ = .ok st') :
    ∃ content, fileAt files shellPath = some content ∧ Starts L p.image content st₂ st' := by
  obtain ⟨hc, himage, hreach, hfresh, hholds, _, k₀, mem₂, hinit, hkernel⟩ := h.idle hmem hidle
  rcases executeCPU_cases (startShell_executes hnull hshell) with ⟨_, hfalse, _⟩ | ⟨_, hx⟩
  · cases hfalse
  obtain ⟨content, hat, hn, hne⟩ := hx.findsFile hnull hc hpacked himage
  have hl := hx.loadsFile hc hn hne
  have hfree : ∀ t, (st₂.kernel.threads t).occupied = false ∧ st₂.kernel.nextUid = 0 := by
    rw [hkernel]
    have hfree := initCPU_free hfresh hinit
    exact hfree
  obtain ⟨b, _, hfile⟩ := hn.file
  have hlength := hfile.length_le
  have hpos := List.length_pos_iff.mpr hne
  have hint := toInt_ofNat (show content.length < 2 ^ 31 by omega)
  obtain ⟨sh, k', mem, hsh, hthread, hk'⟩ := hl.starts hc (by omega) (by omega) hinit hkernel
  exact ⟨content, hat, hc, himage, ⟨root, hreach⟩, fun t => (hfree t).1, (hfree 0).2, hn, hne, hl,
    _, sh, k', mem, hfresh, hholds, hsh, hthread, hk'⟩

lemma AtEntry.starts (h : AtEntry L p.image st) (hpacked : Packed z files p)
    (hok : main L e idleMain st = .ok st') :
    ∃ content st₂, fileAt files shellPath = some content ∧ Starts L p.image content st₂ st' := by
  obtain ⟨root, st₁, st₂, e', hnull, hmem, hidle, hshell⟩ := main_ok hok
  obtain ⟨content, hat, hstarts⟩ := h.starts_shell hpacked hnull hmem hidle hshell
  exact ⟨content, st₂, hat, hstarts⟩

/-! ### Completion -/

lemma allocator_ok (L : Layout) (sta : FrameTree) :
    ∃ sta', newAllocator sta L.startPpn (memoryEndPaddr / pageSize) = .ok sta' := by
  have hlow : 0x80201 ≤ L.startPpn := by
    obtain ⟨htext, _⟩ := L.bounds
    have hends := L.bounds
    simp only [Layout.startPpn, kernelBeginVaddr, kernelBeginPaddr, pageSize]
    omega
  refine (newAllocator_ok_iff sta L.startPpn_le (by decide)).mpr ?_
  simp only [memoryEndPaddr, pageSize, maxPhysicalPages]
  omega

lemma initMemory_completes (L : Layout) (st : System) (hroom : 145 ≤ endPpn - L.startPpn) :
    ∃ root st', initMemory L st = .ok (root, st') ∧
      endPpn - L.startPpn ≤ room st'.machine + 145 := by
  obtain ⟨sta, hnew⟩ := allocator_ok L st.sta
  have hinit : Reach L ⟨st.mem, sta⟩ [] := .init (m := ⟨st.mem, st.sta⟩) hnew
  have hfree := room_newAllocator (m := ⟨st.mem, st.sta⟩) L.startPpn_le hnew
  obtain ⟨owner, ho, _⟩ := hinit.inv
  obtain ⟨root, m, hmap, hleft⟩ := ho.mapKernel_ok L (hfree ▸ hroom)
  have hok : ∃ st', initMemory L st = .ok (root, st') ∧ st'.machine = m := by
    rw [initMemory, bind_ok hnew]
    simp only
    rw [bind_ok (show mapKernel L ⟨(initHeap st.kernel.heap).mem, sta⟩ = .ok (root, m) from hmap)]
    exact ⟨_, rfl, rfl⟩
  obtain ⟨st', hok, hm⟩ := hok
  exact ⟨root, st', hok, by rw [hm]; exact hfree ▸ hleft⟩

lemma initCPU_completes (e : Surroundings) (idleMain satp : ℕ) (st : System)
    (hh : Holds st.kernel.heap []) : ∃ st' blocks,
    initCPU e idleMain satp st = .ok st' ∧ Holds st'.kernel.heap blocks ∧ Roomy 1 blocks ∧
      st'.sta = st.sta := by
  obtain ⟨kstack, h, halloc, _, hh₁, hroomy⟩ := hh.kalloc_roomy (BitVec.ofNat 32 kernelStackSize)
    (n := 0) ⟨le_refl _, by simp⟩ (by omega) (by decide) (by decide)
  rw [initCPU, newKernelThread]
  simp only [bind_ok halloc]
  exact ⟨_, _, rfl, hh₁.setMem _, hroomy, rfl⟩

/-- When the idle thread was created, there is room for the shell. -/
lemma AtEntry.enough {content : List UInt8} {st₁ st₂ : System} (h : AtEntry L image st)
    (hmem : initMemory L st = .ok (root, st₁))
    (hidle : initCPU e idleMain satp { st₁ with fs := initFs st₁.mem st₁.fs.img } = .ok st₂)
    (hne : content ≠ []) (hsmall : content.length < 2 ^ 20)
    (hframes : fileFrames content + 145 ≤ endPpn - L.startPpn) : Enough st₂ content := by
  obtain ⟨_, _, _, hfresh, hholds, _, k₀, mem₂, hinit, hkernel⟩ := h.idle hmem hidle
  obtain ⟨root', st', hmem', hroom⟩ := initMemory_completes L st (by omega)
  obtain ⟨rfl, rfl⟩ := Prod.mk.inj (Except.ok.inj (hmem'.symm.trans hmem))
  obtain ⟨st'', blocks, hidle', hh, hroomy, hsta⟩ := initCPU_completes e idleMain satp
    { st' with fs := initFs st'.mem st'.fs.img } hholds
  obtain rfl := Except.ok.inj (hidle'.symm.trans hidle)
  have hint := toInt_ofNat (show content.length < 2 ^ 31 by omega)
  have hpos := List.length_pos_iff.mpr hne
  obtain ⟨buf, heap, hbuf, _, hh₁, hroomy₁⟩ := hh.kalloc_roomy (BitVec.ofNat 32 content.length)
    hroomy
    (by omega) (by omega) (by omega)
  obtain ⟨kstack, heap', hstack, _⟩ := hh₁.kalloc_roomy (BitVec.ofNat 32 kernelStackSize) hroomy₁
    (by omega) (by decide) (by decide)
  refine ⟨⟨buf, heap, kstack, heap', hbuf, hstack⟩, ?_, 0, ?_⟩
  · have hsame : room st''.machine = room st'.machine := by
      rw [room, room, System.machine, System.machine, hsta]
    omega
  · rw [hkernel]
    exact allocTid_free (initCPU_free hfresh hinit 0).1

end

end Exec

end Jokerix
