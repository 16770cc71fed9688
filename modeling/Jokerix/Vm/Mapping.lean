import Jokerix.Lib.Bytes
import Jokerix.Memory.FrameAllocator

/-!
# Page tables

The three-level page tables of `kernel/mapping.c`, over a memory that is addressed by the kernel's
virtual addresses: the kernel reaches the physical address `pa` at `accessVaViaPa pa`. Addresses,
page numbers and page-table entries are 64-bit and their arithmetic wraps.
-/

namespace Jokerix

/-- What the memory management reads and writes: the memory, and the frame allocator. -/
structure Machine where
  mem : Bytes.Memory
  sta : FrameTree

/-- The symbols of the linker script, from `text_start` to `kernel_end`. Every section is aligned,
and the image ends before the memory does. -/
structure Layout where
  textStart : ℕ
  rodataStart : ℕ
  dataStart : ℕ
  bssStart : ℕ
  kernelEnd : ℕ
  text_eq : textStart = kernelBeginVaddr
  text_le : textStart ≤ rodataStart
  rodata_le : rodataStart ≤ dataStart
  data_le : dataStart ≤ bssStart
  bss_le : bssStart ≤ kernelEnd
  rodata_aligned : pageSize ∣ rodataStart
  data_aligned : pageSize ∣ dataStart
  bss_aligned : pageSize ∣ bssStart
  end_aligned : pageSize ∣ kernelEnd
  room : kernelEnd < memoryEndPaddr + kernelMapOffset

def flagValid : ℕ := 1
def flagReadable : ℕ := 2
def flagWritable : ℕ := 4
def flagExecutable : ℕ := 8
def flagUser : ℕ := 16

structure Segment where
  startVaddr : ℕ
  endVaddr : ℕ
  flags : ℕ

/-- The virtual address at which the kernel reaches a physical one. -/
def accessVaViaPa (pa : ℕ) : ℕ := (pa + kernelMapOffset) % 2 ^ 64

/-- Allocate a frame and clear it: its physical address. -/
def allocFrame (m : Machine) : Except Halt (ℕ × Machine) :=
  match alloc m.sta with
  | .error e => .error e
  | .ok (ppn, sta) =>
    let start := ppn * pageSize % 2 ^ 64
    .ok (start, { sta, mem := Bytes.fill m.mem (accessVaViaPa start) pageSize 0 })

/-- The index of each level in a virtual page number. -/
def getVpnLevels (vpn : ℕ) : List ℕ := [vpn / 2 ^ 18 % 512, vpn / 2 ^ 9 % 512, vpn % 512]

/-- The address of an entry of the table at a physical address. -/
def entryAddr (table i : ℕ) : ℕ := accessVaViaPa table + 8 * i

/-- Point a zero entry at a new table. -/
def createTable (m : Machine) (entry : ℕ) : Except Halt Machine :=
  if Bytes.loadLE 8 m.mem entry = 0 then
    match allocFrame m with
    | .error e => .error e
    | .ok (paddr, m) =>
      let newPpn := paddr / pageSize
      .ok { m with mem := Bytes.storeLE 8 m.mem entry (newPpn * 2 ^ 10 ||| flagValid) }
  else .ok m

/-- The loop of `findEntry`: from an entry down the given levels. -/
def findLevels (m : Machine) (entry : ℕ) : List ℕ → Except Halt (ℕ × Machine)
  | [] => .ok (entry, m)
  | level :: levels =>
    match createTable m entry with
    | .error e => .error e
    | .ok m =>
      let nextPageAddr := (Bytes.loadLE 8 m.mem entry &&& pdeMask) * 4 % 2 ^ 64
      findLevels m (entryAddr nextPageAddr level) levels

/-- The address of the leaf entry of a virtual page; missing tables are created. -/
def findEntry (m : Machine) (rootPpn vpn : ℕ) : Except Halt (ℕ × Machine) :=
  let levels := getVpnLevels vpn
  findLevels m (entryAddr (rootPpn * pageSize % 2 ^ 64) (levels.headD 0)) levels.tail

/-- The loop that the functions below share: find the entry of each page, check that it is zero and
fill it in. `install` has a state of its own. -/
def mapPages {σ : Type*} (install : σ → Machine → ℕ → ℕ → Except Halt (σ × Machine)) (self : ℕ) :
    σ → Machine → ℕ → ℕ → Except Halt Machine
  | _, m, _, 0 => .ok m
  | st, m, vpn, n + 1 =>
    match findEntry m self vpn with
    | .error e => .error e
    | .ok (entry, m) =>
      if Bytes.loadLE 8 m.mem entry ≠ 0 then .error (.panic "Virtual address already mapped!\n")
      else
        match install st m entry vpn with
        | .error e => .error e
        | .ok (st, m) => mapPages install self st m (vpn + 1) n

def Segment.startVpn (s : Segment) : ℕ := s.startVaddr / pageSize

def Segment.endVpn (s : Segment) : ℕ := (s.endVaddr + 2 ^ 64 - 1) % 2 ^ 64 / pageSize + 1

/-- The entry of a page at the fixed offset of the kernel. -/
def linearPte (vpn flags : ℕ) : ℕ :=
  (vpn + 2 ^ 64 - kernelPageOffset) % 2 ^ 64 * 2 ^ 10 % 2 ^ 64 ||| flags ||| flagValid

def installLinear (flags : ℕ) : Unit → Machine → ℕ → ℕ → Except Halt (Unit × Machine) :=
  fun _ m entry vpn => .ok ((), { m with mem := Bytes.storeLE 8 m.mem entry (linearPte vpn flags) })

def mapLinearSegment (m : Machine) (self : ℕ) (segment : Segment) : Except Halt Machine :=
  mapPages (installLinear segment.flags) self () m segment.startVpn
    (segment.endVpn - segment.startVpn)

/-- The entry of a page in the frame at a physical address. -/
def framedPte (paddr flags : ℕ) : ℕ := paddr / 4 ||| flags ||| flagValid

def installFramed (flags : ℕ) : Unit → Machine → ℕ → ℕ → Except Halt (Unit × Machine) :=
  fun _ m entry _ =>
    match allocFrame m with
    | .error e => .error e
    | .ok (paddr, m) =>
      .ok ((), { m with mem := Bytes.storeLE 8 m.mem entry (framedPte paddr flags) })

def mapFramedSegment (m : Machine) (self : ℕ) (segment : Segment) : Except Halt Machine :=
  mapPages (installFramed segment.flags) self () m segment.startVpn
    (segment.endVpn - segment.startVpn)

/-- Copy `n` bytes one after the other. -/
def copyBytes (mem : Bytes.Memory) (dst src : ℕ) : ℕ → Bytes.Memory
  | 0 => mem
  | n + 1 => copyBytes (Function.update mem dst (mem (src % 2 ^ 64))) (dst + 1) (src + 1) n

/-- Fill a frame from the `l` bytes that are left at `s`. -/
def copyPage (mem : Bytes.Memory) (dst s l : ℕ) : Bytes.Memory :=
  if pageSize ≤ l then copyBytes mem dst s pageSize
  else Bytes.fill (copyBytes mem dst s l) (dst + l) (pageSize - l) 0

/-- Where the rest of the data is, and how much is left of it. -/
def nextPage (st : ℕ × ℕ) : ℕ × ℕ :=
  ((st.1 + pageSize) % 2 ^ 64, if pageSize ≤ st.2 then st.2 - pageSize else 0)

def installCopy (flags : ℕ) : ℕ × ℕ → Machine → ℕ → ℕ → Except Halt ((ℕ × ℕ) × Machine) :=
  fun (s, l) m entry _ =>
    match allocFrame m with
    | .error e => .error e
    | .ok (paddr, m) =>
      let mem := Bytes.storeLE 8 m.mem entry (framedPte paddr flags)
      .ok (nextPage (s, l), { m with mem := copyPage mem (accessVaViaPa paddr) s l })

def mapFramedAndCopy (m : Machine) (self : ℕ) (segment : Segment) (data length : ℕ) :
    Except Halt Machine :=
  mapPages (installCopy segment.flags) self (data, length) m segment.startVpn
    (segment.endVpn - segment.startVpn)

/-- A new root table: its page number. -/
def newMapping (m : Machine) : Except Halt (ℕ × Machine) :=
  match allocFrame m with
  | .error e => .error e
  | .ok (rootPaddr, m) => .ok (rootPaddr / pageSize, m)

/-- Map a list of segments, one after the other. -/
def mapLinearSegments (m : Machine) (self : ℕ) (segments : List Segment) : Except Halt Machine :=
  segments.foldlM (fun m s => mapLinearSegment m self s) m

/-- The segments of the kernel, and the memory behind it. -/
def Layout.segments (L : Layout) : List Segment :=
  [⟨L.textStart, L.rodataStart, 1 ||| flagReadable ||| flagExecutable⟩,
    ⟨L.rodataStart, L.dataStart, 1 ||| flagReadable⟩,
    ⟨L.dataStart, L.bssStart, 1 ||| flagReadable ||| flagWritable⟩,
    ⟨L.bssStart, L.kernelEnd, 1 ||| flagReadable ||| flagWritable⟩,
    ⟨L.kernelEnd, memoryEndPaddr + kernelMapOffset, 1 ||| flagReadable ||| flagWritable⟩]

/-- An address space with the kernel in it: the page number of its root. -/
def newKernelMapping (L : Layout) (m : Machine) : Except Halt (ℕ × Machine) := do
  let (root, m) ← newMapping m
  let m ← mapLinearSegments m root L.segments
  .ok (root, m)

/-- The devices for external interrupts. -/
def extInterruptSegments : List Segment :=
  [⟨0x0C000000 + kernelMapOffset, 0x0C001000 + kernelMapOffset,
      1 ||| flagReadable ||| flagWritable⟩,
    ⟨0x0C002000 + kernelMapOffset, 0x0C003000 + kernelMapOffset,
      1 ||| flagReadable ||| flagWritable⟩,
    ⟨0x0C201000 + kernelMapOffset, 0x0C202000 + kernelMapOffset,
      1 ||| flagReadable ||| flagWritable⟩,
    ⟨0x10000000 + kernelMapOffset, 0x10001000 + kernelMapOffset,
      1 ||| flagReadable ||| flagWritable⟩]

def mapExtInterruptArea (m : Machine) (self : ℕ) : Except Halt Machine :=
  mapLinearSegments m self extInterruptSegments

/-- The address space of the kernel itself. -/
def mapKernel (L : Layout) (m : Machine) : Except Halt (ℕ × Machine) := do
  let (root, m) ← newKernelMapping L m
  let m ← mapExtInterruptArea m root
  .ok (root, m)

/-! ### What a call that succeeds has done -/

section
variable {L : Layout} {m m' : Machine} {root r a entry vpn n f : ℕ}

lemma createTable_cases (h : createTable m entry = .ok m') :
    Bytes.loadLE 8 m.mem entry ≠ 0 ∧ m = m' ∨
    Bytes.loadLE 8 m.mem entry = 0 ∧ ∃ a m₁, allocFrame m = .ok (a, m₁) ∧ m' = { m₁ with
      mem := Bytes.storeLE 8 m₁.mem entry (a / pageSize * 2 ^ 10 ||| flagValid) } := by
  rw [createTable] at h
  split_ifs at h with hzero
  · split at h
    · cases h
    · rename_i a m₁ halloc
      exact .inr ⟨hzero, a, m₁, halloc, (Except.ok.inj h).symm⟩
  · exact .inl ⟨hzero, Except.ok.inj h⟩

lemma findLevels_cases {level : ℕ} {levels : List ℕ}
    (h : findLevels m entry (level :: levels) = .ok (a, m')) :
    ∃ m₁, createTable m entry = .ok m₁ ∧
      findLevels m₁ (entryAddr ((Bytes.loadLE 8 m₁.mem entry &&& pdeMask) * 4 % 2 ^ 64) level)
        levels = .ok (a, m') := by
  rw [findLevels] at h
  split at h
  · cases h
  · rename_i m₁ hcreate
    exact ⟨m₁, hcreate, h⟩

/-- One page, and the rest of the loop. -/
lemma mapPages_cases {σ : Type*} {install : σ → Machine → ℕ → ℕ → Except Halt (σ × Machine)}
    {st : σ}
    (h : mapPages install r st m vpn (n + 1) = .ok m') :
    ∃ a m₁ st' m₂, findEntry m r vpn = .ok (a, m₁) ∧ Bytes.loadLE 8 m₁.mem a = 0 ∧
      install st m₁ a vpn = .ok (st', m₂) ∧ mapPages install r st' m₂ (vpn + 1) n = .ok m' := by
  rw [mapPages] at h
  split at h
  · cases h
  · rename_i a m₁ hfind
    split_ifs at h with hzero
    split at h
    · cases h
    · rename_i st' m₂ hinst
      exact ⟨a, m₁, st', m₂, hfind, not_not.mp hzero, hinst, h⟩

lemma installFramed_cases {st st' : Unit} (h : installFramed f st m entry vpn = .ok (st', m')) :
    ∃ a m₁, allocFrame m = .ok (a, m₁) ∧
      m' = { m₁ with mem := Bytes.storeLE 8 m₁.mem entry (framedPte a f) } := by
  rw [installFramed] at h
  split at h
  · cases h
  · rename_i a m₁ halloc
    exact ⟨a, m₁, halloc, (Prod.mk.inj (Except.ok.inj h)).2.symm⟩

lemma installCopy_cases {st st' : ℕ × ℕ} (h : installCopy f st m entry vpn = .ok (st', m')) :
    ∃ a m₁, allocFrame m = .ok (a, m₁) ∧ st' = nextPage st ∧ m' = { m₁ with
      mem := copyPage (Bytes.storeLE 8 m₁.mem entry (framedPte a f)) (accessVaViaPa a) st.1
        st.2 } := by
  rw [installCopy] at h
  split at h
  · cases h
  · rename_i a m₁ halloc
    obtain ⟨rfl, rfl⟩ := Prod.mk.inj (Except.ok.inj h)
    exact ⟨a, m₁, halloc, rfl, rfl⟩

lemma newMapping_cases (h : newMapping m = .ok (root, m')) :
    ∃ a, allocFrame m = .ok (a, m') ∧ root = a / pageSize := by
  rw [newMapping] at h
  split at h
  · cases h
  · rename_i a m₁ halloc
    obtain ⟨rfl, rfl⟩ := Prod.mk.inj (Except.ok.inj h)
    exact ⟨a, halloc, rfl⟩

lemma newKernelMapping_cases (h : newKernelMapping L m = .ok (root, m')) :
    ∃ m₁, newMapping m = .ok (root, m₁) ∧ mapLinearSegments m₁ root L.segments = .ok m' := by
  rw [newKernelMapping] at h
  obtain ⟨⟨root₁, m₁⟩, hnew, h⟩ := bind_eq_ok h
  obtain ⟨m₂, hmap, h⟩ := bind_eq_ok h
  obtain ⟨rfl, rfl⟩ := Prod.mk.inj (Except.ok.inj h)
  exact ⟨m₁, hnew, hmap⟩

lemma mapKernel_cases (h : mapKernel L m = .ok (root, m')) :
    ∃ m₁, newKernelMapping L m = .ok (root, m₁) ∧ mapExtInterruptArea m₁ root = .ok m' := by
  rw [mapKernel] at h
  obtain ⟨⟨root₁, m₁⟩, hnew, h⟩ := bind_eq_ok h
  obtain ⟨m₂, hmap, h⟩ := bind_eq_ok h
  obtain ⟨rfl, rfl⟩ := Prod.mk.inj (Except.ok.inj h)
  exact ⟨m₁, hnew, hmap⟩

end

/-- The first frame that the allocator manages. -/
def Layout.startPpn (L : Layout) : ℕ :=
  (L.kernelEnd - kernelBeginVaddr + kernelBeginPaddr) / pageSize + 1

end Jokerix
