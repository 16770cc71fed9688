import Jokerix.Vm.Mapping

/-!
# Loading an ELF file

`newUserMapping` of `kernel/elf.c`, which maps the segments of an ELF image in memory, and the
user stack that `newUserThread` of `kernel/thread.c` adds. The fields of the headers are read at
their offsets in the C structures.
-/

namespace Jokerix

def elfMagic : ℕ := 0x464C457F
def elfProgLoad : ℕ := 1
def elfProgFlagExec : ℕ := 1
def elfProgFlagWrite : ℕ := 2
def elfProgFlagRead : ℕ := 4

/-- The fields of `ElfHeader` that are used. -/
structure ElfHeader where
  magic : ℕ
  entry : ℕ
  phoff : ℕ
  phnum : ℕ
  deriving DecidableEq

def readElfHeader (mem : Bytes.Memory) (elf : ℕ) : ElfHeader where
  magic := Bytes.loadLE 4 mem elf
  entry := Bytes.loadLE 8 mem (elf + 24)
  phoff := Bytes.loadLE 8 mem (elf + 32)
  phnum := Bytes.loadLE 2 mem (elf + 56)

/-- The fields of `ProgHeader` that are used. -/
structure ProgHeader where
  type : ℕ
  flags : ℕ
  off : ℕ
  vaddr : ℕ
  filesz : ℕ
  memsz : ℕ
  deriving DecidableEq

def sizeofProgHeader : ℕ := 56

def readProgHeader (mem : Bytes.Memory) (a : ℕ) : ProgHeader where
  type := Bytes.loadLE 4 mem a
  flags := Bytes.loadLE 4 mem (a + 4)
  off := Bytes.loadLE 8 mem (a + 8)
  vaddr := Bytes.loadLE 8 mem (a + 16)
  filesz := Bytes.loadLE 8 mem (a + 32)
  memsz := Bytes.loadLE 8 mem (a + 40)

/-- The page flags of a segment. -/
def convertElfFlags (flags : ℕ) : ℕ :=
  let ma := 1
  let ma := ma ||| flagUser
  let ma := if flags &&& elfProgFlagExec ≠ 0 then ma ||| flagExecutable else ma
  let ma := if flags &&& elfProgFlagWrite ≠ 0 then ma ||| flagWritable else ma
  let ma := if flags &&& elfProgFlagRead ≠ 0 then ma ||| flagReadable else ma
  ma

/-- Map one program segment. -/
def mapProgHeader (m : Machine) (root elf : ℕ) (ph : ProgHeader) : Except Halt Machine :=
  if ph.type ≠ elfProgLoad then .ok m
  else
    let segment := ⟨ph.vaddr, (ph.vaddr + ph.memsz) % 2 ^ 64, convertElfFlags ph.flags⟩
    mapFramedAndCopy m root segment ((elf + ph.off) % 2 ^ 64) ph.filesz

/-- The loop over the program headers from the address `offset` on. The file lies outside the frames
that are filled, so their number stays the same. -/
def mapProgHeaders (m : Machine) (root elf offset : ℕ) : ℕ → Except Halt Machine
  | 0 => .ok m
  | n + 1 => do
    let m ← mapProgHeader m root elf (readProgHeader m.mem offset)
    mapProgHeaders m root elf ((offset + sizeofProgHeader) % 2 ^ 64) n

/-- The address space of the program whose ELF file lies at `elf`: the page number of its root. -/
def newUserMapping (L : Layout) (m : Machine) (elf : ℕ) : Except Halt (ℕ × Machine) := do
  let (root, m) ← newKernelMapping L m
  let eHeader := readElfHeader m.mem elf
  if eHeader.magic ≠ elfMagic then .error (.panic "Unknown file type!")
  else
    let m ← mapProgHeaders m root elf ((elf + eHeader.phoff) % 2 ^ 64) eHeader.phnum
    .ok (root, m)

def userStackSegment : Segment :=
  ⟨userStackOffset, userStackOffset + userStackSize,
    1 ||| flagUser ||| flagReadable ||| flagWritable⟩

/-- The address space that `newUserThread` builds, with the user stack. -/
def newUserThreadMapping (L : Layout) (m : Machine) (data : ℕ) : Except Halt (ℕ × Machine) := do
  let (root, m) ← newUserMapping L m data
  let m ← mapFramedSegment m root userStackSegment
  .ok (root, m)

/-! ### What a call that succeeds has done -/

section
variable {L : Layout} {m m' : Machine} {root elf : ℕ}

lemma newUserMapping_cases (h : newUserMapping L m elf = .ok (root, m')) :
    ∃ m₁, newKernelMapping L m = .ok (root, m₁) ∧ (readElfHeader m₁.mem elf).magic = elfMagic ∧
      mapProgHeaders m₁ root elf ((elf + (readElfHeader m₁.mem elf).phoff) % 2 ^ 64)
        (readElfHeader m₁.mem elf).phnum = .ok m' := by
  rw [newUserMapping] at h
  obtain ⟨⟨root₁, m₁⟩, hkernel, h⟩ := bind_eq_ok h
  simp only at h
  split_ifs at h with hmagic
  obtain ⟨m₂, hmap, h⟩ := bind_eq_ok h
  obtain ⟨rfl, rfl⟩ := Prod.mk.inj (Except.ok.inj h)
  exact ⟨m₁, hkernel, not_not.mp hmagic, hmap⟩

lemma newUserThreadMapping_cases (h : newUserThreadMapping L m elf = .ok (root, m')) :
    ∃ m₁, newUserMapping L m elf = .ok (root, m₁) ∧
      mapFramedSegment m₁ root userStackSegment = .ok m' := by
  rw [newUserThreadMapping] at h
  obtain ⟨⟨root₁, m₁⟩, huser, h⟩ := bind_eq_ok h
  obtain ⟨m₂, hstack, h⟩ := bind_eq_ok h
  obtain ⟨rfl, rfl⟩ := Prod.mk.inj (Except.ok.inj h)
  exact ⟨m₁, huser, hstack⟩

end

end Jokerix
