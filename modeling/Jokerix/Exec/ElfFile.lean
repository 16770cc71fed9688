import Jokerix.Vm.Clashes
import Jokerix.Vm.ElfLoading

/-!
# ELF files

A file as a list of bytes: when it is an ELF file, and which segments it has. A copy of the file in
memory has the same headers.
-/

namespace Jokerix.Exec

/-- The bytes of a file as a memory from address zero on. -/
def fileMemory (content : List UInt8) : Bytes.Memory := fun x => content.getD x 0

/-- The first bytes of an ELF file. -/
def HasMagic (content : List UInt8) : Prop := [0x7f, 0x45, 0x4c, 0x46] <+: content

instance (content : List UInt8) : Decidable (HasMagic content) :=
  inferInstanceAs (Decidable (_ <+: _))

/-- The header of a file. -/
def fileHeader (content : List UInt8) : ElfHeader := readElfHeader (fileMemory content) 0

/-- An ELF file: its headers and the data of its segments lie inside the file, and no segment has
more data than memory. -/
structure WellFormedElf (content : List UInt8) : Prop where
  magic : HasMagic content
  header : 64 ≤ content.length
  table : (fileHeader content).phoff + (fileHeader content).phnum * sizeofProgHeader ≤
    content.length
  data : ∀ i < (fileHeader content).phnum,
    let ph := progHeader (fileMemory content) (fileHeader content).phoff i
    ph.type = elfProgLoad → ph.off + ph.filesz ≤ content.length ∧ ph.filesz ≤ ph.memsz

/-- No page of a segment of the file is the kernel's, the stack's or another segment's. -/
def Mappable (content : List UInt8) : Prop := SegmentsApart (fileMemory content) 0

/-- The frames that suffice to load a file. -/
def fileFrames (content : List UInt8) : ℕ := loadFrames (fileMemory content) 0

/-- The bytes of a file lie at an address. -/
def BufferHolds (mem : Bytes.Memory) (buf : ℕ) (content : List UInt8) : Prop :=
  ∀ i < content.length, mem (buf + i) = content.getD i 0

section
variable {mem : Bytes.Memory} {buf t n s : ℕ} {content : List UInt8}

/-! ### The magic number -/

lemma magic_bytes (a b c d : UInt8) :
    a.toNat + 256 * (b.toNat + 256 * (c.toNat + 256 * (d.toNat + 256 * 0))) = elfMagic ↔
      a = 0x7f ∧ b = 0x45 ∧ c = 0x4c ∧ d = 0x46 := by
  have ha := a.toNat_lt
  have hb := b.toNat_lt
  have hc := c.toNat_lt
  have hd := d.toNat_lt
  rw [elfMagic, ← UInt8.toNat_inj, ← UInt8.toNat_inj, ← UInt8.toNat_inj, ← UInt8.toNat_inj]
  change _ ↔ a.toNat = 0x7f ∧ b.toNat = 0x45 ∧ c.toNat = 0x4c ∧ d.toNat = 0x46
  omega

lemma fileHeader_magic : (fileHeader content).magic = elfMagic ↔ HasMagic content := by
  have hbytes : (fileHeader content).magic = elfMagic ↔ _ := magic_bytes (content.getD 0 0)
    (content.getD 1 0) (content.getD 2 0) (content.getD 3 0)
  rw [hbytes, HasMagic]
  match content with
  | [] => simp
  | [_] => simp
  | [_, _] => simp
  | [_, _, _] => simp
  | a :: b :: c :: d :: rest => simp [eq_comm]

/-! ### A copy in memory -/

lemma BufferHolds.loadLE {w a : ℕ} (h : BufferHolds mem buf content) (ha : a + w ≤ content.length) :
    Bytes.loadLE w mem (buf + a) = Bytes.loadLE w (fileMemory content) a :=
  Bytes.loadLE_shift fun x _ hx => h x (by omega)

lemma BufferHolds.readElfHeader (h : BufferHolds mem buf content) (hlen : 64 ≤ content.length) :
    Jokerix.readElfHeader mem buf = fileHeader content := by
  have hload : ∀ w a, a + w ≤ 64 →
      Bytes.loadLE w mem (buf + a) = Bytes.loadLE w (fileMemory content) (0 + a) := by
    intro w a ha
    rw [h.loadLE (by omega), Nat.zero_add]
  simp only [fileHeader, Jokerix.readElfHeader, ElfHeader.mk.injEq]
  exact ⟨hload 4 0 (by omega), hload 8 24 (by omega), hload 8 32 (by omega), hload 2 56 (by omega)⟩

lemma BufferHolds.readProgHeader (h : BufferHolds mem buf content)
    (hlen : t + sizeofProgHeader ≤ content.length) :
    Jokerix.readProgHeader mem (buf + t) = Jokerix.readProgHeader (fileMemory content) t := by
  simp only [sizeofProgHeader] at hlen
  have hload : ∀ w a, a + w ≤ 56 →
      Bytes.loadLE w mem (buf + t + a) = Bytes.loadLE w (fileMemory content) (t + a) := by
    intro w a ha
    rw [Nat.add_assoc]
    exact h.loadLE (by omega)
  simp only [Jokerix.readProgHeader, ProgHeader.mk.injEq]
  exact ⟨hload 4 0 (by omega), hload 4 4 (by omega), hload 8 8 (by omega), hload 8 16 (by omega),
    hload 8 32 (by omega), hload 8 40 (by omega)⟩

lemma BufferHolds.loadSegments (h : BufferHolds mem buf content)
    (hlen : t + n * sizeofProgHeader ≤ content.length) (hfits : buf + content.length ≤ 2 ^ 64) :
    Jokerix.loadSegments mem (buf + t) n = Jokerix.loadSegments (fileMemory content) t n := by
  induction n generalizing t with
  | zero => rfl
  | succ n ih =>
    rw [Nat.succ_mul] at hlen
    rw [Jokerix.loadSegments, Jokerix.loadSegments, h.readProgHeader (by omega)]
    have hrest : Jokerix.loadSegments mem ((buf + t + sizeofProgHeader) % 2 ^ 64) n =
        Jokerix.loadSegments (fileMemory content) ((t + sizeofProgHeader) % 2 ^ 64) n := by
      cases n with
      | zero => rfl
      | succ n =>
        rw [Nat.succ_mul] at hlen
        have hpos : 0 < sizeofProgHeader := by decide
        rw [Nat.mod_eq_of_lt (by omega), Nat.mod_eq_of_lt (by omega), Nat.add_assoc]
        exact ih (by rw [Nat.succ_mul]; omega)
    simp only [hrest]

lemma BufferHolds.elfSegments (h : BufferHolds mem buf content) (hwf : WellFormedElf content)
    (hfits : buf + content.length < 2 ^ 64) :
    Jokerix.elfSegments mem buf = Jokerix.elfSegments (fileMemory content) 0 := by
  have htable := hwf.table
  simp only [Jokerix.elfSegments]
  rw [h.readElfHeader hwf.header]
  change _ = Jokerix.loadSegments (fileMemory content) ((0 + (fileHeader content).phoff) % 2 ^ 64)
    (fileHeader content).phnum
  rw [Nat.zero_add, Nat.mod_eq_of_lt (by omega), Nat.mod_eq_of_lt (by omega)]
  exact h.loadSegments htable (by omega)

/-- The headers of a copy below the frames lie outside of them. -/
lemma BufferHolds.headersOutside {L : Layout} (h : BufferHolds mem buf content)
    (hwf : WellFormedElf content) (hend : buf + content.length ≤ L.kernelEnd) :
    HeadersOutside L.startPpn mem buf := by
  obtain ⟨_, _, _, _, _, hlt⟩ := L.bounds
  have hheader := hwf.header
  have htable := hwf.table
  have hread := h.readElfHeader hwf.header
  constructor
  · exact fun x _ h2 => kernelEnd_outside (by omega)
  · rw [headerTable, hread, Nat.mod_eq_of_lt (by omega)]
    exact fun x _ h2 => ⟨by omega, kernelEnd_outside (by omega)⟩

/-- A copy of an ELF file is mapped exactly when the file is mappable. -/
lemma BufferHolds.newUserThreadMapping_iff {L : Layout} {sta : FrameTree} {owner : ℕ → Option Role}
    (h : BufferHolds mem buf content) (hwf : WellFormedElf content)
    (hend : buf + content.length ≤ L.kernelEnd) (ho : Owned UserEntry L.startPpn ⟨mem, sta⟩ owner)
    (hroom : fileFrames content ≤ room ⟨mem, sta⟩) :
    (∃ root m', newUserThreadMapping L ⟨mem, sta⟩ buf = .ok (root, m')) ↔ Mappable content := by
  obtain ⟨_, _, _, _, _, hlt⟩ := L.bounds
  have hsegs := h.elfSegments hwf (by omega)
  rw [ho.newUserThreadMapping_ok_iff L (h.headersOutside hwf hend)
    (by rw [loadFrames, hsegs]; exact hroom)]
  have hmagic : (Jokerix.readElfHeader mem buf).magic = elfMagic := by
    rw [h.readElfHeader hwf.header]
    exact fileHeader_magic.mpr hwf.magic
  constructor
  · rintro ⟨_, hfree, hapart⟩
    rw [hsegs] at hfree hapart
    exact ⟨hfree, hapart⟩
  · rintro ⟨hfree, hapart⟩
    refine ⟨hmagic, ?_, ?_⟩ <;> simpa only [hsegs]

end

end Jokerix.Exec
