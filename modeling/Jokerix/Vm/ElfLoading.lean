import Jokerix.Vm.Isolation

/-!
# What a loaded program sees

The bytes that a program has in its address space after `newUserMapping`, against the bytes of its
file. The loader copies the data of a segment to the beginning of its first page.
-/

namespace Jokerix

/-- The byte at a virtual address of an address space, where the walk of the hardware ends at a
leaf. -/
def byteAt (mem : Bytes.Memory) (root va : ℕ) : Option UInt8 :=
  (sv39Address mem root va).map fun found => mem (accessVaViaPa found.1)

/-- The flags that the walk finds for an address let users do exactly what the flags of a program
header say. -/
def GrantsExactly (mem : Bytes.Memory) (root va flags : ℕ) : Prop :=
  ∃ pa f, sv39Address mem root va = some (pa, f) ∧ f / flagUser % 2 = 1 ∧
    (f / flagReadable % 2 = 1 ↔ flags &&& elfProgFlagRead ≠ 0) ∧
    (f / flagWritable % 2 = 1 ↔ flags &&& elfProgFlagWrite ≠ 0) ∧
    (f / flagExecutable % 2 = 1 ↔ flags &&& elfProgFlagExec ≠ 0)

/-- The flags of a program header that the hardware has a leaf for: there is no page that can only
be written, or not be accessed at all. -/
def HasLeaf (flags : ℕ) : Prop :=
  flags &&& elfProgFlagRead ≠ 0 ∨ flags &&& elfProgFlagExec ≠ 0 ∧ flags &&& elfProgFlagWrite = 0

instance (flags : ℕ) : Decidable (HasLeaf flags) := inferInstanceAs (Decidable (_ ∨ _))

/-- The segment of a program header is loaded: the bytes of the file, zeros behind them, and the
flags of the header on every page. -/
structure SegmentLoaded (mem₀ : Bytes.Memory) (elf : ℕ) (ph : ProgHeader) (mem : Bytes.Memory)
    (root : ℕ) : Prop where
  data : ∀ i < ph.filesz, byteAt mem root (ph.vaddr + i) = some (mem₀ (elf + (ph.off + i)))
  zero : ∀ i, ph.filesz ≤ i → i < ph.memsz → byteAt mem root (ph.vaddr + i) = some 0
  flags : ∀ i < ph.memsz, GrantsExactly mem root (ph.vaddr + i) ph.flags

/-- When a segment is loaded: it is empty, or the hardware has a leaf for its flags, it has virtual
addresses throughout and begins with a page, unless its data is zero. -/
def LoadsFaithfully (mem₀ : Bytes.Memory) (elf : ℕ) (ph : ProgHeader) : Prop :=
  ph.memsz = 0 ∨ HasLeaf ph.flags ∧ (∀ i < ph.memsz, Canonical (ph.vaddr + i)) ∧
    (ph.vaddr % pageSize = 0 ∨ ∀ i < ph.filesz, mem₀ (elf + (ph.off + i)) = 0)

/-- The headers of the image and the data of its segments lie inside the buffer, which is part of
the kernel image, and no segment has more data than memory. -/
structure InsideBuffer (L : Layout) (mem : Bytes.Memory) (elf size : ℕ) : Prop where
  buffer : elf + size ≤ L.kernelEnd
  header : 64 ≤ size
  table : (readElfHeader mem elf).phoff + (readElfHeader mem elf).phnum * sizeofProgHeader ≤ size
  data : ∀ i < (readElfHeader mem elf).phnum,
    let ph := progHeader mem (elf + (readElfHeader mem elf).phoff) i
    ph.type = elfProgLoad → ph.off + ph.filesz ≤ size ∧ ph.filesz ≤ ph.memsz

section
variable {L : Layout} {m m' : Machine} {owner : ℕ → Option Role} {root elf size : ℕ}
  {mem₀ : Bytes.Memory} {ph : ProgHeader}

lemma convertElfFlags_valid (flags : ℕ) : convertElfFlags flags ||| flagValid =
    17 + (if flags &&& elfProgFlagExec ≠ 0 then 8 else 0) +
      (if flags &&& elfProgFlagWrite ≠ 0 then 4 else 0) +
      (if flags &&& elfProgFlagRead ≠ 0 then 2 else 0) := by
  rw [convertElfFlags]
  split_ifs <;> rfl

/-- The bits of the entry of a page of a segment. -/
lemma convertElfFlags_bits (q flags : ℕ) :
    let e := q * 2 ^ 10 + (convertElfFlags flags ||| flagValid)
    e % 2 = 1 ∧ e / flagUser % 2 = 1 ∧ (e / flagReadable % 2 = 1 ↔ flags &&& elfProgFlagRead ≠ 0) ∧
      (e / flagWritable % 2 = 1 ↔ flags &&& elfProgFlagWrite ≠ 0) ∧
      (e / flagExecutable % 2 = 1 ↔ flags &&& elfProgFlagExec ≠ 0) := by
  rw [convertElfFlags_valid]
  simp only [flagUser, flagExecutable, flagWritable, flagReadable]
  refine ⟨?_, ?_, ?_, ?_, ?_⟩ <;> split_ifs <;> simp_all <;> omega

/-- The entry is a leaf when the hardware has one for the flags. -/
lemma isLeaf_convertElfFlags (q flags : ℕ) :
    IsLeaf (q * 2 ^ 10 + (convertElfFlags flags ||| flagValid)) ↔ HasLeaf flags := by
  obtain ⟨hvalid, _, hread, hwrite, hexec⟩ := convertElfFlags_bits q flags
  have hno : (q * 2 ^ 10 + (convertElfFlags flags ||| flagValid)) / flagWritable % 2 = 0 ↔
      flags &&& elfProgFlagWrite = 0 := by
    rw [← Nat.mod_two_ne_one, ← not_iff_not, not_not]
    exact hwrite
  rw [IsLeaf, HasLeaf, hread, hexec, hno]
  exact and_iff_right hvalid

/-- What the walk finds at an address of a page of a segment. -/
lemma Owned.sv39Address_segment (h : Owned UserEntry L.startPpn m owner)
    (hr : owner root = some (.table root [])) {va q flags : ℕ} (hc : Canonical va)
    (hq : q < 2 ^ 44) (hleaf : leafAt m.mem root (va / pageSize) =
      q * 2 ^ 10 + (convertElfFlags flags ||| flagValid)) :
    sv39Address m.mem root va = if HasLeaf flags then
      some (q * pageSize + va % pageSize, convertElfFlags flags ||| flagValid) else none := by
  have hf := or_valid_lt (convertElfFlags_lt flags)
  have hframe : (q * 2 ^ 10 + (convertElfFlags flags ||| flagValid)) / 2 ^ 10 % 2 ^ 44 = q := by
    omega
  have hlow : (q * 2 ^ 10 + (convertElfFlags flags ||| flagValid)) % 2 ^ 10 =
      convertElfFlags flags ||| flagValid := by
    omega
  rw [sv39Address, if_pos hc, h.sv39_leaf hr, hleaf]
  by_cases hflags : HasLeaf flags
  · rw [if_pos ((isLeaf_convertElfFlags q flags).mpr hflags), if_pos hflags, Option.bind_some]
    simp only [hframe, hlow, pow_zero, Nat.mod_one, Nat.one_mul, if_true]
  · rw [if_neg (mt (isLeaf_convertElfFlags q flags).mp hflags), if_neg hflags, Option.bind_none]

lemma kernelEnd_outside {x : ℕ} (h : x < L.kernelEnd) : Outside L.startPpn x :=
  outside_of_lt (h.trans L.kernelEnd_lt)

/-- The page of each address of a segment. -/
lemma segment_page {i : ℕ} (hc : ∀ i < ph.memsz, Canonical (ph.vaddr + i)) (hi : i < ph.memsz) :
    (ph.vaddr % pageSize + i) / pageSize < ph.segment.pages ∧
      (ph.vaddr + i) / pageSize =
        ph.segment.startVpn + (ph.vaddr % pageSize + i) / pageSize := by
  have hlast := hc (ph.memsz - 1) (by omega)
  simp only [Canonical] at hlast
  simp only [ProgHeader.segment, Segment.pages, Segment.endVpn, Segment.startVpn, pageSize]
  omega

/-- What lies at the addresses of a segment that is mapped. -/
lemma SegmentMapped.sv39Address (h : SegmentMapped L.startPpn mem₀ elf ph root m owner)
    (ho : Owned UserEntry L.startPpn m owner) (hr : owner root = some (.table root []))
    (hload : ph.type = elfProgLoad) (hc : ∀ i < ph.memsz, Canonical (ph.vaddr + i))
    (hsrc : ∀ j < ph.filesz, elf + ph.off + j < 2 ^ 64 ∧ Outside L.startPpn (elf + ph.off + j))
    (hoff : elf + ph.off < 2 ^ 64) {i : ℕ} (hi : i < ph.memsz) :
    ∃ pa, Jokerix.sv39Address m.mem root (ph.vaddr + i) = (if HasLeaf ph.flags then
        some (pa, convertElfFlags ph.flags ||| flagValid) else none) ∧
      m.mem (accessVaViaPa pa) = if ph.vaddr % pageSize + i < ph.filesz then
        mem₀ (elf + ph.off + (ph.vaddr % pageSize + i)) else 0 := by
  obtain ⟨hpage, hvpn⟩ := segment_page hc hi
  obtain ⟨content, ⟨q, hlt, hleaf, _, hbytes⟩, hcontent⟩ := h hload _ hpage
  rw [← hvpn] at hleaf
  have hlt' : q < 0x87fff := hlt
  have hmod : (ph.vaddr % pageSize + i) % pageSize < pageSize := Nat.mod_lt _ (by decide)
  have haddr : accessVaViaPa (q * pageSize + (ph.vaddr + i) % pageSize) =
      frameVa q + (ph.vaddr % pageSize + i) % pageSize := by
    simp only [accessVaViaPa, frameVa, pageSize, kernelMapOffset]
    omega
  have hwhere : (ph.vaddr % pageSize + i) / pageSize * pageSize +
      (ph.vaddr % pageSize + i) % pageSize = ph.vaddr % pageSize + i := Nat.div_add_mod' _ _
  rw [Nat.mod_eq_of_lt hoff] at hcontent
  refine ⟨_, ho.sv39Address_segment hr (hc i hi) (by omega) hleaf, ?_⟩
  rw [haddr, hbytes _ hmod, hcontent hsrc _ hmod, hwhere]

lemma SegmentMapped.byteAt (h : SegmentMapped L.startPpn mem₀ elf ph root m owner)
    (ho : Owned UserEntry L.startPpn m owner) (hr : owner root = some (.table root []))
    (hload : ph.type = elfProgLoad) (hc : ∀ i < ph.memsz, Canonical (ph.vaddr + i))
    (hsrc : ∀ j < ph.filesz, elf + ph.off + j < 2 ^ 64 ∧ Outside L.startPpn (elf + ph.off + j))
    (hoff : elf + ph.off < 2 ^ 64) {i : ℕ} (hi : i < ph.memsz) :
    Jokerix.byteAt m.mem root (ph.vaddr + i) = (if HasLeaf ph.flags then
      some (if ph.vaddr % pageSize + i < ph.filesz then
        mem₀ (elf + ph.off + (ph.vaddr % pageSize + i)) else 0) else none) := by
  obtain ⟨pa, hfound, hbyte⟩ := h.sv39Address ho hr hload hc hsrc hoff hi
  rw [Jokerix.byteAt, hfound]
  split_ifs with hflags
  · rw [Option.map_some, hbyte, if_pos ‹_›]
  · rw [Option.map_some, hbyte, if_neg ‹_›]
  · rfl

lemma SegmentMapped.grantsExactly (h : SegmentMapped L.startPpn mem₀ elf ph root m owner)
    (ho : Owned UserEntry L.startPpn m owner) (hr : owner root = some (.table root []))
    (hload : ph.type = elfProgLoad) (hc : ∀ i < ph.memsz, Canonical (ph.vaddr + i))
    (hsrc : ∀ j < ph.filesz, elf + ph.off + j < 2 ^ 64 ∧ Outside L.startPpn (elf + ph.off + j))
    (hoff : elf + ph.off < 2 ^ 64) (hflags : HasLeaf ph.flags) {i : ℕ} (hi : i < ph.memsz) :
    GrantsExactly m.mem root (ph.vaddr + i) ph.flags := by
  obtain ⟨pa, hfound, _⟩ := h.sv39Address ho hr hload hc hsrc hoff hi
  rw [if_pos hflags] at hfound
  have hbits := convertElfFlags_bits 0 ph.flags
  rw [Nat.zero_mul, Nat.zero_add] at hbits
  exact ⟨pa, _, hfound, hbits.2⟩

/-- Where the data is moved down by less than a page and nothing changes, it is zero. -/
lemma zero_of_shift {f : ℕ → UInt8} {n d : ℕ} (hd : 0 < d)
    (h : ∀ i < n, f i = if d + i < n then f (d + i) else 0) : ∀ i < n, f i = 0 := by
  intro i hi
  induction hk : n - i using Nat.strong_induction_on generalizing i with
  | _ k ih =>
    rw [h i hi]
    split_ifs with hlt
    · exact ih (n - (d + i)) (by omega) (d + i) hlt rfl
    · rfl

/-- A mapped segment is loaded exactly when it loads faithfully. -/
lemma SegmentMapped.loaded_iff (h : SegmentMapped L.startPpn mem₀ elf ph root m owner)
    (ho : Owned UserEntry L.startPpn m owner) (hr : owner root = some (.table root []))
    (hload : ph.type = elfProgLoad)
    (hsrc : ∀ j < ph.filesz, elf + ph.off + j < 2 ^ 64 ∧ Outside L.startPpn (elf + ph.off + j))
    (hoff : elf + ph.off < 2 ^ 64) (hsize : ph.filesz ≤ ph.memsz) :
    SegmentLoaded mem₀ elf ph m.mem root ↔ LoadsFaithfully mem₀ elf ph := by
  constructor
  · rintro ⟨hdata, hzero, _⟩
    by_cases hempty : ph.memsz = 0
    · exact .inl hempty
    have hsome : ∀ i < ph.memsz, (Jokerix.byteAt m.mem root (ph.vaddr + i)).isSome := by
      intro i hi
      by_cases hlt : i < ph.filesz
      · rw [hdata i hlt]
        rfl
      · rw [hzero i (by omega) hi]
        rfl
    have hc : ∀ i < ph.memsz, Canonical (ph.vaddr + i) := by
      intro i hi
      have hfound := hsome i hi
      by_contra hnot
      rw [Jokerix.byteAt, Jokerix.sv39Address, if_neg hnot] at hfound
      cases hfound
    have hflags : HasLeaf ph.flags := by
      have hfound := hsome 0 (by omega)
      by_contra hnot
      rw [h.byteAt ho hr hload hc hsrc hoff (by omega), if_neg hnot] at hfound
      cases hfound
    refine .inr ⟨hflags, hc, ?_⟩
    by_cases halign : ph.vaddr % pageSize = 0
    · exact .inl halign
    · refine .inr (zero_of_shift (f := fun i => mem₀ (elf + (ph.off + i)))
        (Nat.pos_of_ne_zero halign) ?_)
      intro i hi
      have hsame := (hdata i hi).symm.trans (h.byteAt ho hr hload hc hsrc hoff (by omega))
      rw [if_pos hflags] at hsame
      simp only [← Nat.add_assoc] at hsame ⊢
      exact Option.some.inj hsame
  · rintro (hempty | ⟨hflags, hc, halign⟩)
    · refine ⟨fun i hi => ?_, fun i _ hi => ?_, fun i hi => ?_⟩ <;> omega
    · have hbyte : ∀ i < ph.memsz, Jokerix.byteAt m.mem root (ph.vaddr + i) = some
          (if ph.vaddr % pageSize + i < ph.filesz then
            mem₀ (elf + ph.off + (ph.vaddr % pageSize + i)) else 0) := by
        intro i hi
        rw [h.byteAt ho hr hload hc hsrc hoff hi, if_pos hflags]
      refine ⟨fun i hi => ?_, fun i hge hi => ?_,
        fun i hi => h.grantsExactly ho hr hload hc hsrc hoff hflags hi⟩
      · rw [hbyte i (by omega)]
        rcases halign with halign | hall
        · rw [halign, Nat.zero_add, if_pos hi, Nat.add_assoc]
        · rw [hall i hi]
          split_ifs with hlt
          · rw [Nat.add_assoc, hall _ hlt]
          · rfl
      · rw [hbyte i hi, if_neg (by omega)]

/-- After `newUserMapping`, for each segment. -/
lemma newUserMapping_loaded_iff {roots : List ℕ} (hreach : Reach L m roots)
    (hbuf : InsideBuffer L m.mem elf size) (hok : newUserMapping L m elf = .ok (root, m')) :
    ∀ i < (readElfHeader m.mem elf).phnum,
      let ph := progHeader m.mem (elf + (readElfHeader m.mem elf).phoff) i
      ph.type = elfProgLoad →
      (SegmentLoaded m.mem elf ph m'.mem root ↔ LoadsFaithfully m.mem elf ph) := by
  obtain ⟨owner, ho, _⟩ := hreach.inv
  obtain ⟨hbuffer, hheader, htable, hdata⟩ := hbuf
  obtain ⟨_, _, _, _, _, hlt⟩ := L.bounds
  obtain ⟨_, owner', ho', _, hr', _, hsegs⟩ := ho.newUserMapping hok
  have hsegs := hsegs fun x _ hx => kernelEnd_outside (by omega)
  have hwrap : (elf + (readElfHeader m.mem elf).phoff) % 2 ^ 64 =
      elf + (readElfHeader m.mem elf).phoff := Nat.mod_eq_of_lt (by omega)
  simp only [hwrap] at hsegs
  have hsegs := hsegs fun x _ hx => ⟨by omega, kernelEnd_outside (by omega)⟩
  intro i hi ph hload
  obtain ⟨hoff, hsize⟩ := hdata i hi hload
  refine (hsegs i hi).loaded_iff ho' hr' hload (fun j hj => ?_) (by omega) hsize
  exact ⟨by omega, kernelEnd_outside (by omega)⟩

end

/-- After `newUserMapping` the segments of the program are loaded exactly when they load
faithfully. -/
theorem elf_loaded_iff (L : Layout) (m m' : Machine) (roots : List ℕ) (elf size root : ℕ)
    (hreach : Reach L m roots) (hbuf : InsideBuffer L m.mem elf size)
    (hok : newUserMapping L m elf = .ok (root, m')) :
    (∀ i < (readElfHeader m.mem elf).phnum,
      let ph := progHeader m.mem (elf + (readElfHeader m.mem elf).phoff) i
      ph.type = elfProgLoad → SegmentLoaded m.mem elf ph m'.mem root) ↔
    ∀ i < (readElfHeader m.mem elf).phnum,
      let ph := progHeader m.mem (elf + (readElfHeader m.mem elf).phoff) i
      ph.type = elfProgLoad → LoadsFaithfully m.mem elf ph :=
  forall_congr' fun i => forall_congr' fun hi => forall_congr' fun hload =>
    newUserMapping_loaded_iff hreach hbuf hok i hi hload

/-- The header of the file's segment. -/
lemma progHeader_sample : progHeader sampleMemory (sampleElf + 64) 0 =
    ⟨elfProgLoad, elfProgFlagRead, 120, 0x10008, 1, 1⟩ := by
  rw [progHeader, Nat.zero_mul, Nat.add_zero]
  exact readProgHeader_oneByteElf

lemma insideBuffer_sample : InsideBuffer sampleLayout sampleMemory sampleElf 121 := by
  have hread : readElfHeader sampleMemory sampleElf = ⟨elfMagic, 0x10008, 64, 1⟩ :=
    readElfHeader_oneByteElf
  refine ⟨by decide, by decide, ?_, ?_⟩
  · rw [hread]
    decide
  · rw [hread]
    intro i hi
    obtain rfl : i = 0 := by simpa using hi
    simp only [progHeader_sample]
    decide

/-- The small kernel loads the file. -/
lemma sample_newUserMapping : ∃ sta m' root, Reach sampleLayout ⟨sampleMemory, sta⟩ [] ∧
    newUserMapping sampleLayout ⟨sampleMemory, sta⟩ sampleElf = .ok (root, m') := by
  obtain ⟨sta, hnew, ho, hroom⟩ := sample_start
  have hframes := loadFrames_sample.trans (le_trans (by norm_num) hroom)
  rw [loadFrames] at hframes
  obtain ⟨root, m', hok, _⟩ := ho.newUserMapping_ok sampleLayout loadable_sample
    (le_trans (Nat.le_add_right _ _) hframes)
  exact ⟨sta, m', root, .init (m := ⟨sampleMemory, fun _ => 0, 0, 0, 0⟩) hnew, hok⟩

/-- The equivalence for the file whose segment begins inside a page. -/
theorem elf_loaded_iff_sample : ∃ sta m' root,
    newUserMapping sampleLayout ⟨sampleMemory, sta⟩ sampleElf = .ok (root, m') ∧
    ((∀ i < (readElfHeader sampleMemory sampleElf).phnum,
      let ph := progHeader sampleMemory (sampleElf + (readElfHeader sampleMemory sampleElf).phoff) i
      ph.type = elfProgLoad → SegmentLoaded sampleMemory sampleElf ph m'.mem root) ↔
    ∀ i < (readElfHeader sampleMemory sampleElf).phnum,
      let ph := progHeader sampleMemory (sampleElf + (readElfHeader sampleMemory sampleElf).phoff) i
      ph.type = elfProgLoad → LoadsFaithfully sampleMemory sampleElf ph) := by
  obtain ⟨sta, m', root, hreach, hok⟩ := sample_newUserMapping
  exact ⟨sta, m', root, hok, elf_loaded_iff sampleLayout ⟨sampleMemory, sta⟩ m' [] sampleElf 121
    root hreach insideBuffer_sample hok⟩

/-- A segment that begins inside a page is not loaded at its address: the data of the file is
`0x13`, at the address `0x10008`. -/
theorem not_segmentLoaded_inside_page : ∃ sta m' root, Reach sampleLayout ⟨sampleMemory, sta⟩ [] ∧
    InsideBuffer sampleLayout sampleMemory sampleElf 121 ∧
    newUserMapping sampleLayout ⟨sampleMemory, sta⟩ sampleElf = .ok (root, m') ∧
    ¬ ∀ i < (readElfHeader sampleMemory sampleElf).phnum,
      let ph := progHeader sampleMemory (sampleElf + (readElfHeader sampleMemory sampleElf).phoff) i
      ph.type = elfProgLoad → SegmentLoaded sampleMemory sampleElf ph m'.mem root := by
  obtain ⟨sta, m', root, hreach, hok⟩ := sample_newUserMapping
  have hread : readElfHeader sampleMemory sampleElf = ⟨elfMagic, 0x10008, 64, 1⟩ :=
    readElfHeader_oneByteElf
  have hiff := newUserMapping_loaded_iff hreach insideBuffer_sample hok
  refine ⟨sta, m', root, hreach, insideBuffer_sample, hok, fun hall => ?_⟩
  simp only [hread] at hall hiff
  have hhall := hall 0 (by decide)
  have hhiff := hiff 0 (by decide)
  rw [progHeader_sample] at hhall hhiff
  rcases (hhiff rfl).mp (hhall rfl) with hempty | ⟨_, _, halign | hzero⟩
  · cases hempty
  · exact absurd halign (by decide)
  · exact absurd (hzero 0 (by decide)) (by decide +kernel)

end Jokerix
