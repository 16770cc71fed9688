import Jokerix.Vm.Progress

/-!
# Loading a program completes

An ELF image is loadable when its headers lie outside the frames and its segments meet neither each
other nor the kernel nor the user stack. With enough free frames such an image is mapped without a
panic.
-/

namespace Jokerix

/-- The segments of the LOAD headers of a program header table. -/
def loadSegments (mem : Bytes.Memory) (offset : ℕ) : ℕ → List Segment
  | 0 => []
  | n + 1 =>
    let ph := readProgHeader mem offset
    let rest := loadSegments mem ((offset + sizeofProgHeader) % 2 ^ 64) n
    if ph.type = elfProgLoad then ph.segment :: rest else rest

/-- The segments of the ELF image at an address. -/
def elfSegments (mem : Bytes.Memory) (elf : ℕ) : List Segment :=
  let eHeader := readElfHeader mem elf
  loadSegments mem ((elf + eHeader.phoff) % 2 ^ 64) eHeader.phnum

/-- The address of the program header table. -/
def headerTable (mem : Bytes.Memory) (elf : ℕ) : ℕ := (elf + (readElfHeader mem elf).phoff) % 2 ^ 64

/-- The headers of the ELF image at an address lie outside the frames. -/
structure HeadersOutside (s : ℕ) (mem : Bytes.Memory) (elf : ℕ) : Prop where
  header : ∀ x, elf ≤ x → x < elf + 64 → Outside s x
  table : ∀ x, headerTable mem elf ≤ x →
    x < headerTable mem elf + (readElfHeader mem elf).phnum * sizeofProgHeader →
    x < 2 ^ 64 ∧ Outside s x

/-- The segment has none of the kernel's pages, and none of the stack's. -/
structure Segment.Free (seg : Segment) : Prop where
  pages : seg.pages ≤ 2 ^ 27
  kernel : ∀ k < seg.pages, MissesKernel (seg.startVpn + k)
  stack : ∀ k < seg.pages, userStackSegment.Misses (seg.startVpn + k)

/-- An ELF image that can be loaded. -/
structure Loadable (s : ℕ) (mem : Bytes.Memory) (elf : ℕ) : Prop where
  outside : HeadersOutside s mem elf
  magic : (readElfHeader mem elf).magic = elfMagic
  free : ∀ seg ∈ elfSegments mem elf, seg.Free
  apart : (elfSegments mem elf).Pairwise fun a b => ∀ k < b.pages, a.Misses (b.startVpn + k)

/-- The frames that suffice to load an ELF image. -/
def loadFrames (mem : Bytes.Memory) (elf : ℕ) : ℕ :=
  137 + ((elfSegments mem elf).map (Segment.frames · 1)).sum + userStackSegment.frames 1

section
variable {s r : ℕ} {m m' : Machine} {owner owner' : ℕ → Option Role}

/-- The rest of a header table outside the frames. -/
lemma table_next {table n : ℕ} (htable : ∀ x, table ≤ x → x < table + (n + 1) * sizeofProgHeader →
      x < 2 ^ 64 ∧ Outside s x) :
    ∀ x, (table + sizeofProgHeader) % 2 ^ 64 ≤ x →
      x < (table + sizeofProgHeader) % 2 ^ 64 + n * sizeofProgHeader → x < 2 ^ 64 ∧
      Outside s x := by
  intro x h1 h2
  simp only [sizeofProgHeader] at *
  have hlast := (htable (table + 55) (by omega) (by omega)).1
  by_cases hwrap : table + 56 < 2 ^ 64
  · rw [Nat.mod_eq_of_lt hwrap] at h1 h2
    exact htable x (by omega) (by omega)
  · exact absurd (htable (table + 56) (by omega) (by omega)).1 (by omega)

theorem Owned.mapProgHeaders_ok {mem₀ : Bytes.Memory} (h : Owned UserEntry s m owner)
    (elf table n : ℕ) (hr : owner r = some (.table r []))
    (hmem : ∀ x, Outside s x → m.mem x = mem₀ x)
    (htable : ∀ x, table ≤ x → x < table + n * sizeofProgHeader → x < 2 ^ 64 ∧ Outside s x)
    (hu : ∀ seg ∈ loadSegments mem₀ table n, Unmapped m.mem r seg)
    (hmiss : (loadSegments mem₀ table n).Pairwise fun a b => ∀ k < b.pages,
      a.Misses (b.startVpn + k))
    (hroom : ((loadSegments mem₀ table n).map (Segment.frames · 1)).sum ≤ room m) :
    ∃ m', Jokerix.mapProgHeaders m r elf table n = .ok m' ∧
      room m ≤ room m' + ((loadSegments mem₀ table n).map (Segment.frames · 1)).sum ∧
      ∀ v, (∀ seg ∈ loadSegments mem₀ table n, seg.Misses v) →
        leafAt m'.mem r v = leafAt m.mem r v := by
  induction n generalizing m owner table with
  | zero => exact ⟨m, rfl, Nat.le_add_right _ _, fun _ _ => rfl⟩
  | succ n ih =>
    have hread : readProgHeader m.mem table = readProgHeader mem₀ table := by
      apply readProgHeader_congr
      intro x h1 h2
      exact hmem x (htable x h1 (by simp only [sizeofProgHeader] at *; omega)).2
    have htable' := table_next htable
    rw [Jokerix.mapProgHeaders, hread]
    rw [loadSegments] at hu hmiss hroom ⊢
    by_cases hload : (readProgHeader mem₀ table).type = elfProgLoad
    · simp only [if_pos hload, List.map_cons, List.sum_cons] at hu hmiss hroom ⊢
      rw [List.pairwise_cons] at hmiss
      obtain ⟨m₁, hok₁, hroom₁, hleaf₁⟩ := h.mapFramedAndCopy_ok
        ((elf + (readProgHeader mem₀ table).off) % 2 ^ 64) (readProgHeader mem₀ table).filesz hr
        (show (readProgHeader mem₀ table).segment.flags < 2 ^ 10 from convertElfFlags_lt _)
        (hu _ List.mem_cons_self) (by omega)
      obtain ⟨owner₁, h₁, hext₁, _⟩ := h.mapFramedAndCopy hr (convertElfFlags_lt _)
        (Nat.mod_lt _ (by norm_num)) hok₁
      obtain ⟨m', hok, hroom', hleaf⟩ := ih h₁ _ (hext₁.grows _ _ hr)
        (fun x hx => (hext₁.outside x hx).trans (hmem x hx)) htable'
        (fun seg hseg => ⟨(hu seg (List.mem_cons_of_mem _ hseg)).1, fun k hk => by
          rw [hleaf₁ _ (hmiss.1 seg hseg k hk)]
          exact (hu seg (List.mem_cons_of_mem _ hseg)).2 k hk⟩) hmiss.2 (by omega)
      have hheader : Jokerix.mapProgHeader m r elf (readProgHeader mem₀ table) = .ok m₁ := by
        rw [Jokerix.mapProgHeader, if_neg (not_not.mpr hload)]
        exact hok₁
      refine ⟨m', (bind_ok hheader).trans hok, by omega, ?_⟩
      intro v hv
      rw [hleaf v fun seg hseg => hv seg (List.mem_cons_of_mem _ hseg),
        hleaf₁ v (hv _ List.mem_cons_self)]
    · simp only [if_neg hload] at hu hmiss hroom ⊢
      have hheader : Jokerix.mapProgHeader m r elf (readProgHeader mem₀ table) = .ok m := by
        rw [Jokerix.mapProgHeader, if_pos hload]
      obtain ⟨m', hok, hrest⟩ := ih h _ hr hmem htable' hu hmiss hroom
      exact ⟨m', (bind_ok hheader).trans hok, hrest⟩

/-- The headers are read the same as long as nothing outside the frames changes. -/
lemma loadSegments_congr {mem mem' : Bytes.Memory} {table n : ℕ}
    (hmem : ∀ x, Outside s x → mem' x = mem x)
    (htable : ∀ x, table ≤ x → x < table + n * sizeofProgHeader → x < 2 ^ 64 ∧ Outside s x) :
    loadSegments mem' table n = loadSegments mem table n := by
  induction n generalizing table with
  | zero => rfl
  | succ n ih =>
    have hread : readProgHeader mem' table = readProgHeader mem table := by
      apply readProgHeader_congr
      intro x h1 h2
      exact hmem x (htable x h1 (by simp only [sizeofProgHeader] at *; omega)).2
    rw [loadSegments, loadSegments, hread, ih (table_next htable)]

lemma HeadersOutside.congr {mem mem' : Bytes.Memory} {elf : ℕ} (h : HeadersOutside s mem elf)
    (hmem : ∀ x, Outside s x → mem' x = mem x) :
    readElfHeader mem' elf = readElfHeader mem elf ∧
      elfSegments mem' elf = elfSegments mem elf := by
  have hread : readElfHeader mem' elf = readElfHeader mem elf :=
    readElfHeader_congr fun x h1 h2 => hmem x (h.header x h1 h2)
  refine ⟨hread, ?_⟩
  rw [elfSegments, elfSegments, hread]
  exact loadSegments_congr hmem h.table

lemma Loadable.congr {mem mem' : Bytes.Memory} {elf : ℕ} (h : Loadable s mem elf)
    (hmem : ∀ x, Outside s x → mem' x = mem x) :
    Loadable s mem' elf ∧ loadFrames mem' elf = loadFrames mem elf := by
  obtain ⟨hread, hsegs⟩ := h.outside.congr hmem
  refine ⟨⟨⟨h.outside.header, ?_⟩, ?_, ?_, ?_⟩, ?_⟩
  · rw [headerTable, hread]
    exact h.outside.table
  · rw [hread]
    exact h.magic
  · rw [hsegs]
    exact h.free
  · rw [hsegs]
    exact h.apart
  · rw [loadFrames, loadFrames, hsegs]

/-- A loadable image is mapped. -/
theorem Owned.newUserMapping_ok (L : Layout) {elf : ℕ} (h : Owned UserEntry s m owner)
    (hl : Loadable s m.mem elf)
    (hroom : 137 + ((elfSegments m.mem elf).map (Segment.frames · 1)).sum ≤ room m) :
    ∃ root m', Jokerix.newUserMapping L m elf = .ok (root, m') ∧
      room m ≤ room m' + (137 + ((elfSegments m.mem elf).map (Segment.frames · 1)).sum) ∧
      ∀ v, MissesKernel v → (∀ seg ∈ elfSegments m.mem elf, seg.Misses v) →
        leafAt m'.mem root v = 0 := by
  obtain ⟨root, m₁, hok₁, hroom₁, hleaf₁⟩ := h.newKernelMapping_ok L (by omega)
  obtain ⟨_, owner₁, h₁, hext₁, hr₁, _⟩ := h.newKernelMapping hok₁
  have hread : readElfHeader m₁.mem elf = readElfHeader m.mem elf :=
    readElfHeader_congr fun x h1 h2 => hext₁.outside x (hl.outside.header x h1 h2)
  obtain ⟨m', hok, hroom', hleaf⟩ := h₁.mapProgHeaders_ok elf
    (headerTable m.mem elf) (readElfHeader m.mem elf).phnum hr₁
    (fun x hx => hext₁.outside x hx) hl.outside.table
    (fun seg hseg => ⟨(hl.free seg hseg).pages, fun k hk =>
      hleaf₁ _ ((hl.free seg hseg).kernel k hk)⟩) hl.apart
    (by change ((elfSegments m.mem elf).map (Segment.frames · 1)).sum ≤ room m₁; omega)
  refine ⟨root, m', ?_, ?_, ?_⟩
  · rw [Jokerix.newUserMapping, bind_ok hok₁]
    simp only [hread]
    rw [if_neg (not_not.mpr hl.magic)]
    exact bind_ok hok
  · have hroom' :
        room m₁ ≤ room m' + ((elfSegments m.mem elf).map (Segment.frames · 1)).sum := hroom'
    omega
  · intro v hk hv
    rw [hleaf v hv, hleaf₁ v hk]

lemma userStack_pages : userStackSegment.pages = 128 ∧ userStackSegment.startVpn = 0xffffffff00000 ∧
    userStackSegment.flags < 2 ^ 10 := by
  decide

/-- The address space of a thread: a loadable image, and enough frames. -/
theorem Owned.newUserThreadMapping_ok (L : Layout) {elf : ℕ} (h : Owned UserEntry s m owner)
    (hl : Loadable s m.mem elf) (hroom : loadFrames m.mem elf ≤ room m) :
    ∃ root m', Jokerix.newUserThreadMapping L m elf = .ok (root, m') ∧
      room m ≤ room m' + loadFrames m.mem elf := by
  rw [loadFrames] at hroom ⊢
  obtain ⟨hpages, hstart, hflags⟩ := userStack_pages
  obtain ⟨root, m₁, hok₁, hroom₁, hleaf₁⟩ := h.newUserMapping_ok L hl (by omega)
  obtain ⟨_, owner₁, h₁, _, hr₁, _⟩ := h.newUserMapping hok₁
  have hu : Unmapped m₁.mem root userStackSegment := by
    refine ⟨by rw [hpages]; norm_num, fun k hk => hleaf₁ _ ?_ ?_⟩
    · intro vpn h1 h2
      rw [hstart]
      omega
    · exact fun seg hseg k' hk' => ((hl.free seg hseg).stack k' hk' k hk).symm
  obtain ⟨m', hok, hroom', _⟩ := h₁.mapFramedSegment_ok hr₁ hflags hu (by omega)
  refine ⟨root, m', ?_, by omega⟩
  rw [Jokerix.newUserThreadMapping, bind_ok hok₁]
  exact bind_ok hok

end

/-! ### A program -/

/-- The memory below the first managed frame lies outside the frames. -/
lemma outside_of_lt {s x : ℕ} (h : x < frameVa s) : Outside s x := by
  rintro p hp _ ⟨hx, _⟩
  simp only [frameVa, pageSize] at h hx
  omega

/-- The `n` bytes of a number, from the lowest on. -/
def leBytes : ℕ → ℕ → List UInt8
  | 0, _ => []
  | n + 1, v => UInt8.ofNat v :: leBytes n (v / 256)

/-- An ELF file with one segment, which has the given address and one byte. -/
def oneByteElf (vaddr : ℕ) : List UInt8 :=
  leBytes 4 elfMagic ++ leBytes 20 0 ++ leBytes 8 vaddr ++ leBytes 8 64 ++ leBytes 16 0 ++
    leBytes 8 1 ++ leBytes 4 elfProgLoad ++ leBytes 4 elfProgFlagRead ++ leBytes 8 120 ++
    leBytes 8 vaddr ++ leBytes 8 0 ++ leBytes 8 1 ++ leBytes 8 1 ++ leBytes 8 0 ++ [0x13]

/-- A memory that has the given bytes at an address, and zeros elsewhere. -/
def memoryWith (base : ℕ) (bytes : List UInt8) : Bytes.Memory :=
  fun x => if base ≤ x then bytes.getD (x - base) 0 else 0

/-- A small kernel image. -/
def sampleLayout : Layout where
  textStart := 0xffffffff80200000
  rodataStart := 0xffffffff80208000
  dataStart := 0xffffffff8020a000
  bssStart := 0xffffffff80210000
  kernelEnd := 0xffffffff80a20000
  text_eq := rfl
  text_le := by decide
  rodata_le := by decide
  data_le := by decide
  bss_le := by decide
  rodata_aligned := by decide
  data_aligned := by decide
  bss_aligned := by decide
  end_aligned := by decide
  room := by decide

/-- Where the file lies. -/
def sampleElf : ℕ := 0xffffffff80300000

lemma readElfHeader_oneByteElf :
    readElfHeader (memoryWith sampleElf (oneByteElf 0x10008)) sampleElf =
      ⟨elfMagic, 0x10008, 64, 1⟩ := by
  decide +kernel

lemma readProgHeader_oneByteElf :
    readProgHeader (memoryWith sampleElf (oneByteElf 0x10008)) (sampleElf + 64) =
      ⟨elfProgLoad, elfProgFlagRead, 120, 0x10008, 1, 1⟩ := by
  decide +kernel

/-- The memory with this file. -/
def sampleMemory : Bytes.Memory := memoryWith sampleElf (oneByteElf 0x10008)

lemma headerTable_sample : headerTable sampleMemory sampleElf = sampleElf + 64 := by
  rw [headerTable, sampleMemory, readElfHeader_oneByteElf]
  decide

lemma elfSegments_sample : elfSegments sampleMemory sampleElf =
    [⟨0x10008, 0x10009, convertElfFlags elfProgFlagRead⟩] := by
  have htable := headerTable_sample
  rw [headerTable] at htable
  rw [elfSegments]
  simp only [htable]
  rw [sampleMemory, readElfHeader_oneByteElf]
  simp only [loadSegments]
  rw [readProgHeader_oneByteElf]
  rfl

lemma sampleLayout_startPpn : sampleLayout.startPpn = 0x80a21 := by
  decide

/-- The file can be loaded. -/
lemma loadable_sample : Loadable sampleLayout.startPpn sampleMemory sampleElf := by
  have hbelow : ∀ x, x < 0xffffffff80300400 → Outside sampleLayout.startPpn x := by
    intro x hx
    apply outside_of_lt
    rw [sampleLayout_startPpn]
    simp only [frameVa, pageSize, kernelMapOffset]
    omega
  have hseg : ∀ seg ∈ elfSegments sampleMemory sampleElf, seg.pages = 1 ∧ seg.startVpn = 0x10 := by
    rw [elfSegments_sample]
    simp only [List.mem_singleton, forall_eq]
    decide
  obtain ⟨hpages, hstart, _⟩ := userStack_pages
  refine ⟨⟨?_, ?_⟩, ?_, ?_, ?_⟩
  · intro x _ hx
    simp only [sampleElf] at hx
    exact hbelow x (by omega)
  · rw [headerTable_sample, sampleMemory, readElfHeader_oneByteElf]
    intro x _ hx
    simp only [sizeofProgHeader, sampleElf] at hx
    exact ⟨by omega, hbelow x (by omega)⟩
  · rw [sampleMemory, readElfHeader_oneByteElf]
  · intro seg hmem
    obtain ⟨h1, h2⟩ := hseg seg hmem
    refine ⟨by rw [h1]; norm_num, fun k hk vpn _ _ => ?_, fun k hk k' hk' => ?_⟩
    · rw [h2]
      omega
    · rw [h2, hstart]
      omega
  · rw [elfSegments_sample]
    exact List.pairwise_singleton _ _

lemma loadFrames_sample : loadFrames sampleMemory sampleElf ≤ 300 := by
  rw [loadFrames, elfSegments_sample]
  decide

/-- The small kernel with a new allocator has room. -/
lemma sample_start : ∃ sta,
    newAllocator ⟨fun _ => 0, 0, 0, 0⟩ sampleLayout.startPpn (memoryEndPaddr / pageSize) = .ok sta ∧
    Owned UserEntry sampleLayout.startPpn ⟨sampleMemory, sta⟩ (fun _ => none) ∧
    745 ≤ room ⟨sampleMemory, sta⟩ := by
  have hlt : sampleLayout.startPpn < memoryEndPaddr / pageSize := by
    rw [sampleLayout_startPpn]
    simp only [memoryEndPaddr, pageSize]
    norm_num
  obtain ⟨sta, hnew⟩ := (newAllocator_ok_iff ⟨fun _ => 0, 0, 0, 0⟩ hlt.le (by decide)).mpr (by
    rw [sampleLayout_startPpn]
    simp only [memoryEndPaddr, pageSize, maxPhysicalPages]
    norm_num)
  have hroom := room_newAllocator (m := ⟨sampleMemory, fun _ => 0, 0, 0, 0⟩) hlt.le hnew
  refine ⟨sta, hnew, owned_newAllocator (m := ⟨sampleMemory, fun _ => 0, 0, 0, 0⟩) hlt.le hnew, ?_⟩
  rw [sampleLayout_startPpn, endPpn_eq] at hroom
  rw [hroom]
  omega

end Jokerix
