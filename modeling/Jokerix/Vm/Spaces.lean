import Jokerix.Vm.MapPages
import Jokerix.Vm.Elf

/-!
# Building address spaces

What `newKernelMapping`, `newUserMapping` and `newUserThread` put into a new address space: the
kernel at its fixed offset, the program segments and the user stack.
-/

namespace Jokerix

section
variable {s : ℕ} {m m' : Machine} {owner owner' : ℕ → Option Role} {r : ℕ}

/-! ### The kernel in every address space -/

/-- A segment is mapped for the kernel alone. -/
def KernelFlags (f : ℕ) : Prop := f < 2 ^ 10 ∧ (f ||| flagValid) / flagUser % 2 = 0

theorem Owned.mapLinearSegments {segs : List Segment} (h : Owned UserEntry s m owner)
    (hr : owner r = some (.table r [])) (hflags : ∀ seg ∈ segs, KernelFlags seg.flags)
    (hok : mapLinearSegments m r segs = .ok m') :
    ∃ owner', Owned UserEntry s m' owner' ∧ Extends s m owner m' owner' ∧ ∀ seg ∈ segs,
      ∀ k < seg.pages,
        leafAt m'.mem r (seg.startVpn + k) = linearPte (seg.startVpn + k) seg.flags := by
  induction segs generalizing m owner with
  | nil =>
    obtain rfl := Except.ok.inj hok
    exact ⟨owner, h, Extends.refl s m owner, by simp⟩
  | cons seg segs ih =>
    rw [Jokerix.mapLinearSegments, List.foldlM_cons] at hok
    obtain ⟨m₁, h₁, hok⟩ := bind_eq_ok hok
    obtain ⟨hf, huser⟩ := hflags seg List.mem_cons_self
    obtain ⟨owner₁, ho₁, hext₁, hpages₁⟩ := h.mapLinearSegment hr hf huser h₁
    obtain ⟨owner₂, ho₂, hext₂, hpages₂⟩ := ih ho₁ (hext₁.grows _ _ hr)
      (fun seg' hseg' => hflags seg' (List.mem_cons_of_mem _ hseg')) hok
    refine ⟨owner₂, ho₂, hext₁.trans hext₂, ?_⟩
    intro seg' hseg' k hk
    rcases List.mem_cons.mp hseg' with rfl | hseg'
    · exact ho₁.linear_extends (hext₁.grows _ _ hr) hext₂ hf (hpages₁ k hk)
    · exact hpages₂ seg' hseg' k hk

/-- The first virtual page behind the memory, as the kernel sees it. -/
def kernelEndVpn : ℕ := (memoryEndPaddr + kernelMapOffset) / pageSize

/-- The kernel and the memory are mapped at the fixed offset, for the kernel alone. -/
def KernelMapped (L : Layout) (mem : Bytes.Memory) (r : ℕ) : Prop :=
  ∀ vpn, L.textStart / pageSize ≤ vpn → vpn < kernelEndVpn →
    ∃ f < 16, f % 2 = 1 ∧ leafAt mem r vpn = (vpn - kernelPageOffset) * 2 ^ 10 + f

lemma layout_kernelFlags (L : Layout) : ∀ seg ∈ L.segments, KernelFlags seg.flags := by
  simp only [Layout.segments, List.forall_mem_cons]
  refine ⟨?_, ?_, ?_, ?_, ?_, by simp⟩ <;> exact ⟨by decide, by decide⟩

lemma extInterrupt_kernelFlags : ∀ seg ∈ extInterruptSegments, KernelFlags seg.flags := by
  simp only [extInterruptSegments, List.forall_mem_cons]
  refine ⟨?_, ?_, ?_, ?_, by simp⟩ <;> exact ⟨by decide, by decide⟩

/-- The number of pages between aligned bounds. -/
lemma aligned_pages {a b : ℕ} (f : ℕ) (hb : pageSize ∣ b) (hpos : 0 < b) (hlt : b < 2 ^ 64) :
    (Segment.mk a b f).pages = b / pageSize - a / pageSize := by
  obtain ⟨c, rfl⟩ := hb
  simp only [Segment.pages, Segment.endVpn, Segment.startVpn]
  simp only [pageSize] at *
  omega

/-- The pages between aligned bounds. -/
lemma pages_of_aligned {a b f vpn : ℕ} (hb : pageSize ∣ b) (hpos : 0 < b) (hlt : b < 2 ^ 64)
    (h1 : a / pageSize ≤ vpn) (h2 : vpn < b / pageSize) :
    ∃ k < (Segment.mk a b f).pages, vpn = (Segment.mk a b f).startVpn + k := by
  refine ⟨vpn - a / pageSize, ?_, ?_⟩
  · rw [aligned_pages f hb hpos hlt]
    omega
  · simp only [Segment.startVpn]
    omega

/-- The bounds of the kernel image in numbers. -/
lemma Layout.bounds (L : Layout) : L.textStart = 0xffffffff80200000 ∧
    L.textStart ≤ L.rodataStart ∧ L.rodataStart ≤ L.dataStart ∧ L.dataStart ≤ L.bssStart ∧
    L.bssStart ≤ L.kernelEnd ∧ L.kernelEnd < 2 ^ 64 := by
  have h1 := L.text_eq
  have h2 := L.room
  simp only [kernelBeginVaddr, memoryEndPaddr, kernelMapOffset] at h1 h2
  exact ⟨h1, L.text_le, L.rodata_le, L.data_le, L.bss_le, by omega⟩

lemma memoryEnd_aligned : pageSize ∣ memoryEndPaddr + kernelMapOffset ∧
    0 < memoryEndPaddr + kernelMapOffset ∧ memoryEndPaddr + kernelMapOffset < 2 ^ 64 := by
  simp only [pageSize, memoryEndPaddr, kernelMapOffset]
  norm_num

/-- Every page of the kernel lies in one of its segments. -/
lemma layout_covers (L : Layout) {vpn : ℕ} (h1 : L.textStart / pageSize ≤ vpn)
    (h2 : vpn < kernelEndVpn) : ∃ seg ∈ L.segments, ∃ k < seg.pages, vpn = seg.startVpn + k := by
  obtain ⟨htext, hrodata, hdata, hbss, hend, hlt⟩ := L.bounds
  simp only [Layout.segments, List.exists_mem_cons_iff]
  by_cases h3 : vpn < L.rodataStart / pageSize
  · exact .inl (pages_of_aligned L.rodata_aligned (by omega) (by omega) h1 h3)
  refine .inr ?_
  by_cases h4 : vpn < L.dataStart / pageSize
  · exact .inl (pages_of_aligned L.data_aligned (by omega) (by omega) (by omega) h4)
  refine .inr ?_
  by_cases h5 : vpn < L.bssStart / pageSize
  · exact .inl (pages_of_aligned L.bss_aligned (by omega) (by omega) (by omega) h5)
  refine .inr ?_
  by_cases h6 : vpn < L.kernelEnd / pageSize
  · exact .inl (pages_of_aligned L.end_aligned (by omega) (by omega) (by omega) h6)
  refine .inr (.inl ?_)
  obtain ⟨haligned, hpos, hlt'⟩ := memoryEnd_aligned
  exact pages_of_aligned haligned hpos hlt' (by omega) h2

/-- The flags of the kernel's own segments grant nothing beyond reading, writing and executing. -/
lemma layout_flags_lt (L : Layout) : ∀ seg ∈ L.segments, seg.flags ||| flagValid < 16 := by
  simp only [Layout.segments, List.forall_mem_cons]
  refine ⟨by decide, by decide, by decide, by decide, by decide, by simp⟩

lemma kernelMapped_of_segments {L : Layout} {mem : Bytes.Memory}
    (h : ∀ seg ∈ L.segments, ∀ k < seg.pages,
      leafAt mem r (seg.startVpn + k) = linearPte (seg.startVpn + k) seg.flags) :
    KernelMapped L mem r := by
  intro vpn h1 h2
  obtain ⟨seg, hseg, k, hk, rfl⟩ := layout_covers L h1 h2
  obtain ⟨htext, _⟩ := L.bounds
  refine ⟨_, layout_flags_lt L seg hseg, Nat.or_mod_two_eq_one.mpr (.inr rfl), ?_⟩
  rw [h seg hseg k hk, linearPte_eq (layout_kernelFlags L seg hseg).1]
  have hpage : (seg.startVpn + k + 2 ^ 64 - kernelPageOffset) % 2 ^ 54 =
      seg.startVpn + k - kernelPageOffset := by
    simp only [kernelEndVpn, memoryEndPaddr, kernelMapOffset, pageSize, kernelPageOffset] at *
    omega
  rw [hpage]

lemma KernelMapped.extends {L : Layout} (hk : KernelMapped L m.mem r)
    (h : Owned UserEntry s m owner)
    (hr : owner r = some (.table r [])) (hext : Extends s m owner m' owner') :
    KernelMapped L m'.mem r := by
  intro vpn h1 h2
  obtain ⟨f, hf, hodd, hleaf⟩ := hk vpn h1 h2
  refine ⟨f, hf, hodd, ?_⟩
  rw [h.leafAt_extends hext hr (by omega), hleaf]

/-- A new address space has the kernel in it. -/
theorem Owned.newKernelMapping {L : Layout} (h : Owned UserEntry s m owner) {root : ℕ}
    (hok : newKernelMapping L m = .ok (root, m')) :
    owner root = none ∧ ∃ owner', Owned UserEntry s m' owner' ∧ Extends s m owner m' owner' ∧
      owner' root = some (.table root []) ∧ KernelMapped L m'.mem root := by
  obtain ⟨m₁, h₁, h₂⟩ := newKernelMapping_cases hok
  obtain ⟨hnone, owner₁, ho₁, hext₁, hr₁⟩ := h.newMapping h₁
  obtain ⟨owner₂, ho₂, hext₂, hpages⟩ := ho₁.mapLinearSegments hr₁ (layout_kernelFlags L) h₂
  exact ⟨hnone, owner₂, ho₂, hext₁.trans hext₂, hext₂.grows _ _ hr₁,
    kernelMapped_of_segments hpages⟩

/-! ### The program -/

lemma convertElfFlags_lt (flags : ℕ) : convertElfFlags flags < 2 ^ 10 := by
  simp only [convertElfFlags, flagUser, flagExecutable, flagWritable, flagReadable]
  split_ifs <;> decide

/-- The segment that a program header asks for. -/
def ProgHeader.segment (ph : ProgHeader) : Segment :=
  ⟨ph.vaddr, (ph.vaddr + ph.memsz) % 2 ^ 64, convertElfFlags ph.flags⟩

/-- The pages of a program segment are mapped. The page `k` has the data of the segment from its
byte `k * pageSize` on, where that lies outside the frames. -/
def SegmentMapped (s : ℕ) (mem₀ : Bytes.Memory) (elf : ℕ) (ph : ProgHeader) (r : ℕ) (m : Machine)
    (owner : ℕ → Option Role) : Prop :=
  ph.type = elfProgLoad → ∀ k < ph.segment.pages, ∃ content,
    FramedPage m owner r (ph.segment.startVpn + k) (ph.segment.flags ||| flagValid) content ∧
    ((∀ j < ph.filesz, (elf + ph.off) % 2 ^ 64 + j < 2 ^ 64 ∧
      Outside s ((elf + ph.off) % 2 ^ 64 + j)) → ∀ i < pageSize, content i =
        if k * pageSize + i < ph.filesz then
          mem₀ ((elf + ph.off) % 2 ^ 64 + (k * pageSize + i))
        else 0)

lemma SegmentMapped.extends {mem₀ : Bytes.Memory} {elf : ℕ} {ph : ProgHeader}
    (hseg : SegmentMapped s mem₀ elf ph r m owner) (h : Owned UserEntry s m owner)
    (hr : owner r = some (.table r [])) (hext : Extends s m owner m' owner') :
    SegmentMapped s mem₀ elf ph r m' owner' := by
  intro hload k hk
  obtain ⟨content, hpage, hcontent⟩ := hseg hload k hk
  exact ⟨content, hpage.extends h hr (or_valid_ne_zero _) hext, hcontent⟩

lemma Owned.mapProgHeader {elf : ℕ} {ph : ProgHeader} (h : Owned UserEntry s m owner)
    (hr : owner r = some (.table r [])) (hok : mapProgHeader m r elf ph = .ok m') :
    ∃ owner', Owned UserEntry s m' owner' ∧ Extends s m owner m' owner' ∧
      SegmentMapped s m.mem elf ph r m' owner' := by
  rw [Jokerix.mapProgHeader] at hok
  split_ifs at hok with hload
  · obtain rfl := Except.ok.inj hok
    exact ⟨owner, h, Extends.refl s m owner, fun hl => absurd hl hload⟩
  · obtain ⟨owner', h', hext, hpages⟩ := h.mapFramedAndCopy hr
      (show ph.segment.flags < 2 ^ 10 from convertElfFlags_lt _) (Nat.mod_lt _ (by norm_num)) hok
    exact ⟨owner', h', hext, fun _ => hpages⟩

/-- The header number `i` of a program header table. -/
def progHeader (mem : Bytes.Memory) (table i : ℕ) : ProgHeader :=
  readProgHeader mem (table + i * sizeofProgHeader)

/-- Headers outside the frames are read the same later. -/
lemma readElfHeader_congr {mem mem' : Bytes.Memory} {elf : ℕ}
    (h : ∀ x, elf ≤ x → x < elf + 64 → mem' x = mem x) :
    readElfHeader mem' elf = readElfHeader mem elf := by
  simp only [readElfHeader, ElfHeader.mk.injEq]
  refine ⟨?_, ?_, ?_, ?_⟩ <;> exact Bytes.loadLE_congr fun x h1 h2 => h x (by omega) (by omega)

lemma readProgHeader_congr {mem mem' : Bytes.Memory} {a : ℕ}
    (h : ∀ x, a ≤ x → x < a + sizeofProgHeader → mem' x = mem x) :
    readProgHeader mem' a = readProgHeader mem a := by
  simp only [sizeofProgHeader] at h
  simp only [readProgHeader, ProgHeader.mk.injEq]
  refine ⟨?_, ?_, ?_, ?_, ?_, ?_⟩ <;>
    exact Bytes.loadLE_congr fun x h1 h2 => h x (by omega) (by omega)

/-- All segments of the program are mapped, when the header table lies outside the frames. -/
theorem Owned.mapProgHeaders {elf table n : ℕ} {mem₀ : Bytes.Memory} (h : Owned UserEntry s m owner)
    (hr : owner r = some (.table r [])) (hmem : ∀ x, Outside s x → m.mem x = mem₀ x)
    (hok : mapProgHeaders m r elf table n = .ok m') :
    ∃ owner', Owned UserEntry s m' owner' ∧ Extends s m owner m' owner' ∧
      ((∀ x, table ≤ x → x < table + n * sizeofProgHeader → x < 2 ^ 64 ∧ Outside s x) →
        ∀ i < n, SegmentMapped s mem₀ elf (progHeader mem₀ table i) r m' owner') := by
  induction n generalizing m owner table with
  | zero =>
    obtain rfl := Except.ok.inj hok
    exact ⟨owner, h, Extends.refl s m owner, fun _ i hi => absurd hi (Nat.not_lt_zero i)⟩
  | succ n ih =>
    rw [Jokerix.mapProgHeaders] at hok
    obtain ⟨m₁, h₁, hok⟩ := bind_eq_ok hok
    obtain ⟨owner₁, ho₁, hext₁, hseg⟩ := h.mapProgHeader hr h₁
    obtain ⟨owner₂, ho₂, hext₂, hsegs⟩ := ih ho₁ (hext₁.grows _ _ hr)
      (fun x hx => (hext₁.outside x hx).trans (hmem x hx)) hok
    refine ⟨owner₂, ho₂, hext₁.trans hext₂, ?_⟩
    intro htable i hi
    simp only [sizeofProgHeader] at *
    cases i with
    | zero =>
      have hread : readProgHeader m.mem table = progHeader mem₀ table 0 := by
        rw [progHeader, Nat.zero_mul, Nat.add_zero]
        apply readProgHeader_congr
        intro x hx1 hx2
        simp only [sizeofProgHeader] at hx2
        exact hmem x (htable x hx1 (by omega)).2
      rw [hread] at hseg
      refine SegmentMapped.extends ?_ ho₁ (hext₁.grows _ _ hr) hext₂
      intro hload k hk
      obtain ⟨content, hpage, hcontent⟩ := hseg hload k hk
      refine ⟨content, hpage, ?_⟩
      intro hsrc j hj
      rw [hcontent hsrc j hj]
      split_ifs with hlt
      · exact hmem _ (hsrc _ hlt).2
      · rfl
    | succ i =>
      have hlast := htable (table + 56) (by omega) (by omega)
      have hwrap : (table + 56) % 2 ^ 64 = table + 56 := Nat.mod_eq_of_lt hlast.1
      rw [hwrap] at hsegs
      have := hsegs (fun x hx1 hx2 => htable x (by omega) (by omega)) i (by omega)
      rw [progHeader] at this ⊢
      rwa [show table + 56 + i * sizeofProgHeader = table + (i + 1) * sizeofProgHeader by
        simp only [sizeofProgHeader]; omega] at this

/-- The address space of a program. -/
theorem Owned.newUserMapping {L : Layout} {elf root : ℕ} (h : Owned UserEntry s m owner)
    (hok : newUserMapping L m elf = .ok (root, m')) :
    owner root = none ∧ ∃ owner', Owned UserEntry s m' owner' ∧ Extends s m owner m' owner' ∧
      owner' root = some (.table root []) ∧ KernelMapped L m'.mem root ∧
      ((∀ x, elf ≤ x → x < elf + 64 → Outside s x) →
        let eHeader := readElfHeader m.mem elf
        let table := (elf + eHeader.phoff) % 2 ^ 64
        (∀ x, table ≤ x → x < table + eHeader.phnum * sizeofProgHeader → x < 2 ^ 64 ∧ Outside s x) →
          ∀ i < eHeader.phnum, SegmentMapped s m.mem elf (progHeader m.mem table i) root
            m' owner') := by
  obtain ⟨m₁, h₁, _, h₂⟩ := newUserMapping_cases hok
  obtain ⟨hnone, owner₁, ho₁, hext₁, hr₁, hk₁⟩ := h.newKernelMapping h₁
  obtain ⟨owner₂, ho₂, hext₂, hsegs⟩ :=
    ho₁.mapProgHeaders hr₁ (fun x hx => hext₁.outside x hx) h₂
  refine ⟨hnone, owner₂, ho₂, hext₁.trans hext₂, hext₂.grows _ _ hr₁,
    hk₁.extends ho₁ hr₁ hext₂, ?_⟩
  intro hheader
  have hread : readElfHeader m₁.mem elf = readElfHeader m.mem elf :=
    readElfHeader_congr fun x h1 h2 => hext₁.outside x (hheader x h1 h2)
  rw [hread] at hsegs
  exact hsegs

/-- The address space of a thread, with its stack. -/
theorem Owned.newUserThreadMapping {L : Layout} {data root : ℕ} (h : Owned UserEntry s m owner)
    (hok : newUserThreadMapping L m data = .ok (root, m')) :
    owner root = none ∧ ∃ owner', Owned UserEntry s m' owner' ∧ Extends s m owner m' owner' ∧
      owner' root = some (.table root []) ∧ KernelMapped L m'.mem root := by
  obtain ⟨m₁, h₁, h₂⟩ := newUserThreadMapping_cases hok
  obtain ⟨hnone, owner₁, ho₁, hext₁, hr₁, hk₁, _⟩ := h.newUserMapping h₁
  obtain ⟨owner₂, ho₂, hext₂, _⟩ := ho₁.mapFramedSegment hr₁ (by decide) h₂
  exact ⟨hnone, owner₂, ho₂, hext₁.trans hext₂, hext₂.grows _ _ hr₁, hk₁.extends ho₁ hr₁ hext₂⟩

end

end Jokerix
