import Jokerix.Vm.Isolation

/-!
# The map of the kernel

`newKernelMapping` and `mapExtInterruptArea` together: the sections of the kernel, the memory behind
it and four device pages, each at the fixed offset and with its own permissions, and nothing else.
-/

namespace Jokerix

/-- The physical addresses of the devices for external interrupts, one page each. -/
def deviceStarts : List ℕ := [0x0C000000, 0x0C002000, 0x0C201000, 0x10000000]

def IsDevice (va : ℕ) : Prop :=
  ∃ d ∈ deviceStarts, d + kernelMapOffset ≤ va ∧ va < d + pageSize + kernelMapOffset

instance (va : ℕ) : Decidable (IsDevice va) :=
  inferInstanceAs (Decidable (∃ d ∈ deviceStarts, _))

/-- The permissions of the section at a virtual address. -/
def Layout.perm (L : Layout) (va : ℕ) : Option ℕ :=
  if L.textStart ≤ va ∧ va < L.rodataStart then some (flagReadable ||| flagExecutable)
  else if L.rodataStart ≤ va ∧ va < L.dataStart then some flagReadable
  else if L.dataStart ≤ va ∧ va < memoryEndPaddr + kernelMapOffset then
    some (flagReadable ||| flagWritable)
  else if IsDevice va then some (flagReadable ||| flagWritable)
  else none

/-- The page of a kernel address lies at the page offset of the kernel. -/
lemma sub_kernelMapOffset {va : ℕ} (h : kernelMapOffset ≤ va) :
    (va / pageSize - kernelPageOffset) * pageSize + va % pageSize = va - kernelMapOffset := by
  obtain ⟨k, rfl⟩ := Nat.exists_eq_add_of_le h
  have hoffset : kernelMapOffset = pageSize * kernelPageOffset := by
    simp only [kernelMapOffset, pageSize, kernelPageOffset]
  rw [Nat.add_sub_cancel_left, hoffset, Nat.mul_add_div (by decide), Nat.mul_add_mod,
    Nat.add_sub_cancel_left, Nat.div_add_mod']

/-! ### Aligned segments -/

/-- A segment of whole pages at or above the offset of the kernel. -/
structure Segment.Aligned (seg : Segment) : Prop where
  start : pageSize ∣ seg.startVaddr
  stop : pageSize ∣ seg.endVaddr
  high : kernelMapOffset ≤ seg.startVaddr
  le : seg.startVaddr ≤ seg.endVaddr
  lt : seg.endVaddr < 2 ^ 64

/-- The address lies in the segment. -/
def Segment.Contains (seg : Segment) (va : ℕ) : Prop := seg.startVaddr ≤ va ∧ va < seg.endVaddr

section
variable {seg a b : Segment} {va : ℕ}

lemma Segment.Aligned.pos (h : seg.Aligned) : 0 < seg.endVaddr := by
  have hhigh := h.high
  have hle := h.le
  simp only [kernelMapOffset] at hhigh
  omega

lemma Segment.Aligned.pages_eq (h : seg.Aligned) :
    seg.pages = seg.endVaddr / pageSize - seg.startVaddr / pageSize :=
  aligned_pages seg.flags h.stop (h.pos) h.lt

lemma aligned_mk {s e f : ℕ} (hs : pageSize ∣ s) (he : pageSize ∣ e) (hhigh : kernelMapOffset ≤ s)
    (hle : s ≤ e) (hlt : e < 2 ^ 64) : (Segment.mk s e f).Aligned := ⟨hs, he, hhigh, hle, hlt⟩

/-- A canonical address shares its entry with a page of the segment only if it lies in it. -/
lemma Segment.Aligned.misses (h : seg.Aligned) (hc : Canonical va) (hva : ¬ seg.Contains va) :
    seg.Misses (va / pageSize) := by
  have hpages := h.pages_eq
  obtain ⟨⟨s, hs⟩, ⟨e, he⟩, hhigh, hle, hlt⟩ := h
  simp only [Segment.Misses, Segment.Contains, Segment.startVpn, Canonical] at *
  rw [hs, he] at hpages hva
  rw [hs] at hhigh
  rw [he] at hlt
  simp only [pageSize, kernelMapOffset] at *
  intro k hk
  omega

lemma Segment.Aligned.exists_page (h : seg.Aligned) (hva : seg.Contains va) :
    ∃ k < seg.pages, va / pageSize = seg.startVpn + k := by
  refine pages_of_aligned h.stop (h.pos) h.lt
    (Nat.div_le_div_right hva.1) ?_
  obtain ⟨e, he⟩ := h.stop
  have hlt := hva.2
  rw [he] at hlt ⊢
  simp only [pageSize] at *
  omega

/-- Segments that do not meet have no page in common. -/
lemma Segment.Aligned.misses_of_disjoint (ha : a.Aligned) (hb : b.Aligned)
    (h : a.endVaddr ≤ b.startVaddr ∨ b.endVaddr ≤ a.startVaddr) :
    ∀ k < b.pages, a.Misses (b.startVpn + k) := by
  intro k hk
  have hpages := hb.pages_eq
  obtain ⟨⟨s, hs⟩, ⟨e, he⟩, hhigh, hle, hlt⟩ := hb
  have hpage : b.startVpn + k = (b.startVaddr + k * pageSize) / pageSize := by
    rw [Nat.add_mul_div_right _ _ (by decide), Segment.startVpn]
  rw [hpage]
  apply ha.misses
  · simp only [Canonical]
    rw [hs, he] at hpages
    simp only [pageSize, kernelMapOffset] at *
    omega
  · rintro ⟨h1, h2⟩
    rw [hs, he] at hpages
    simp only [pageSize] at *
    omega

lemma Segment.Aligned.pages_le (h : seg.Aligned) : seg.pages ≤ 2 ^ 27 := by
  have hpages := h.pages_eq
  have hhigh := h.high
  have hlt := h.lt
  simp only [pageSize] at hpages
  simp only [kernelMapOffset] at hhigh
  omega

end

section
variable {s : ℕ} {m m' : Machine} {owner : ℕ → Option Role} {r : ℕ} {segs : List Segment}

/-- Pages outside the segments stay as they were. -/
lemma mapLinearSegments_other (h : Owned (fun _ => False) s m owner)
    (hr : owner r = some (.table r [])) (hflags : ∀ seg ∈ segs, seg.flags < 2 ^ 64)
    (hok : mapLinearSegments m r segs = .ok m') (v : ℕ) (hv : ∀ seg ∈ segs, seg.Misses v) :
    leafAt m'.mem r v = leafAt m.mem r v := by
  induction segs generalizing m owner with
  | nil =>
    cases hok
    rfl
  | cons seg segs ih =>
    rw [List.forall_mem_cons] at hflags hv
    rw [mapLinearSegments, List.foldlM_cons] at hok
    obtain ⟨m₁, h₁, hok⟩ := bind_eq_ok hok
    obtain ⟨hfilled, owner₁, ho₁, hgrow⟩ := mapPages_filled (fillsOne_linear hflags.1) h hr h₁
    rw [ih ho₁ (hgrow _ _ hr) hflags.2 hok hv.2]
    exact hfilled.other v hv.1

/-- Segments that do not meet, and are not mapped yet, are never found to be mapped. -/
lemma mapLinearSegments_error (h : Owned (fun _ => False) s m owner)
    (hr : owner r = some (.table r [])) (hflags : ∀ seg ∈ segs, seg.flags < 2 ^ 64)
    (hu : ∀ seg ∈ segs, Unmapped m.mem r seg)
    (hmiss : segs.Pairwise fun a b => ∀ k < b.pages, a.Misses (b.startVpn + k)) {e : Halt}
    (herr : mapLinearSegments m r segs = .error e) : e = depleted := by
  induction segs generalizing m owner with
  | nil => cases herr
  | cons seg segs ih =>
    rw [List.forall_mem_cons] at hflags hu
    rw [List.pairwise_cons] at hmiss
    rw [mapLinearSegments, List.foldlM_cons] at herr
    cases h₁ : mapLinearSegment m r seg with
    | error e' =>
      rw [h₁] at herr
      cases herr
      refine mapPages_error (fillsOne_linear hflags.1) ?_ h hr hu.1.1 hu.1.2 h₁
      intro _ _ _ _ _ hinst
      cases hinst
    | ok m₁ =>
      rw [bind_ok h₁] at herr
      obtain ⟨hfilled, owner₁, ho₁, hgrow⟩ := mapPages_filled (fillsOne_linear hflags.1) h hr h₁
      refine ih ho₁ (hgrow _ _ hr) hflags.2 (fun seg' hseg' => ⟨(hu.2 seg' hseg').1, ?_⟩) hmiss.2
        herr
      intro k hk
      rw [hfilled.other _ (hmiss.1 seg' hseg' k hk)]
      exact (hu.2 seg' hseg').2 k hk

end

/-! ### The segments of the kernel and of the devices -/

/-- All segments of the kernel's address space. -/
def Layout.allSegments (L : Layout) : List Segment := L.segments ++ extInterruptSegments

section
variable {L : Layout} {va f : ℕ}

/-- The bounds of the image with what the linker script says of them. -/
lemma allSegments_aligned (L : Layout) : ∀ seg ∈ L.allSegments, seg.Aligned := by
  obtain ⟨htext, hrodata, hdata, hbss, hend, hlt⟩ := L.bounds
  obtain ⟨haligned, _, hlt'⟩ := memoryEnd_aligned
  have hroom := L.room
  have hlow : kernelMapOffset ≤ L.textStart := by
    rw [htext]
    decide
  simp only [Layout.allSegments, Layout.segments, extInterruptSegments, List.cons_append,
    List.nil_append, List.forall_mem_cons]
  refine ⟨aligned_mk (by rw [htext]; decide) L.rodata_aligned (by omega) hrodata (by omega),
    aligned_mk L.rodata_aligned L.data_aligned (by omega) hdata (by omega),
    aligned_mk L.data_aligned L.bss_aligned (by omega) hbss (by omega),
    aligned_mk L.bss_aligned L.end_aligned (by omega) hend hlt,
    aligned_mk L.end_aligned haligned (by omega) hroom.le hlt', ?_, ?_, ?_, ?_, by simp⟩ <;>
  exact aligned_mk (by decide) (by decide) (by decide) (by decide) (by decide)

lemma allSegments_disjoint (L : Layout) : L.allSegments.Pairwise fun a b =>
    a.endVaddr ≤ b.startVaddr ∨ b.endVaddr ≤ a.startVaddr := by
  obtain ⟨htext, hrodata, hdata, hbss, hend, hlt⟩ := L.bounds
  have hroom := L.room
  simp only [Layout.allSegments, Layout.segments, extInterruptSegments, List.cons_append,
    List.nil_append, List.pairwise_cons, List.forall_mem_cons, memoryEndPaddr, kernelMapOffset,
    List.not_mem_nil, false_implies, implies_true, and_true, List.Pairwise.nil] at *
  and_intros <;> omega

lemma allSegments_kernelFlags (L : Layout) : ∀ seg ∈ L.allSegments, KernelFlags seg.flags := by
  intro seg hseg
  rcases List.mem_append.mp hseg with hseg | hseg
  · exact layout_kernelFlags L seg hseg
  · exact extInterrupt_kernelFlags seg hseg

/-- An address with permissions lies in a segment with these. -/
lemma exists_segment_of_perm (h : L.perm va = some f) : (f = 10 ∨ f = 2 ∨ f = 6) ∧
    ∃ seg ∈ L.allSegments, seg.Contains va ∧ seg.flags = 1 ||| f := by
  simp only [Layout.allSegments, Layout.segments, extInterruptSegments, List.cons_append,
    List.nil_append, List.exists_mem_cons_iff, Segment.Contains]
  rw [Layout.perm] at h
  split_ifs at h with htext hrodata hdata hdevice
  · obtain rfl := Option.some.inj h
    exact ⟨.inl rfl, .inl ⟨htext, rfl⟩⟩
  · obtain rfl := Option.some.inj h
    exact ⟨.inr (.inl rfl), .inr (.inl ⟨hrodata, rfl⟩)⟩
  · obtain rfl := Option.some.inj h
    refine ⟨.inr (.inr rfl), .inr (.inr ?_)⟩
    by_cases h1 : va < L.bssStart
    · exact .inl ⟨⟨hdata.1, h1⟩, rfl⟩
    by_cases h2 : va < L.kernelEnd
    · exact .inr (.inl ⟨⟨not_lt.mp h1, h2⟩, rfl⟩)
    · exact .inr (.inr (.inl ⟨⟨not_lt.mp h2, hdata.2⟩, rfl⟩))
  · obtain rfl := Option.some.inj h
    refine ⟨.inr (.inr rfl), .inr (.inr (.inr (.inr (.inr ?_))))⟩
    obtain ⟨d, hd, hva⟩ := hdevice
    simp only [deviceStarts, List.mem_cons, List.not_mem_nil, or_false] at hd
    rcases hd with rfl | rfl | rfl | rfl
    · exact .inl ⟨hva, rfl⟩
    · exact .inr (.inl ⟨hva, rfl⟩)
    · exact .inr (.inr (.inl ⟨hva, rfl⟩))
    · exact .inr (.inr (.inr (.inl ⟨hva, rfl⟩)))

/-- An address without permissions lies in no segment. -/
lemma not_contains_of_perm (h : L.perm va = none) : ∀ seg ∈ L.allSegments, ¬ seg.Contains va := by
  obtain ⟨htext, hrodata, hdata, hbss, hend, hlt⟩ := L.bounds
  have hroom := L.room
  rw [Layout.perm] at h
  split_ifs at h with h1 h2 h3 h4
  simp only [IsDevice, deviceStarts, List.exists_mem_cons_iff] at h4
  simp only [Layout.allSegments, Layout.segments, extInterruptSegments, List.cons_append,
    List.nil_append, List.forall_mem_cons, Segment.Contains]
  simp only [pageSize] at h4
  refine ⟨?_, ?_, ?_, ?_, ?_, ?_, ?_, ?_, ?_, by simp⟩ <;> omega

/-! ### The map -/

/-- What the tables hold for the page of an address. -/
lemma leafAt_of_segments {mem : Bytes.Memory} {root : ℕ}
    (hpages : ∀ seg ∈ L.allSegments, ∀ k < seg.pages,
      leafAt mem root (seg.startVpn + k) = linearPte (seg.startVpn + k) seg.flags)
    (hother : ∀ v, (∀ seg ∈ L.allSegments, seg.Misses v) → leafAt mem root v = 0)
    (hc : Canonical va) : leafAt mem root (va / pageSize) = ((L.perm va).map fun f =>
      (va / pageSize - kernelPageOffset) * 2 ^ 10 + (1 ||| f)).getD 0 := by
  cases hperm : L.perm va with
  | none =>
    exact hother _ fun seg hseg =>
      (allSegments_aligned L seg hseg).misses hc (not_contains_of_perm hperm seg hseg)
  | some f =>
    obtain ⟨hf, seg, hseg, hva, hflags⟩ := exists_segment_of_perm hperm
    obtain ⟨k, hk, hpage⟩ := (allSegments_aligned L seg hseg).exists_page hva
    have hhigh := (allSegments_aligned L seg hseg).high
    have hvalid : seg.flags ||| flagValid = 1 ||| f := by
      rw [hflags]
      rcases hf with rfl | rfl | rfl <;> rfl
    rw [hpage, hpages seg hseg k hk, linearPte_eq (allSegments_kernelFlags L seg hseg).1, hvalid,
      ← hpage, Option.map_some, Option.getD_some]
    have hlow := hva.1
    have hhigh' : va < 2 ^ 64 := lt_trans hva.2 (allSegments_aligned L seg hseg).lt
    simp only [kernelPageOffset, pageSize, kernelMapOffset] at hhigh ⊢
    omega

/-- The tables at a root hold the map of the kernel and nothing else. -/
def KernelSpace (L : Layout) (mem : Bytes.Memory) (root : ℕ) : Prop :=
  ∀ va, Canonical va → leafAt mem root (va / pageSize) =
    ((L.perm va).map fun f => (va / pageSize - kernelPageOffset) * 2 ^ 10 + (1 ||| f)).getD 0

lemma mapLinearSegments_append (m : Machine) (r : ℕ) (segs segs' : List Segment) :
    mapLinearSegments m r (segs ++ segs') =
      mapLinearSegments m r segs >>= fun m => mapLinearSegments m r segs' :=
  List.foldlM_append

/-- Behind a new root, the kernel and the devices are mapped in one go. -/
lemma mapKernel_of_newMapping {m m₁ : Machine} {root : ℕ} (hnew : newMapping m = .ok (root, m₁)) :
    mapKernel L m = (mapLinearSegments m₁ root L.allSegments).map fun m => (root, m) := by
  rw [mapKernel, newKernelMapping, bind_ok hnew, Layout.allSegments, mapLinearSegments_append]
  simp only [mapExtInterruptArea]
  cases mapLinearSegments m₁ root L.segments with
  | error e => rfl
  | ok m₂ =>
    rw [bind_ok rfl, bind_ok rfl, bind_ok rfl]
    cases mapLinearSegments m₂ root extInterruptSegments <;> rfl

lemma exists_of_mapKernel {m m' : Machine} {root : ℕ} (hok : mapKernel L m = .ok (root, m')) :
    ∃ m₁, newMapping m = .ok (root, m₁) ∧ mapLinearSegments m₁ root L.allSegments = .ok m' := by
  obtain ⟨m₂, hkernel, hext⟩ := mapKernel_cases hok
  obtain ⟨m₁, hnew, hmap⟩ := newKernelMapping_cases hkernel
  refine ⟨m₁, hnew, ?_⟩
  rw [Layout.allSegments, mapLinearSegments_append, bind_ok hmap]
  exact hext

lemma allSegments_misses (L : Layout) :
    L.allSegments.Pairwise fun a b => ∀ k < b.pages, a.Misses (b.startVpn + k) := by
  refine (allSegments_disjoint L).imp_of_mem ?_
  intro a b ha hb hdis
  exact (allSegments_aligned L a ha).misses_of_disjoint (allSegments_aligned L b hb) hdis

section
variable {s : ℕ} {m m' : Machine} {owner : ℕ → Option Role} {root : ℕ}

/-- The address space of the kernel takes at most 145 frames. -/
lemma Owned.mapKernel_ok (L : Layout) (h : Owned UserEntry s m owner) (hroom : 145 ≤ room m) :
    ∃ root m', Jokerix.mapKernel L m = .ok (root, m') ∧ room m ≤ room m' + 145 := by
  obtain ⟨root, m₁, hnew, hroom₁⟩ := h.newMapping_ok (by omega)
  have hleaf₁ := (h.newMapping_leaves hnew).1
  obtain ⟨_, owner₁, h₁, _, hr₁⟩ := h.newMapping hnew
  have hsum : (L.allSegments.map (Segment.frames · 0)).sum ≤ 144 := by
    have hext : (extInterruptSegments.map (Segment.frames · 0)).sum = 8 := by decide
    have hkernel := (kernel_segments L).2.2.2
    rw [Layout.allSegments, List.map_append, List.sum_append]
    omega
  obtain ⟨m', hok, hroom', _⟩ := h₁.mapLinearSegments_ok hr₁ (allSegments_kernelFlags L)
    (fun seg hseg => ⟨(allSegments_aligned L seg hseg).pages_le, fun k _ => hleaf₁ _⟩)
    (allSegments_misses L) (by omega)
  exact ⟨root, m', by rw [mapKernel_of_newMapping hnew, hok, Except.map], by omega⟩

/-- It is never found to be mapped already. -/
lemma Owned.mapKernel_error (h : Owned UserEntry s m owner) {e : Halt}
    (herr : Jokerix.mapKernel L m = .error e) : e = depleted := by
  cases hnew : Jokerix.newMapping m with
  | error e' =>
    rw [Jokerix.mapKernel, Jokerix.newKernelMapping, hnew] at herr
    cases herr
    rw [Jokerix.newMapping] at hnew
    split at hnew
    · rename_i halloc
      cases hnew
      exact allocFrame_error halloc
    · cases hnew
  | ok x =>
    obtain ⟨root, m₁⟩ := x
    have hleaf₁ := (h.newMapping_leaves hnew).1
    obtain ⟨_, owner₁, h₁, _, hr₁⟩ := h.newMapping hnew
    rw [mapKernel_of_newMapping hnew] at herr
    cases hok : Jokerix.mapLinearSegments m₁ root L.allSegments with
    | ok m' =>
      rw [hok] at herr
      cases herr
    | error e' =>
      rw [hok] at herr
      cases herr
      exact mapLinearSegments_error h₁.weaken hr₁
        (fun seg hseg => lt_trans (allSegments_kernelFlags L seg hseg).1 (by norm_num))
        (fun seg hseg => ⟨(allSegments_aligned L seg hseg).pages_le, fun k _ => hleaf₁ _⟩)
        (allSegments_misses L) hok

/-- The map of the kernel, entry by entry. -/
lemma Owned.mapKernel_leaf (h : Owned UserEntry s m owner)
    (hok : Jokerix.mapKernel L m = .ok (root, m')) :
    (∃ owner', Owned UserEntry s m' owner' ∧ owner' root = some (.table root [])) ∧
    ∀ va, Canonical va → leafAt m'.mem root (va / pageSize) = ((L.perm va).map fun f =>
      (va / pageSize - kernelPageOffset) * 2 ^ 10 + (1 ||| f)).getD 0 := by
  obtain ⟨m₁, hnew, hmap⟩ := exists_of_mapKernel hok
  have hleaf₁ := (h.newMapping_leaves hnew).1
  obtain ⟨_, owner₁, h₁, _, hr₁⟩ := h.newMapping hnew
  obtain ⟨owner₂, h₂, hext₂, hpages⟩ :=
    h₁.mapLinearSegments hr₁ (allSegments_kernelFlags L) hmap
  refine ⟨⟨owner₂, h₂, hext₂.grows _ _ hr₁⟩, fun va hc => leafAt_of_segments hpages ?_ hc⟩
  intro v hv
  rw [mapLinearSegments_other h₁.weaken hr₁ (fun seg hseg =>
    lt_trans (allSegments_kernelFlags L seg hseg).1 (by norm_num)) hmap v hv, hleaf₁]

/-- What the hardware makes of a page at the fixed offset. -/
lemma Owned.sv39Address_linear (h : Owned UserEntry s m owner)
    (hroot : owner root = some (.table root [])) {va f : ℕ} (hc : Canonical va)
    (hhigh : kernelMapOffset ≤ va) (hf : f = 10 ∨ f = 2 ∨ f = 6)
    (hva : leafAt m.mem root (va / pageSize) =
      (va / pageSize - kernelPageOffset) * 2 ^ 10 + (1 ||| f)) :
    sv39Address m.mem root va = some (va - kernelMapOffset, 1 ||| f) := by
  have hlt : va < 2 ^ 64 := by
    simp only [Canonical] at hc
    omega
  have hflags : 1 ||| f < 2 ^ 10 ∧ (1 ||| f) % 2 = 1 ∧ (1 ||| f) / flagReadable % 2 = 1 := by
    rcases hf with rfl | rfl | rfl <;> decide
  obtain ⟨hsmall, hodd, hread⟩ := hflags
  set e := (va / pageSize - kernelPageOffset) * 2 ^ 10 + (1 ||| f) with he
  have hpage := sub_kernelMapOffset hhigh
  have hppn : e / 2 ^ 10 % 2 ^ 44 = va / pageSize - kernelPageOffset := by
    have hoffset : kernelMapOffset = 0xffffffff00000000 := rfl
    simp only [pageSize] at he hpage ⊢
    omega
  have hmod : e % 2 ^ 10 = 1 ||| f := by omega
  have hIsLeaf : IsLeaf e := by
    refine ⟨by omega, .inl ?_⟩
    simp only [flagReadable] at hread ⊢
    omega
  rw [sv39Address, if_pos hc, h.sv39_leaf hroot, hva, if_pos hIsLeaf, Option.bind_some]
  simp only [hppn, hmod, pow_zero, Nat.mod_one, if_true, Nat.one_mul, Option.some.injEq,
    Prod.mk.injEq, and_true]
  exact hpage

/-- An address with permissions is one of the hardware's, at or above the offset of the kernel. -/
lemma canonical_of_perm {va f : ℕ} (hperm : L.perm va = some f) :
    Canonical va ∧ kernelMapOffset ≤ va := by
  obtain ⟨_, seg, hseg, hcontains, _⟩ := exists_segment_of_perm hperm
  have hhigh := (allSegments_aligned L seg hseg).high
  have hlow := hcontains.1
  have hlt : va < 2 ^ 64 := lt_trans hcontains.2 (allSegments_aligned L seg hseg).lt
  refine ⟨.inr ⟨?_, hlt⟩, hhigh.trans hlow⟩
  simp only [kernelMapOffset] at hhigh
  omega

/-- What the hardware makes of the kernel's tables. -/
lemma KernelSpace.sv39Address (hk : KernelSpace L m.mem root) (h : Owned UserEntry s m owner)
    (hroot : owner root = some (.table root [])) (va : ℕ) :
    sv39Address m.mem root va = (L.perm va).map fun f => (va - kernelMapOffset, 1 ||| f) := by
  cases hperm : L.perm va with
  | none =>
    rw [Jokerix.sv39Address]
    split_ifs with hc
    · have hva := hk va hc
      rw [hperm, Option.map_none, Option.getD_none] at hva
      rw [h.sv39_eq hroot (.inl hva), if_pos hva]
      rfl
    · rfl
  | some f =>
    obtain ⟨hc, hhigh⟩ := canonical_of_perm hperm
    have hva := hk va hc
    rw [hperm, Option.map_some, Option.getD_some] at hva
    exact h.sv39Address_linear hroot hc hhigh (exists_segment_of_perm hperm).1 hva

lemma sv39Address_mapKernel (h : Owned UserEntry s m owner)
    (hok : Jokerix.mapKernel L m = .ok (root, m')) (va : ℕ) :
    sv39Address m'.mem root va = (L.perm va).map fun f => (va - kernelMapOffset, 1 ||| f) := by
  obtain ⟨⟨owner', h', hr'⟩, hleaf⟩ := h.mapKernel_leaf hok
  exact KernelSpace.sv39Address hleaf h' hr' va

end

end

/-- The address space that `newKernelMapping` and `mapExtInterruptArea` build, in every state that
the system reaches. Mapping completes when 145 frames are free, and no page is ever found to be
mapped already. The hardware then translates every address of a section, of the memory behind the
kernel and of a device to the address at the fixed offset, with the permissions of the section, and
no other address. No page is both writable and executable or open to users. -/
theorem kernel_mapped_linearly (L : Layout) (m : Machine) (roots : List ℕ) (h : Reach L m roots) :
    (145 ≤ room m → ∃ root m', mapKernel L m = .ok (root, m')) ∧
    mapKernel L m ≠ .error (.panic "Virtual address already mapped!\n") ∧
    ∀ root m', mapKernel L m = .ok (root, m') →
      (∀ va, sv39Address m'.mem root va =
        (L.perm va).map fun f => (va - kernelMapOffset, flagValid ||| f)) ∧
      ∀ va pa f, sv39Address m'.mem root va = some (pa, f) → f / flagUser % 2 = 0 ∧
        ¬ (f / flagWritable % 2 = 1 ∧ f / flagExecutable % 2 = 1) := by
  obtain ⟨owner, ho, _⟩ := h.inv
  refine ⟨fun hroom => ?_, ?_, ?_⟩
  · obtain ⟨root, m', hok, _⟩ := ho.mapKernel_ok L hroom
    exact ⟨root, m', hok⟩
  · intro herr
    have := ho.mapKernel_error herr
    simp [depleted] at this
  · intro root m' hok
    have hmap := sv39Address_mapKernel ho hok
    refine ⟨hmap, fun va pa f hva => ?_⟩
    rw [hmap] at hva
    cases hperm : L.perm va with
    | none =>
      rw [hperm] at hva
      cases hva
    | some f' =>
      simp only [hperm, Option.map_some, Option.some.injEq, Prod.mk.injEq] at hva
      obtain ⟨_, rfl⟩ := hva
      rcases (exists_segment_of_perm hperm).1 with rfl | rfl | rfl <;> decide

/-- At boot of a small image the first byte of the kernel is mapped for reading and executing. -/
theorem kernel_mapped_linearly_boot : ∃ m root m', Reach sampleLayout m [] ∧
    mapKernel sampleLayout m = .ok (root, m') ∧
    sv39Address m'.mem root kernelBeginVaddr = some (0x80200000, 11) := by
  obtain ⟨sta, hnew, ho, hroom⟩ := sample_start
  have hreach : Reach sampleLayout ⟨sampleMemory, sta⟩ [] :=
    .init (m := ⟨sampleMemory, fun _ => 0, 0, 0, 0⟩) hnew
  obtain ⟨hok, _, hmap⟩ := kernel_mapped_linearly sampleLayout ⟨sampleMemory, sta⟩ [] hreach
  obtain ⟨root, m', hok⟩ := hok (le_trans (by norm_num) hroom)
  refine ⟨_, root, m', hreach, hok, ?_⟩
  rw [(hmap root m' hok).1]
  decide

end Jokerix
