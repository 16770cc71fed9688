import Jokerix.Vm.Installed
import Jokerix.Vm.Spaces
import Mathlib.Data.Set.Card
import Mathlib.Order.Interval.Finset.Nat

/-!
# When mapping completes

With enough free frames, and pages that are not mapped yet, the functions that map pages complete.
What they take from the free frames is one frame for each page that gets one, and at most two
tables for each run of 512 pages.
-/

namespace Jokerix

/-- The number of free frames. -/
noncomputable def room (m : Machine) : ℕ := (freeFrames m.sta).ncard

section
variable {own : ℕ → Prop} {s : ℕ} {m m' : Machine} {owner owner' : ℕ → Option Role}
  {p q r n v a e vpn c : ℕ} {path : Path} {i : Fin 512}

/-! ### Allocating a frame -/

lemma Owned.free_finite (h : Owned own s m owner) : (freeFrames m.sta).Finite :=
  (Set.finite_Ico s endPpn).subset fun p hp => ⟨(h.free p hp).1, (h.free p hp).2.1⟩

lemma Owned.allocFrame_ok (h : Owned own s m owner) (hroom : 1 ≤ room m) :
    ∃ a m', Jokerix.allocFrame m = .ok (a, m') ∧ room m = room m' + 1 := by
  obtain ⟨d, hd⟩ := h.inv
  obtain ⟨q, sta, halloc, hleast, _, _, hfree⟩ :=
    hd.alloc_ok ((Set.ncard_pos h.free_finite).mp hroom)
  rw [Jokerix.allocFrame, halloc]
  refine ⟨_, _, rfl, ?_⟩
  rw [room, room, hfree, Set.ncard_sdiff_singleton_add_one hleast.1 h.free_finite]

lemma room_newAllocator {sta : FrameTree} (hle : s ≤ memoryEndPaddr / pageSize)
    (hok : newAllocator m.sta s (memoryEndPaddr / pageSize) = .ok sta) :
    room { m with sta } = endPpn - s := by
  obtain ⟨_, _, hfree⟩ := newAllocator_spec hle (by decide) hok
  rw [room, hfree, ← Finset.coe_Ico, Set.ncard_coe_finset, Nat.card_Ico, endPpn]

lemma endPpn_eq : endPpn = 0x87fff := by
  simp only [endPpn, memoryEndPaddr, pageSize]

/-! ### Finding an entry -/

lemma Owned.createTable_ok (h : Owned own s m owner) (entry : ℕ) (hroom : 1 ≤ room m) :
    ∃ m', Jokerix.createTable m entry = .ok m' ∧ room m ≤ room m' + 1 := by
  rw [Jokerix.createTable]
  split_ifs
  · obtain ⟨a, m', halloc, hroom'⟩ := h.allocFrame_ok hroom
    rw [halloc]
    exact ⟨_, rfl, hroom'.le⟩
  · exact ⟨m, rfl, Nat.le_succ _⟩

lemma Owned.findLevels_ok (h : Owned own s m owner) {levels : Path}
    (hp : owner p = some (.table r path)) (hlen : path.length + levels.length ≤ 2)
    (hroom : levels.length ≤ room m) :
    ∃ a m', Jokerix.findLevels m (frameVa p + 8 * i) (levels.map Fin.val) = .ok (a, m') ∧
      room m ≤ room m' + levels.length := by
  induction levels generalizing m owner p path i with
  | nil => exact ⟨_, m, rfl, le_rfl⟩
  | cons l levels ih =>
    rw [List.length_cons] at hlen hroom
    obtain ⟨m₁, hcreate, hroom₁⟩ := h.createTable_ok (frameVa p + 8 * i) (by omega)
    obtain ⟨owner₁, q, h₁, hext₁, hq, he⟩ := h.createTable hp (by omega) hcreate
    have haddr : entryAddr ((Bytes.loadLE 8 m₁.mem (frameVa p + 8 * i) &&& pdeMask) * 4 % 2 ^ 64)
        l = frameVa q + 8 * l := by
      rw [show Bytes.loadLE 8 m₁.mem (frameVa p + 8 * i) = q * 2 ^ 10 + 1 from he]
      exact entryAddr_pointer (h₁.used _ _ hq).2 l
    obtain ⟨a, m', hfind, hroom'⟩ := ih (i := l) h₁ hq
      (by rw [List.length_append, List.length_singleton]; omega) (by omega)
    rw [List.map_cons, Jokerix.findLevels, hcreate]
    simp only [haddr]
    refine ⟨a, m', hfind, ?_⟩
    rw [List.length_cons]
    omega

lemma Owned.findEntry_ok (h : Owned own s m owner) (hr : owner r = some (.table r []))
    (hroom : 2 ≤ room m) :
    ∃ a m', Jokerix.findEntry m r v = .ok (a, m') ∧ room m ≤ room m' + 2 := by
  rw [findEntry_eq_findLevels (h.used _ _ hr).2]
  exact h.findLevels_ok hr (by simp) (by simpa using hroom)

/-! ### The loop -/

/-- For one page `install` completes with `c` free frames. -/
def Proceeds {σ : Type*} (s c : ℕ) (install : σ → Machine → ℕ → ℕ → Except Halt (σ × Machine)) :
    Prop :=
  ∀ st m owner entry vpn, Owned (fun _ => False) s m owner → c ≤ room m →
    ∃ st' m', install st m entry vpn = .ok (st', m') ∧ room m ≤ room m' + c

lemma proceeds_linear (f : ℕ) : Proceeds s 0 (installLinear f) :=
  fun _ _ _ _ _ _ _ => ⟨_, _, rfl, le_rfl⟩

lemma proceeds_framed (f : ℕ) : Proceeds s 1 (installFramed f) := by
  intro st m owner entry vpn h hroom
  obtain ⟨a, m₁, halloc, hroom₁⟩ := h.allocFrame_ok hroom
  rw [installFramed, halloc]
  exact ⟨_, _, rfl, hroom₁.le⟩

lemma proceeds_copy (f : ℕ) : Proceeds s 1 (installCopy f) := by
  intro st m owner entry vpn h hroom
  obtain ⟨a, m₁, halloc, hroom₁⟩ := h.allocFrame_ok hroom
  obtain ⟨src, l⟩ := st
  rw [installCopy, halloc]
  exact ⟨_, _, rfl, hroom₁.le⟩

/-- The frames that suffice for `count` pages from `vpn` on, when the table of the first is
there. -/
def framesNeeded (c vpn count : ℕ) : ℕ := c * count + 2 * ((vpn + count) / 512 - vpn / 512)

lemma framesNeeded_succ (c vpn count : ℕ) :
    framesNeeded c vpn (count + 1) =
      c + (if (vpn + 1) % 512 = 0 then 2 else 0) + framesNeeded c (vpn + 1) count := by
  simp only [framesNeeded, Nat.mul_add, Nat.mul_one]
  split_ifs <;> omega

/-- The loop goes on from what `findEntry` leaves. -/
lemma mapPages_findEntry {σ : Type*} {install : σ → Machine → ℕ → ℕ → Except Halt (σ × Machine)}
    {st : σ} {count : ℕ} (hfind : findEntry m r vpn = .ok (a, m'))
    (hagain : findEntry m' r vpn = .ok (a, m')) :
    mapPages install r st m vpn (count + 1) = mapPages install r st m' vpn (count + 1) := by
  rw [mapPages, mapPages, hfind, hagain]

variable {σ : Type*} {install : σ → Machine → ℕ → ℕ → Except Halt (σ × Machine)} {count : ℕ}

lemma mapPages_ok_of_table (st : σ) (hfills : FillsOne s r install)
    (hproceeds : Proceeds s c install)
    (h : Owned (fun _ => False) s m owner) (hr : owner r = some (.table r []))
    (hcount : count ≤ 2 ^ 27) (hvacant : ∀ k < count, leafAt m.mem r (vpn + k) = 0)
    (hroom : framesNeeded c vpn count ≤ room m)
    (ht : ∃ n, tableAt m.mem r (vpnPath vpn) = some n) :
    ∃ m', mapPages install r st m vpn count = .ok m' ∧
      room m ≤ room m' + framesNeeded c vpn count := by
  induction count generalizing st m owner vpn with
  | zero => exact ⟨m, rfl, Nat.le_add_right _ _⟩
  | succ count ih =>
    rw [framesNeeded_succ] at hroom
    obtain ⟨n, ht⟩ := ht
    have hn : owner n = some (.table r (vpnPath vpn)) := h.tableAt_owner hr (by simp) ht
    have hzero : pte m.mem n (vpnIndex vpn) = 0 := (leafAt_eq ht).symm.trans (hvacant 0 (by omega))
    obtain ⟨st₁, m₁, hinst, hroom₁⟩ :=
      hproceeds st m owner (frameVa n + 8 * vpnIndex vpn) vpn h (by omega)
    obtain ⟨h₁, _, hother₁⟩ := hfills _ _ _ _ _ _ _ h hr ht hinst
    have hvacant₁ : ∀ k < count, leafAt m₁.mem r (vpn + 1 + k) = 0 := by
      intro k hk
      rw [hother₁ _ (by omega), Nat.add_assoc]
      exact hvacant (1 + k) (by omega)
    have hstep : mapPages install r st m vpn (count + 1) =
        mapPages install r st₁ m₁ (vpn + 1) count := by
      rw [mapPages, h.findEntry_of_table hr ht]
      simp only
      rw [if_neg (not_not.mpr (by exact hzero)), hinst]
    rw [hstep]
    cases count with
    | zero =>
      refine ⟨m₁, rfl, ?_⟩
      rw [framesNeeded_succ]
      omega
    | succ count =>
      -- The table of the next page is the same one, or a new run of pages starts.
      obtain ⟨m₂, owner₂, h₂, hr₂, hsame, hroom₂, hleaf₂, ht₂⟩ : ∃ m₂ owner₂,
          Owned (fun _ => False) s m₂ owner₂ ∧ owner₂ r = some (.table r []) ∧
          mapPages install r st₁ m₁ (vpn + 1) (count + 1) =
            mapPages install r st₁ m₂ (vpn + 1) (count + 1) ∧
          room m₁ ≤ room m₂ + (if (vpn + 1) % 512 = 0 then 2 else 0) ∧
          (∀ v, leafAt m₂.mem r v = leafAt m₁.mem r v) ∧
          ∃ n, tableAt m₂.mem r (vpnPath (vpn + 1)) = some n := by
        by_cases hfirst : (vpn + 1) % 512 = 0
        · simp only [if_pos hfirst] at hroom ⊢
          obtain ⟨a, m₂, hfind, hroom₂⟩ := h₁.findEntry_ok (v := vpn + 1) hr (by omega)
          obtain ⟨owner₂, n₂, h₂, hext₂, _, ht₂, rfl⟩ := h₁.findEntry hr hfind
          have hr₂ := hext₂.grows _ _ hr
          exact ⟨m₂, owner₂, h₂, hr₂,
            mapPages_findEntry hfind (h₂.findEntry_of_table hr₂ ht₂), hroom₂,
            fun v => h₁.findEntry_keeps hr hfind r v hr, n₂, ht₂⟩
        · obtain ⟨n₁, ht₁⟩ := hfills.table h hr ht hinst
          have hpath : vpnPath (vpn + 1) = vpnPath vpn := by
            simp only [vpnPath, List.cons.injEq, Fin.mk.injEq, and_true]
            omega
          exact ⟨m₁, owner, h₁, hr, rfl, Nat.le_add_right _ _, fun _ => rfl, n₁, hpath ▸ ht₁⟩
      obtain ⟨m', hok, hroom'⟩ := ih st₁ h₂ hr₂ (by omega)
        (fun k hk => (hleaf₂ _).trans (hvacant₁ k hk)) (by omega) ht₂
      refine ⟨m', hsame.trans hok, ?_⟩
      rw [framesNeeded_succ c vpn (count + 1)]
      omega

/-- The rule for completion: the pages are not mapped, and there are enough frames. -/
theorem mapPages_ok (st : σ) (hfills : FillsOne s r install) (hproceeds : Proceeds s c install)
    (h : Owned (fun _ => False) s m owner) (hr : owner r = some (.table r []))
    (hcount : count ≤ 2 ^ 27) (hvacant : ∀ k < count, leafAt m.mem r (vpn + k) = 0)
    (hroom : 2 + framesNeeded c vpn count ≤ room m) :
    ∃ m', mapPages install r st m vpn count = .ok m' ∧
      room m ≤ room m' + (2 + framesNeeded c vpn count) ∧
      ∀ v, (∀ k < count, v % 2 ^ 27 ≠ (vpn + k) % 2 ^ 27) →
        leafAt m'.mem r v = leafAt m.mem r v := by
  obtain ⟨m', hok, hroom'⟩ : ∃ m', mapPages install r st m vpn count = .ok m' ∧
      room m ≤ room m' + (2 + framesNeeded c vpn count) := by
    cases count with
    | zero => exact ⟨m, rfl, Nat.le_add_right _ _⟩
    | succ count =>
      obtain ⟨a, m₁, hfind, hroom₁⟩ := h.findEntry_ok (v := vpn) hr (by omega)
      obtain ⟨owner₁, n, h₁, hext₁, _, ht₁, rfl⟩ := h.findEntry hr hfind
      have hr₁ := hext₁.grows _ _ hr
      have hleaf₁ := fun v => h.findEntry_keeps hr hfind r v hr
      obtain ⟨m', hok, hroom'⟩ := mapPages_ok_of_table st hfills hproceeds h₁ hr₁ hcount
        (fun k hk => (hleaf₁ _).trans (hvacant k hk)) (by omega) ⟨n, ht₁⟩
      exact ⟨m', (mapPages_findEntry hfind (h₁.findEntry_of_table hr₁ ht₁)).trans hok, by omega⟩
  exact ⟨m', hok, hroom', (mapPages_filled hfills h hr hok).1.other⟩

/-! ### Segments -/

/-- No page of the segment is mapped. -/
def Unmapped (mem : Bytes.Memory) (r : ℕ) (seg : Segment) : Prop :=
  seg.pages ≤ 2 ^ 27 ∧ ∀ k < seg.pages, leafAt mem r (seg.startVpn + k) = 0

/-- The page is not one of the segment's. -/
def Segment.Misses (seg : Segment) (v : ℕ) : Prop :=
  ∀ k < seg.pages, v % 2 ^ 27 ≠ (seg.startVpn + k) % 2 ^ 27

/-- The frames that suffice to map a segment. -/
def Segment.frames (seg : Segment) (c : ℕ) : ℕ := 2 + framesNeeded c seg.startVpn seg.pages

theorem Owned.mapLinearSegment_ok {seg : Segment} (h : Owned UserEntry s m owner)
    (hr : owner r = some (.table r [])) (hf : KernelFlags seg.flags) (hu : Unmapped m.mem r seg)
    (hroom : seg.frames 0 ≤ room m) :
    ∃ m', Jokerix.mapLinearSegment m r seg = .ok m' ∧ room m ≤ room m' + seg.frames 0 ∧
      ∀ v, seg.Misses v → leafAt m'.mem r v = leafAt m.mem r v :=
  mapPages_ok _ (fillsOne_linear (lt_trans hf.1 (by norm_num))) (proceeds_linear _) h.weaken hr hu.1
    hu.2 hroom

theorem Owned.mapFramedSegment_ok {seg : Segment} (h : Owned UserEntry s m owner)
    (hr : owner r = some (.table r [])) (hf : seg.flags < 2 ^ 10) (hu : Unmapped m.mem r seg)
    (hroom : seg.frames 1 ≤ room m) :
    ∃ m', Jokerix.mapFramedSegment m r seg = .ok m' ∧ room m ≤ room m' + seg.frames 1 ∧
      ∀ v, seg.Misses v → leafAt m'.mem r v = leafAt m.mem r v :=
  mapPages_ok _ (fillsOne_framed (lt_trans hf (by norm_num))) (proceeds_framed _) h.weaken hr hu.1
    hu.2 hroom

theorem Owned.mapFramedAndCopy_ok (h : Owned UserEntry s m owner) {seg : Segment} (data length : ℕ)
    (hr : owner r = some (.table r [])) (hf : seg.flags < 2 ^ 10) (hu : Unmapped m.mem r seg)
    (hroom : seg.frames 1 ≤ room m) :
    ∃ m', Jokerix.mapFramedAndCopy m r seg data length = .ok m' ∧
      room m ≤ room m' + seg.frames 1 ∧
      ∀ v, seg.Misses v → leafAt m'.mem r v = leafAt m.mem r v :=
  mapPages_ok _ (fillsOne_copy (lt_trans hf (by norm_num))) (proceeds_copy _) h.weaken hr hu.1 hu.2
    hroom

/-- Segments that do not meet are mapped one after the other. -/
theorem Owned.mapLinearSegments_ok {segs : List Segment} (h : Owned UserEntry s m owner)
    (hr : owner r = some (.table r [])) (hf : ∀ seg ∈ segs, KernelFlags seg.flags)
    (hu : ∀ seg ∈ segs, Unmapped m.mem r seg)
    (hmiss : segs.Pairwise fun a b => ∀ k < b.pages, a.Misses (b.startVpn + k))
    (hroom : (segs.map (Segment.frames · 0)).sum ≤ room m) :
    ∃ m', Jokerix.mapLinearSegments m r segs = .ok m' ∧
      room m ≤ room m' + (segs.map (Segment.frames · 0)).sum ∧
      ∀ v, (∀ seg ∈ segs, seg.Misses v) → leafAt m'.mem r v = leafAt m.mem r v := by
  induction segs generalizing m owner with
  | nil => exact ⟨m, rfl, Nat.le_add_right _ _, fun _ _ => rfl⟩
  | cons seg segs ih =>
    rw [List.map_cons, List.sum_cons] at hroom ⊢
    rw [List.pairwise_cons] at hmiss
    have hflags := hf seg List.mem_cons_self
    obtain ⟨m₁, hok₁, hroom₁, hleaf₁⟩ :=
      h.mapLinearSegment_ok hr hflags (hu seg List.mem_cons_self) (by omega)
    obtain ⟨owner₁, h₁, hext₁, _⟩ := h.mapLinearSegment hr hflags.1 hflags.2 hok₁
    obtain ⟨m', hok, hroom', hleaf⟩ := ih h₁ (hext₁.grows _ _ hr)
      (fun seg' hseg' => hf seg' (List.mem_cons_of_mem _ hseg'))
      (fun seg' hseg' => ⟨(hu seg' (List.mem_cons_of_mem _ hseg')).1, fun k hk => by
        rw [hleaf₁ _ (hmiss.1 seg' hseg' k hk)]
        exact (hu seg' (List.mem_cons_of_mem _ hseg')).2 k hk⟩) hmiss.2 (by omega)
    refine ⟨m', ?_, by omega, ?_⟩
    · rw [Jokerix.mapLinearSegments, List.foldlM_cons, hok₁]
      exact hok
    · intro v hv
      rw [hleaf v fun seg' hseg' => hv seg' (List.mem_cons_of_mem _ hseg'),
        hleaf₁ v (hv seg List.mem_cons_self)]

/-- A new root table is empty, and the other address spaces stay. -/
lemma Owned.newMapping_leaves (h : Owned own s m owner)
    (hok : Jokerix.newMapping m = .ok (r, m')) :
    (∀ v, leafAt m'.mem r v = 0) ∧ KeepsLeaves m owner m' := by
  obtain ⟨a, halloc, rfl⟩ := newMapping_cases hok
  obtain ⟨q, rfl, hq, _, _, hout, hin, _⟩ := h.allocFrame halloc
  rw [Nat.mul_div_cancel q (by decide)]
  refine ⟨?_, fun r v hr => h.leafAt_same hr (.of_fresh hq hout) v⟩
  intro v
  rw [leafAt, tableAt, vpnPath, Radix.walk_cons, pte_zero hin]
  rfl

lemma Owned.newMapping_ok (h : Owned own s m owner) (hroom : 1 ≤ room m) :
    ∃ root m', Jokerix.newMapping m = .ok (root, m') ∧ room m = room m' + 1 := by
  obtain ⟨a, m', halloc, hroom'⟩ := h.allocFrame_ok hroom
  rw [Jokerix.newMapping, halloc]
  exact ⟨_, _, rfl, hroom'⟩

/-! ### The kernel -/

/-- Where the kernel's segments begin and end, in pages. -/
lemma kernel_pages (L : Layout) : ∃ p₁ p₂ p₃ p₄, 0xffffffff80200 ≤ p₁ ∧ p₁ ≤ p₂ ∧
    p₂ ≤ p₃ ∧ p₃ ≤ p₄ ∧ p₄ ≤ 0xffffffff88000 ∧
    L.segments.map (fun seg => (seg.startVpn, seg.pages)) =
      [(0xffffffff80200, p₁ - 0xffffffff80200), (p₁, p₂ - p₁), (p₂, p₃ - p₂), (p₃, p₄ - p₃),
        (p₄, 0xffffffff88000 - p₄)] := by
  obtain ⟨htext, hrodata, hdata, hbss, hend, hlt⟩ := L.bounds
  obtain ⟨haligned, hpos, hlt'⟩ := memoryEnd_aligned
  have hroom := L.room
  have hlast : (memoryEndPaddr + kernelMapOffset) / pageSize = 0xffffffff88000 := by
    simp only [memoryEndPaddr, kernelMapOffset, pageSize]
  refine ⟨L.rodataStart / pageSize, L.dataStart / pageSize, L.bssStart / pageSize,
    L.kernelEnd / pageSize, ?_, ?_, ?_, ?_, ?_, ?_⟩
  · simp only [pageSize]
    omega
  · exact Nat.div_le_div_right hdata
  · exact Nat.div_le_div_right hbss
  · exact Nat.div_le_div_right hend
  · rw [← hlast]
    exact Nat.div_le_div_right (by omega)
  · have hfirst : L.textStart / pageSize = 0xffffffff80200 := by
      simp only [pageSize]
      omega
    simp only [Layout.segments, List.map_cons, List.map_nil]
    rw [aligned_pages _ L.rodata_aligned (by omega) (by omega),
      aligned_pages _ L.data_aligned (by omega) (by omega),
      aligned_pages _ L.bss_aligned (by omega) (by omega),
      aligned_pages _ L.end_aligned (by omega) (by omega),
      aligned_pages _ haligned hpos hlt']
    simp only [Segment.startVpn, hlast, hfirst]

/-- The page is none of the kernel's. -/
def MissesKernel (v : ℕ) : Prop := ∀ vpn, 0xffffffff80200 ≤ vpn → vpn < 0xffffffff88000 →
  v % 2 ^ 27 ≠ vpn % 2 ^ 27

/-- The kernel's segments do not meet, and 136 frames suffice for their tables. -/
lemma kernel_segments (L : Layout) : (∀ seg ∈ L.segments, seg.pages ≤ 2 ^ 27) ∧
    (∀ seg ∈ L.segments, ∀ v, MissesKernel v → seg.Misses v) ∧
    (L.segments.Pairwise fun a b => ∀ k < b.pages, a.Misses (b.startVpn + k)) ∧
    (L.segments.map (Segment.frames · 0)).sum ≤ 136 := by
  obtain ⟨p₁, p₂, p₃, p₄, h₁, h₂, h₃, h₄, h₅, hpages⟩ := kernel_pages L
  have hsplit : ∃ a b c d e, L.segments = [a, b, c, d, e] := ⟨_, _, _, _, _, rfl⟩
  obtain ⟨a, b, c, d, e, hsegs⟩ := hsplit
  rw [hsegs] at hpages ⊢
  simp only [List.map_cons, List.map_nil, List.cons.injEq, Prod.mk.injEq, and_true] at hpages
  obtain ⟨⟨ha, ha'⟩, ⟨hb, hb'⟩, ⟨hc, hc'⟩, ⟨hd, hd'⟩, he, he'⟩ := hpages
  simp only [List.forall_mem_cons, List.pairwise_cons, List.map_cons, List.sum_cons, Segment.Misses,
    Segment.frames, framesNeeded, ha, ha', hb, hb', hc, hc', hd, hd', he, he']
  refine ⟨?_, ?_, ?_, ?_⟩
  · refine ⟨?_, ?_, ?_, ?_, ?_, by simp⟩ <;> omega
  · refine ⟨?_, ?_, ?_, ?_, ?_, by simp⟩ <;> exact fun v hv k hk => hv _ (by omega) (by omega)
  · refine ⟨⟨?_, ?_, ?_, ?_, by simp⟩, ⟨?_, ?_, ?_, by simp⟩, ⟨?_, ?_, by simp⟩, ⟨?_, by simp⟩,
      by simp⟩ <;> exact fun k hk k' hk' => by omega
  · simp only [List.map_nil, List.sum_nil]
    omega

/-- An address space with the kernel in it takes at most 137 frames. -/
theorem Owned.newKernelMapping_ok (L : Layout) (h : Owned UserEntry s m owner)
    (hroom : 137 ≤ room m) :
    ∃ root m', Jokerix.newKernelMapping L m = .ok (root, m') ∧ room m ≤ room m' + 137 ∧
      ∀ v, MissesKernel v → leafAt m'.mem root v = 0 := by
  obtain ⟨hpages, hmiss, hpairs, hsum⟩ := kernel_segments L
  obtain ⟨root, m₁, hnew, hroom₁⟩ := h.newMapping_ok (by omega)
  have hleaf₁ := (h.newMapping_leaves hnew).1
  obtain ⟨_, owner₁, h₁, _, hr₁⟩ := h.newMapping hnew
  obtain ⟨m', hok, hroom', hleaf⟩ := h₁.mapLinearSegments_ok hr₁ (layout_kernelFlags L)
    (fun seg hseg => ⟨hpages seg hseg, fun k _ => hleaf₁ _⟩) hpairs (by omega)
  refine ⟨root, m', ?_, by omega, ?_⟩
  · rw [Jokerix.newKernelMapping, bind_ok hnew]
    exact bind_ok hok
  · intro v hv
    rw [hleaf v fun seg hseg => hmiss seg hseg v hv, hleaf₁]

end

end Jokerix
