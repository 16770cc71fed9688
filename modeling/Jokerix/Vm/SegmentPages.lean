import Jokerix.Vm.Isolation

/-!
# The pages that a segment takes

`mapLinearSegment`, `mapFramedSegment` and `mapFramedAndCopy` share the bounds of their loop. They
are the pages that the segment touches, except for an empty segment that begins inside a page.
-/

namespace Jokerix

/-- The virtual pages that contain an address of the segment. -/
def Segment.touched (seg : Segment) : Set ℕ :=
  {vpn | ∃ va, seg.startVaddr ≤ va ∧ va < seg.endVaddr ∧ va / pageSize = vpn}

/-- What mapping a segment is to do: exactly the pages that it touches get an entry, and the loop
runs once for each. A page is known by the 27 bits of its number that the tables use. -/
structure Covers (seg : Segment) (r : ℕ) (mem mem' : Bytes.Memory) : Prop where
  installed : ∀ vpn ∈ seg.touched, leafAt mem r vpn = 0 ∧ leafAt mem' r vpn % 2 = 1
  other : ∀ v, (∀ vpn ∈ seg.touched, v % 2 ^ 27 ≠ vpn % 2 ^ 27) → leafAt mem' r v = leafAt mem r v
  loop : {vpn | seg.startVpn ≤ vpn ∧ vpn < seg.endVpn} = seg.touched

/-- The functions that map a segment, with their other arguments. -/
inductive MapCall where
  | linear
  | framed
  | copy (data length : ℕ)

def mapSegment (m : Machine) (self : ℕ) (segment : Segment) : MapCall → Except Halt Machine
  | .linear => mapLinearSegment m self segment
  | .framed => mapFramedSegment m self segment
  | .copy data length => mapFramedAndCopy m self segment data length

/-- The states with the roots of their address spaces: a new allocator, new roots, segments mapped
with any flags, and any other change of the memory outside the tables. -/
inductive TableReach (s : ℕ) : Machine → List ℕ → Prop
  | init {m : Machine} {sta : FrameTree} (hle : s ≤ memoryEndPaddr / pageSize)
      (h : newAllocator m.sta s (memoryEndPaddr / pageSize) = .ok sta) :
      TableReach s { m with sta } []
  | root {m m' : Machine} {roots : List ℕ} {root : ℕ} (h : TableReach s m roots)
      (hok : newMapping m = .ok (root, m')) : TableReach s m' (root :: roots)
  | segment {m m' : Machine} {roots : List ℕ} {r : ℕ} {seg : Segment} {c : MapCall}
      (h : TableReach s m roots) (hr : r ∈ roots) (hf : seg.flags < 2 ^ 64)
      (hok : mapSegment m r seg c = .ok m') : TableReach s m' roots
  | change {m m' : Machine} {roots : List ℕ} (h : TableReach s m roots) (hsta : m'.sta = m.sta)
      (hmem : ∀ r ∈ roots, ∀ path p, path.length ≤ 2 → tableAt m.mem r path = some p →
        ∀ x, InFrame p x → m'.mem x = m.mem x) : TableReach s m' roots

section
variable {s r : ℕ} {m m' : Machine} {owner : ℕ → Option Role} {roots : List ℕ} {seg : Segment}
  {c : MapCall}

/-! ### The bounds of the loop -/

lemma Segment.touched_eq_empty (h : seg.endVaddr ≤ seg.startVaddr) : seg.touched = ∅ := by
  ext vpn
  simp only [Segment.touched, Set.mem_ofPred_eq, Set.mem_empty_iff_false, iff_false]
  rintro ⟨va, hlow, hhigh, _⟩
  omega

/-- A page is touched when it is between those of the first and the last address. -/
lemma Segment.mem_touched (h : seg.startVaddr < seg.endVaddr) {vpn : ℕ} :
    vpn ∈ seg.touched ↔
      seg.startVaddr / pageSize ≤ vpn ∧ vpn ≤ (seg.endVaddr - 1) / pageSize := by
  constructor
  · rintro ⟨va, hlow, hhigh, rfl⟩
    exact ⟨Nat.div_le_div_right hlow, Nat.div_le_div_right (by omega)⟩
  · rintro ⟨hlow, hhigh⟩
    refine ⟨max seg.startVaddr (vpn * pageSize), le_max_left _ _, ?_, ?_⟩
    · simp only [pageSize] at hhigh ⊢
      omega
    · simp only [pageSize] at hlow ⊢
      omega

lemma Segment.endVpn_eq (hpos : 0 < seg.endVaddr) (hlt : seg.endVaddr < 2 ^ 64) :
    seg.endVpn = (seg.endVaddr - 1) / pageSize + 1 := by
  rw [Segment.endVpn, show (seg.endVaddr + 2 ^ 64 - 1) % 2 ^ 64 = seg.endVaddr - 1 by omega]

/-- The loop runs over the pages that are touched, unless the segment is empty and not aligned. -/
lemma Segment.loop_eq_touched_iff (hle : seg.startVaddr ≤ seg.endVaddr) (hpos : 0 < seg.endVaddr)
    (hlt : seg.endVaddr < 2 ^ 64) :
    {vpn | seg.startVpn ≤ vpn ∧ vpn < seg.endVpn} = seg.touched ↔
      seg.startVaddr < seg.endVaddr ∨ pageSize ∣ seg.startVaddr := by
  rw [Segment.endVpn_eq hpos hlt, Segment.startVpn]
  rcases hle.lt_or_eq with hne | heq
  · simp only [hne, true_or, iff_true]
    ext vpn
    rw [Segment.mem_touched hne, Set.mem_ofPred_eq, Nat.lt_succ_iff]
  · rw [Segment.touched_eq_empty heq.ge, heq, Set.eq_empty_iff_forall_notMem]
    simp only [lt_irrefl, false_or, Set.mem_ofPred_eq, not_and, not_lt]
    constructor
    · intro h
      have := h _ le_rfl
      simp only [pageSize] at this ⊢
      omega
    · rintro ⟨k, hk⟩ vpn hvpn
      simp only [pageSize] at hk hvpn ⊢
      omega

/-! ### Completed calls -/

/-- The loop of a call that completes. -/
lemma mapSegment_filled (h : Owned (fun _ => False) s m owner) (hr : owner r = some (.table r []))
    (hf : seg.flags < 2 ^ 64) (hok : mapSegment m r seg c = .ok m') :
    Filled m.mem m'.mem r seg.startVpn (seg.endVpn - seg.startVpn) ∧
      ∃ owner', Owned (fun _ => False) s m' owner' ∧
        ∀ p R, owner p = some R → owner' p = some R := by
  cases c with
  | linear => exact mapPages_filled (fillsOne_linear hf) h hr hok
  | framed => exact mapPages_filled (fillsOne_framed hf) h hr hok
  | copy data length => exact mapPages_filled (fillsOne_copy hf) h hr hok

/-- When the loop runs over the touched pages, mapping does what it is to do. -/
lemma Filled.covers {mem mem' : Bytes.Memory}
    (h : Filled mem mem' r seg.startVpn (seg.endVpn - seg.startVpn))
    (hloop : {vpn | seg.startVpn ≤ vpn ∧ vpn < seg.endVpn} = seg.touched) :
    Covers seg r mem mem' := by
  refine ⟨?_, ?_, hloop⟩
  · intro vpn hvpn
    rw [← hloop] at hvpn
    obtain ⟨k, rfl⟩ := Nat.exists_eq_add_of_le hvpn.1
    have hk : k < seg.endVpn - seg.startVpn := Nat.lt_sub_iff_add_lt'.mpr hvpn.2
    exact ⟨h.vacant k hk, h.odd k hk⟩
  · intro v hv
    refine h.other v fun k hk => hv _ ?_
    rw [← hloop]
    exact ⟨Nat.le_add_right _ _, Nat.lt_sub_iff_add_lt'.mp hk⟩

/-- A segment that ends at zero asks for more pages than the tables tell apart. -/
lemma Filled.endVaddr_pos {mem mem' : Bytes.Memory} (hle : seg.startVaddr ≤ seg.endVaddr)
    (h : Filled mem mem' r seg.startVpn (seg.endVpn - seg.startVpn)) : 0 < seg.endVaddr := by
  have hdistinct := h.distinct
  by_contra hzero
  have hend : seg.endVaddr = 0 := by omega
  have hstart : seg.startVaddr = 0 := by omega
  rw [Segment.endVpn, Segment.startVpn, hend, hstart] at hdistinct
  exact absurd hdistinct (by decide)

/-- The invariant holds in every run. -/
theorem TableReach.inv (h : TableReach s m roots) :
    ∃ owner, Owned (fun _ => False) s m owner ∧ ∀ r ∈ roots, owner r = some (.table r []) := by
  induction h with
  | init hle h => exact ⟨fun _ => none, owned_newAllocator hle h, by simp⟩
  | root _ hok ih =>
    obtain ⟨owner, ho, hroots⟩ := ih
    obtain ⟨_, owner', ho', hext, hroot⟩ := ho.newMapping hok
    refine ⟨owner', ho', ?_⟩
    intro r hr
    rcases List.mem_cons.mp hr with rfl | hr
    · exact hroot
    · exact hext.grows _ _ (hroots r hr)
  | segment _ hr hf hok ih =>
    obtain ⟨owner, ho, hroots⟩ := ih
    obtain ⟨_, owner', ho', hgrows⟩ := mapSegment_filled ho (hroots _ hr) hf hok
    exact ⟨owner', ho', fun r hr => hgrows _ _ (hroots r hr)⟩
  | change _ hsta hmem ih =>
    rename_i m m' roots _
    obtain ⟨owner, ho, hroots⟩ := ih
    refine ⟨restrict owner m.mem roots, ho.restrict.congr hsta ?_, ?_⟩
    · intro p r path x hp hx
      obtain ⟨hp, hr, hreach⟩ := restrict_table.mp hp
      exact hmem r hr path p (ho.depth p r path hp) hreach x hx
    · exact fun r hr => restrict_table.mpr ⟨hroots r hr, hr, rfl⟩

end

/-- A call that completes maps exactly the pages that the segment touches if and only if the segment
is not empty or begins at a page. -/
theorem segment_pages_exact (s : ℕ) (m m' : Machine) (roots : List ℕ) (h : TableReach s m roots)
    (r : ℕ) (hr : r ∈ roots) (seg : Segment) (hle : seg.startVaddr ≤ seg.endVaddr)
    (hlt : seg.endVaddr < 2 ^ 64) (hf : seg.flags < 2 ^ 64) (c : MapCall)
    (hok : mapSegment m r seg c = .ok m') :
    Covers seg r m.mem m'.mem ↔ seg.startVaddr < seg.endVaddr ∨ pageSize ∣ seg.startVaddr := by
  obtain ⟨owner, ho, hroots⟩ := h.inv
  obtain ⟨hfilled, _⟩ := mapSegment_filled ho (hroots r hr) hf hok
  have hiff := Segment.loop_eq_touched_iff hle (hfilled.endVaddr_pos hle) hlt
  exact ⟨fun hcovers => hiff.mp hcovers.loop, fun hcond => hfilled.covers (hiff.mpr hcond)⟩

/-! ### One page in a new address space -/

/-- With an empty address space, every call for a segment of one page completes. -/
lemma mapSegment_new : ∃ s m root, TableReach s m [root] ∧ (∀ v, leafAt m.mem root v = 0) ∧
    ∀ seg : Segment, seg.pages = 1 → seg.flags < 2 ^ 64 → ∀ c, ∃ m',
      mapSegment m root seg c = .ok m' := by
  obtain ⟨sta, hnew, ho, hroom⟩ := sample_start
  have hinit : TableReach sampleLayout.startPpn ⟨sampleMemory, sta⟩ [] :=
    .init (m := ⟨sampleMemory, fun _ => 0, 0, 0, 0⟩) sampleLayout.startPpn_le hnew
  obtain ⟨root, m, hmap, hroom₁⟩ := ho.newMapping_ok (by omega)
  obtain ⟨hempty, _⟩ := ho.newMapping_leaves hmap
  obtain ⟨_, owner, ho', _, hroot⟩ := ho.weaken.newMapping hmap
  refine ⟨_, m, root, hinit.root hmap, hempty, ?_⟩
  intro seg hpages hf c
  have hroom' : ∀ c ≤ 1, 2 + framesNeeded c seg.startVpn seg.pages ≤ room m := by
    intro c hc
    rw [hpages, framesNeeded]
    omega
  have hcount : seg.pages ≤ 2 ^ 27 := by omega
  cases c with
  | linear =>
    obtain ⟨m', hok, _⟩ := mapPages_ok () (fillsOne_linear hf) (proceeds_linear _) ho' hroot hcount
      (fun k _ => hempty _) (hroom' 0 (by decide))
    exact ⟨m', hok⟩
  | framed =>
    obtain ⟨m', hok, _⟩ := mapPages_ok () (fillsOne_framed hf) (proceeds_framed _) ho' hroot hcount
      (fun k _ => hempty _) (hroom' 1 le_rfl)
    exact ⟨m', hok⟩
  | copy data length =>
    obtain ⟨m', hok, _⟩ := mapPages_ok (data, length) (fillsOne_copy hf) (proceeds_copy _) ho' hroot
      hcount (fun k _ => hempty _) (hroom' 1 le_rfl)
    exact ⟨m', hok⟩

/-- A segment of one byte at the end of a page. -/
theorem segment_pages_exact_byte : ∃ s m root m', TableReach s m [root] ∧
    mapSegment m root ⟨0x1fff, 0x2000, 1⟩ (.copy 0 1) = .ok m' ∧
    Covers ⟨0x1fff, 0x2000, 1⟩ root m.mem m'.mem := by
  obtain ⟨s, m, root, hreach, _, hmap⟩ := mapSegment_new
  obtain ⟨m', hok⟩ := hmap ⟨0x1fff, 0x2000, 1⟩ (by decide) (by decide) (.copy 0 1)
  exact ⟨s, m, root, m', hreach, hok, (segment_pages_exact s m m' [root] hreach root
    List.mem_cons_self _ (by decide) (by decide) (by decide) _ hok).mpr (.inl (by decide))⟩

/-- An empty segment inside page 1: each of the functions maps that page. -/
theorem empty_segment_maps_page : ∃ s m root, TableReach s m [root] ∧
    (⟨0x1001, 0x1001, 1⟩ : Segment).touched = ∅ ∧ leafAt m.mem root 1 = 0 ∧
    ∀ c, ∃ m', mapSegment m root ⟨0x1001, 0x1001, 1⟩ c = .ok m' ∧ leafAt m'.mem root 1 % 2 = 1 := by
  obtain ⟨s, m, root, hreach, hempty, hmap⟩ := mapSegment_new
  obtain ⟨owner, ho, hroots⟩ := hreach.inv
  refine ⟨s, m, root, hreach, Segment.touched_eq_empty le_rfl, hempty 1, ?_⟩
  intro c
  obtain ⟨m', hok⟩ := hmap ⟨0x1001, 0x1001, 1⟩ (by decide) (by decide) c
  obtain ⟨hfilled, _⟩ := mapSegment_filled ho (hroots root List.mem_cons_self) (by decide) hok
  exact ⟨m', hok, hfilled.odd 0 (by decide)⟩

end Jokerix
