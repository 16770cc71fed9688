import Jokerix.Vm.Clashes
import Jokerix.Vm.UserAccess

/-!
# The memory of a new program

What a program loads from each address of a new address space is told by its ELF image alone: the
pages of its segments, a cleared stack, and nothing else.
-/

namespace Jokerix

/-- How many pages a page lies behind the first one of a segment, in the 27 bits that the tables
use. -/
def Segment.pageIndex (seg : Segment) (vpn : ℕ) : ℕ :=
  (vpn + 2 ^ 27 - seg.startVpn % 2 ^ 27) % 2 ^ 27

/-- The page is one of the segment's. -/
def Segment.Has (seg : Segment) (vpn : ℕ) : Prop := seg.pageIndex vpn < seg.pages

instance (seg : Segment) (vpn : ℕ) : Decidable (seg.Has vpn) := inferInstanceAs (Decidable (_ < _))

/-- The headers of the segments that are loaded. -/
def loadHeaders (mem : Bytes.Memory) (elf : ℕ) : List ProgHeader :=
  let eHeader := readElfHeader mem elf
  ((List.range eHeader.phnum).map (progHeader mem (elf + eHeader.phoff))).filter
    (·.type = elfProgLoad)

/-- The byte at a place in the pages of a segment. The data begins with the first page. -/
def ProgHeader.byte (ph : ProgHeader) (mem : Bytes.Memory) (elf i : ℕ) : UInt8 :=
  if i < ph.filesz then mem (elf + ph.off + i) else 0

/-- What a new program loads from an address. -/
def programByte (mem : Bytes.Memory) (elf va : ℕ) : Option UInt8 :=
  let va := va % 2 ^ 64
  let vpn := va / pageSize
  if Canonical va then
    match (loadHeaders mem elf).find? (·.segment.Has vpn) with
    | some ph =>
      if ph.flags &&& elfProgFlagRead ≠ 0 then
        some (ph.byte mem elf (ph.segment.pageIndex vpn * pageSize + va % pageSize))
      else none
    | none => if userStackSegment.Has vpn then some 0 else none
  else none

section
variable {L : Layout} {s : ℕ} {m m' : Machine} {owner : ℕ → Option Role} {roots : List ℕ}
  {r root elf size va vpn f : ℕ} {mem : Bytes.Memory}

/-! ### Segments and their pages -/

lemma Segment.pageIndex_mod (seg : Segment) (vpn : ℕ) :
    (seg.startVpn + seg.pageIndex vpn) % 2 ^ 27 = vpn % 2 ^ 27 := by
  rw [Segment.pageIndex]
  omega

lemma Segment.has_iff (seg : Segment) (vpn : ℕ) : seg.Has vpn ↔ ¬ seg.Misses vpn := by
  rw [Segment.Misses]
  push Not
  constructor
  · intro h
    exact ⟨_, h, (seg.pageIndex_mod vpn).symm⟩
  · rintro ⟨k, hk, heq⟩
    refine lt_of_le_of_lt ?_ hk
    rw [Segment.pageIndex]
    omega

lemma progHeader_succ (mem : Bytes.Memory) (table i : ℕ) :
    progHeader mem table (i + 1) = progHeader mem (table + sizeofProgHeader) i := by
  rw [progHeader, progHeader, Nat.succ_mul, Nat.add_comm (i * sizeofProgHeader), Nat.add_assoc]

lemma loadSegments_eq {table n : ℕ} (h : table + n * sizeofProgHeader < 2 ^ 64) :
    loadSegments mem table n =
      (((List.range n).map (progHeader mem table)).filter (·.type = elfProgLoad)).map
        ProgHeader.segment := by
  induction n generalizing table with
  | zero => rfl
  | succ n ih =>
    rw [Nat.succ_mul] at h
    have hfirst : progHeader mem table 0 = readProgHeader mem table := by
      rw [progHeader, Nat.zero_mul, Nat.add_zero]
    have hrest : ((fun i => progHeader mem table i) ∘ Nat.succ) =
        progHeader mem (table + sizeofProgHeader) := by
      funext i
      exact progHeader_succ mem table i
    rw [loadSegments, Nat.mod_eq_of_lt (by omega), ih (by omega), List.range_succ_eq_map,
      List.map_cons, List.map_map, hrest, hfirst, List.filter_cons]
    by_cases hload : (readProgHeader mem table).type = elfProgLoad
    · simp only [hload, if_true, decide_true, List.map_cons]
    · simp only [hload, if_false, decide_false, Bool.false_eq_true]

/-! ### The pages that a new address space has -/

/-- Nothing in a new address space is open to users. -/
lemma Owned.newKernelMapping_closed (h : Owned UserEntry s m owner)
    (hok : Jokerix.newKernelMapping L m = .ok (root, m')) (v : ℕ) :
    ¬ UserEntry (leafAt m'.mem root v) := by
  by_cases hv : MissesKernel v
  · obtain ⟨m₁, h₁, h₂⟩ := newKernelMapping_cases hok
    obtain ⟨_, owner₁, ho₁, _, hr₁⟩ := h.newMapping h₁
    obtain ⟨_, hmiss, _⟩ := kernel_segments L
    rw [mapLinearSegments_other ho₁.weaken hr₁ (fun seg hseg =>
      lt_trans (layout_kernelFlags L seg hseg).1 (by norm_num)) h₂ v fun seg hseg =>
        hmiss seg hseg v hv,
      (h.newMapping_leaves h₁).1, UserEntry]
    decide
  · obtain ⟨_, _, _, _, _, hk⟩ := h.newKernelMapping hok
    rw [MissesKernel] at hv
    push Not at hv
    obtain ⟨vpn, h1, h2, heq⟩ := hv
    obtain ⟨f, hf, _, hleaf⟩ := hk vpn
      (le_trans (le_of_eq (by rw [L.text_eq, kernelBeginVaddr, pageSize])) h1)
      (lt_of_lt_of_eq h2 (by simp only [kernelEndVpn, memoryEndPaddr, kernelMapOffset, pageSize]))
    rw [leafAt_mod heq, hleaf, UserEntry, flagUser]
    omega

/-- The pages of a new program. -/
structure ProgramPages (mem₀ : Bytes.Memory) (elf root : ℕ) (m : Machine)
    (owner : ℕ → Option Role) :
    Prop where
  segment : ∀ ph ∈ loadHeaders mem₀ elf, ∀ k < ph.segment.pages, FramedPage m owner root
    (ph.segment.startVpn + k) (convertElfFlags ph.flags ||| flagValid)
    fun i => ph.byte mem₀ elf (k * pageSize + i)
  stack : ∀ k < userStackSegment.pages, FramedPage m owner root (userStackSegment.startVpn + k)
    (userStackSegment.flags ||| flagValid) fun _ => 0
  other : ∀ v, (∀ ph ∈ loadHeaders mem₀ elf, ph.segment.Misses v) → userStackSegment.Misses v →
    ¬ UserEntry (leafAt m.mem root v)

lemma mem_loadHeaders {ph : ProgHeader} (h : ph ∈ loadHeaders mem elf) : ph.type = elfProgLoad ∧
    ∃ i < (readElfHeader mem elf).phnum,
      progHeader mem (elf + (readElfHeader mem elf).phoff) i = ph := by
  obtain ⟨hmem, hload⟩ := List.mem_filter.mp h
  obtain ⟨i, hi, hph⟩ := List.mem_map.mp hmem
  exact ⟨of_decide_eq_true hload, i, List.mem_range.mp hi, hph⟩

/-- The header table is not cut by the end of the addresses. -/
lemma InsideBuffer.table_lt (hbuf : InsideBuffer L mem elf size) :
    elf + (readElfHeader mem elf).phoff + (readElfHeader mem elf).phnum * sizeofProgHeader <
      2 ^ 64 := by
  obtain ⟨_, _, _, _, _, hlt⟩ := L.bounds
  have hbuffer := hbuf.buffer
  have htable := hbuf.table
  omega

lemma InsideBuffer.headersOutside (hbuf : InsideBuffer L mem elf size) :
    HeadersOutside L.startPpn mem elf := by
  obtain ⟨_, _, _, _, _, hlt⟩ := L.bounds
  have hlast := hbuf.table_lt
  obtain ⟨hbuffer, hheader, htable, _⟩ := hbuf
  refine ⟨fun x _ hx => kernelEnd_outside (by omega), ?_⟩
  rw [headerTable, Nat.mod_eq_of_lt (by omega)]
  exact fun x _ hx => ⟨by omega, kernelEnd_outside (by omega)⟩

lemma InsideBuffer.elfSegments (hbuf : InsideBuffer L mem elf size) :
    Jokerix.elfSegments mem elf = (loadHeaders mem elf).map ProgHeader.segment := by
  have hlast := hbuf.table_lt
  simp only [Jokerix.elfSegments, loadHeaders]
  rw [Nat.mod_eq_of_lt (by omega), loadSegments_eq hlast]

theorem Owned.newThread_pages (h : Owned UserEntry L.startPpn m owner)
    (hbuf : InsideBuffer L m.mem elf size)
    (hok : Jokerix.newUserThreadMapping L m elf = .ok (root, m')) :
    ∃ owner', Owned UserEntry L.startPpn m' owner' ∧ owner' root = some (.table root []) ∧
      ProgramPages m.mem elf root m' owner' := by
  obtain ⟨_, _, _, _, _, hlt⟩ := L.bounds
  obtain ⟨hpages, hstart, hflags⟩ := userStack_pages
  obtain ⟨m₁, h₁, h₂⟩ := newUserThreadMapping_cases hok
  obtain ⟨_, owner₁, ho₁, _, hr₁, _, hsegs⟩ := h.newUserMapping h₁
  obtain ⟨owner₂, ho₂, hext₂, hstack⟩ := ho₁.mapFramedSegment hr₁ hflags h₂
  obtain ⟨hfilled, _⟩ := mapPages_filled (fillsOne_framed (lt_trans hflags (by norm_num)))
    ho₁.weaken
    hr₁ h₂
  have hout := hbuf.headersOutside
  have hsegs := hsegs hout.header
  have hlast := hbuf.table_lt
  have hwrap : (elf + (readElfHeader m.mem elf).phoff) % 2 ^ 64 =
      elf + (readElfHeader m.mem elf).phoff := Nat.mod_eq_of_lt (by omega)
  have htable := hout.table
  rw [headerTable] at htable
  have hsegs := hsegs htable
  simp only [hwrap] at hsegs
  refine ⟨owner₂, ho₂, hext₂.grows _ _ hr₁, ⟨fun ph hph k hk => ?_, hstack, fun v hv hvs => ?_⟩⟩
  · obtain ⟨hload, i, hi, hph⟩ := mem_loadHeaders hph
    have hseg := (hsegs i hi).extends ho₁ hr₁ hext₂
    have hdata := hbuf.data i hi
    rw [hph] at hseg hdata
    obtain ⟨hoff, _⟩ := hdata hload
    have hbuffer := hbuf.buffer
    obtain ⟨content, ⟨q, hq, hleaf, hown, hbytes⟩, hcontent⟩ := hseg hload k hk
    rw [Nat.mod_eq_of_lt (by omega)] at hcontent
    have hcontent := hcontent fun j hj => ⟨by omega, kernelEnd_outside (by omega)⟩
    refine ⟨q, hq, hleaf, hown, fun i hi => ?_⟩
    rw [hbytes i hi, hcontent i hi]
    rfl
  · -- the page is as it was before the program was mapped
    obtain ⟨m₀, h₀, hmagic, h₃⟩ := newUserMapping_cases h₁
    obtain ⟨_, owner₀, ho₀, hext₀, hr₀, _⟩ := h.newKernelMapping h₀
    have hread : readElfHeader m₀.mem elf = readElfHeader m.mem elf :=
      readElfHeader_congr fun x h1 h2 => hext₀.outside x (hout.header x h1 h2)
    rw [hread] at h₃
    have hsf := ho₀.mapProgHeaders_filled _ _ hr₀ (fun x hx => hext₀.outside x hx) hout.table h₃
    have hmiss : ∀ seg ∈ Jokerix.elfSegments m.mem elf, seg.Misses v := by
      rw [hbuf.elfSegments]
      simpa only [List.forall_mem_map] using hv
    rw [hfilled.other v hvs, hsf.other v hmiss]
    exact h.newKernelMapping_closed h₀ v

/-! ### Loads -/

lemma Owned.load_closed (h : Owned UserEntry s m owner) (hr : owner r = some (.table r []))
    (hclosed : ¬ UserEntry (pageEntry m.mem r va)) : loadPlace r m.mem va = none := by
  rw [loadPlace, h.access_eq hr, if_neg]
  rintro ⟨_, _, hgrants⟩
  have huser := (of_decide_eq_true hgrants).2
  rw [UserEntry] at hclosed
  simp only [flagUser] at huser hclosed
  omega

lemma leafPlace_frame {q : ℕ} (hq : q < endPpn) (hf : f < 2 ^ 10) :
    leafPlace (q * 2 ^ 10 + f) va = frameVa q + va % 2 ^ 64 % pageSize := by
  have hq : q < 0x87fff := hq
  have hframe : (q * 2 ^ 10 + f) / 2 ^ 10 % 2 ^ 44 = q := by omega
  have hlt : va % 2 ^ 64 % pageSize < pageSize := Nat.mod_lt _ (by decide)
  rw [leafPlace, hframe]
  generalize va % 2 ^ 64 % pageSize = i at hlt ⊢
  simp only [accessVaViaPa, frameVa, pageSize, kernelMapOffset] at hlt ⊢
  omega

/-- A load from a page in a frame of its own. -/
lemma Owned.load_framed {content : ℕ → UInt8} (h : Owned UserEntry s m owner)
    (hr : owner r = some (.table r [])) (hpage : FramedPage m owner r vpn f content)
    (hvpn : va % 2 ^ 64 / pageSize % 2 ^ 27 = vpn % 2 ^ 27) (hc : Canonical (va % 2 ^ 64))
    (hf : f < 2 ^ 10) (hodd : f % 2 = 1) (huser : f / flagUser % 2 = 1) :
    (loadPlace r m.mem va).map m.mem =
      if f / flagReadable % 2 = 1 then some (content (va % 2 ^ 64 % pageSize)) else none := by
  obtain ⟨q, hq, hleaf, _, hbytes⟩ := hpage
  have hentry : pageEntry m.mem r va = q * 2 ^ 10 + f := by
    rw [pageEntry, leafAt_mod hvpn, hleaf]
  have hmod : (q * 2 ^ 10 + f) % 2 ^ 10 = f := by omega
  rw [loadPlace, h.access_eq hr, hentry, hmod]
  by_cases hread : f / flagReadable % 2 = 1
  · rw [if_pos hread, if_pos, Option.map_some, leafPlace_frame hq hf,
      hbytes _ (Nat.mod_lt _ (by decide))]
    refine ⟨hc, ⟨?_, .inl ?_⟩, decide_eq_true ⟨hread, huser⟩⟩
    · omega
    · simp only [flagReadable] at hread ⊢
      omega
  · rw [if_neg hread, if_neg, Option.map_none]
    rintro ⟨_, _, hgrants⟩
    exact hread (of_decide_eq_true hgrants).1

/-- A new program loads what its image says. -/
theorem Reach.newThread_load (h : Reach L m roots) (hbuf : InsideBuffer L m.mem elf size)
    (hok : newUserThreadMapping L m elf = .ok (root, m')) (va : ℕ) :
    (loadPlace root m'.mem va).map m'.mem = programByte m.mem elf va := by
  obtain ⟨owner, ho, _⟩ := h.inv
  obtain ⟨owner', ho', hr, hpages⟩ := ho.newThread_pages hbuf hok
  simp only [programByte]
  by_cases hc : Canonical (va % 2 ^ 64)
  swap
  · rw [if_neg hc, loadPlace, ho'.access_eq hr, if_neg fun h => hc h.1, Option.map_none]
  rw [if_pos hc]
  cases hfind : (loadHeaders m.mem elf).find? (·.segment.Has (va % 2 ^ 64 / pageSize)) with
  | some ph =>
    have hmem := List.mem_of_find?_eq_some hfind
    have hhas : ph.segment.Has (va % 2 ^ 64 / pageSize) := by
      simpa using List.find?_some hfind
    obtain ⟨hodd, huser, hread, _⟩ := convertElfFlags_bits 0 ph.flags
    rw [Nat.zero_mul, Nat.zero_add] at hodd huser hread
    rw [ho'.load_framed hr (hpages.segment ph hmem _ hhas) (ph.segment.pageIndex_mod _).symm hc
      (or_valid_lt (convertElfFlags_lt _)) hodd huser]
    exact if_congr hread rfl rfl
  | none =>
    have hmiss : ∀ ph ∈ loadHeaders m.mem elf, ph.segment.Misses (va % 2 ^ 64 / pageSize) := by
      intro ph hph
      have hnot := List.find?_eq_none.mp hfind ph hph
      rw [decide_eq_true_eq, Segment.has_iff, not_not] at hnot
      exact hnot
    by_cases hstack : userStackSegment.Has (va % 2 ^ 64 / pageSize)
    · rw [if_pos hstack, ho'.load_framed hr (hpages.stack _ hstack)
        (userStackSegment.pageIndex_mod _).symm hc (by decide) (by decide) (by decide)]
      rfl
    · rw [if_neg hstack, ho'.load_closed hr, Option.map_none]
      rw [Segment.has_iff, not_not] at hstack
      exact hpages.other _ hmiss hstack

end

end Jokerix
