import Jokerix.Vm.Loading

/-!
# When loading a program fails

With enough frames the address space of a thread is built exactly when the image has the magic
number and no page of its segments is the kernel's, the user stack's or another segment's.
-/

namespace Jokerix

/-- No page of a segment is the kernel's, the stack's or another segment's. -/
structure SegmentsApart (mem : Bytes.Memory) (elf : ℕ) : Prop where
  free : ∀ seg ∈ elfSegments mem elf, seg.Free
  apart : (elfSegments mem elf).Pairwise fun a b => ∀ k < b.pages, a.Misses (b.startVpn + k)

section
variable {s r : ℕ} {m m' : Machine} {owner : ℕ → Option Role} {L : Layout} {elf : ℕ}

/-- A page that is vacant is none of those that were filled before. -/
lemma Filled.misses {mem mem' : Bytes.Memory} {seg : Segment} {v : ℕ}
    (h : Filled mem mem' r seg.startVpn seg.pages) (hv : leafAt mem' r v = 0) : seg.Misses v := by
  intro k hk heq
  have hodd := h.odd k hk
  rw [← leafAt_mod heq] at hodd
  omega

/-- The segments of a program that was mapped: they were vacant, and they do not meet. -/
structure SegmentsFilled (mem mem' : Bytes.Memory) (r : ℕ) (segs : List Segment) : Prop where
  unmapped : ∀ seg ∈ segs, Unmapped mem r seg
  apart : segs.Pairwise fun a b => ∀ k < b.pages, a.Misses (b.startVpn + k)
  odd : ∀ seg ∈ segs, ∀ k < seg.pages, leafAt mem' r (seg.startVpn + k) % 2 = 1
  other : ∀ v, (∀ seg ∈ segs, seg.Misses v) → leafAt mem' r v = leafAt mem r v

lemma SegmentsFilled.cons {mem mem₁ mem' : Bytes.Memory} {seg : Segment} {segs : List Segment}
    (h : Filled mem mem₁ r seg.startVpn seg.pages) (hs : SegmentsFilled mem₁ mem' r segs) :
    SegmentsFilled mem mem' r (seg :: segs) := by
  have hmiss : ∀ b ∈ segs, ∀ k < b.pages, seg.Misses (b.startVpn + k) := fun b hb k hk =>
    h.misses ((hs.unmapped b hb).2 k hk)
  refine ⟨?_, List.pairwise_cons.mpr ⟨hmiss, hs.apart⟩, ?_, ?_⟩
  · refine List.forall_mem_cons.mpr ⟨⟨h.distinct, h.vacant⟩, fun b hb => ?_⟩
    refine ⟨(hs.unmapped b hb).1, fun k hk => ?_⟩
    rw [← h.other _ (hmiss b hb k hk)]
    exact (hs.unmapped b hb).2 k hk
  · refine List.forall_mem_cons.mpr ⟨fun k hk => ?_, hs.odd⟩
    rw [hs.other _ fun b hb k' hk' heq => hmiss b hb k' hk' k hk heq.symm]
    exact h.odd k hk
  · intro v hv
    rw [hs.other v fun b hb => hv b (List.mem_cons_of_mem _ hb),
      h.other v (hv seg List.mem_cons_self)]

theorem Owned.mapProgHeaders_filled {mem₀ : Bytes.Memory} (h : Owned UserEntry s m owner)
    (table n : ℕ) (hr : owner r = some (.table r []))
    (hmem : ∀ x, Outside s x → m.mem x = mem₀ x)
    (htable : ∀ x, table ≤ x → x < table + n * sizeofProgHeader → x < 2 ^ 64 ∧ Outside s x)
    (hok : Jokerix.mapProgHeaders m r elf table n = .ok m') :
    SegmentsFilled m.mem m'.mem r (loadSegments mem₀ table n) := by
  induction n generalizing m owner table with
  | zero =>
    obtain rfl := Except.ok.inj hok
    exact ⟨by simp [loadSegments], .nil, by simp [loadSegments], fun _ _ => rfl⟩
  | succ n ih =>
    have hread : readProgHeader m.mem table = readProgHeader mem₀ table := by
      apply readProgHeader_congr
      intro x h1 h2
      exact hmem x (htable x h1 (by simp only [sizeofProgHeader] at *; omega)).2
    have htable' := table_next htable
    rw [Jokerix.mapProgHeaders, hread] at hok
    obtain ⟨m₁, hok₁, hok⟩ := bind_eq_ok hok
    rw [loadSegments]
    by_cases hload : (readProgHeader mem₀ table).type = elfProgLoad
    · rw [Jokerix.mapProgHeader, if_neg (not_not.mpr hload)] at hok₁
      simp only [if_pos hload]
      have hflags := convertElfFlags_lt (readProgHeader mem₀ table).flags
      obtain ⟨owner₁, h₁, hext₁, _⟩ := h.mapFramedAndCopy hr hflags (Nat.mod_lt _ (by norm_num))
        hok₁
      obtain ⟨hfilled, _⟩ := mapPages_filled (fillsOne_copy (lt_trans hflags (by norm_num)))
        h.weaken
        hr hok₁
      exact .cons hfilled (ih h₁ _ (hext₁.grows _ _ hr)
        (fun x hx => (hext₁.outside x hx).trans (hmem x hx)) htable' hok)
    · rw [Jokerix.mapProgHeader, if_pos hload] at hok₁
      obtain rfl := Except.ok.inj hok₁
      simp only [if_neg hload]
      exact ih h _ hr hmem htable' hok

/-- An address space that was built: the magic number is there, and no pages meet. -/
lemma Owned.newUserMapping_apart (h : Owned UserEntry s m owner) (hout : HeadersOutside s m.mem elf)
    (hok : Jokerix.newUserMapping L m elf = .ok (r, m')) :
    (readElfHeader m.mem elf).magic = elfMagic ∧ ∃ m₁ : Machine, KernelMapped L m₁.mem r ∧
      SegmentsFilled m₁.mem m'.mem r (elfSegments m.mem elf) := by
  obtain ⟨m₁, hok₁, hmagic, hok₂⟩ := newUserMapping_cases hok
  obtain ⟨_, owner₁, h₁, hext₁, hr₁, hk₁⟩ := h.newKernelMapping hok₁
  have hread : readElfHeader m₁.mem elf = readElfHeader m.mem elf :=
    readElfHeader_congr fun x h1 h2 => hext₁.outside x (hout.header x h1 h2)
  rw [hread] at hmagic hok₂
  exact ⟨hmagic, m₁, hk₁, h₁.mapProgHeaders_filled _ _ hr₁
    (fun x hx => hext₁.outside x hx) hout.table hok₂⟩

/-- With enough frames, this is all that matters. -/
theorem Owned.newUserThreadMapping_ok_iff (L : Layout) (h : Owned UserEntry s m owner)
    (hout : HeadersOutside s m.mem elf) (hroom : loadFrames m.mem elf ≤ room m) :
    (∃ root m', Jokerix.newUserThreadMapping L m elf = .ok (root, m')) ↔
      (readElfHeader m.mem elf).magic = elfMagic ∧ SegmentsApart m.mem elf := by
  constructor
  · rintro ⟨root, m', hok⟩
    obtain ⟨m₂, hok₂, hok₃⟩ := newUserThreadMapping_cases hok
    obtain ⟨hmagic, m₁, hk, hsegs⟩ := h.newUserMapping_apart hout hok₂
    obtain ⟨_, owner₂, h₂, _, hr₂, _⟩ := h.newUserMapping hok₂
    obtain ⟨hstack, _⟩ := mapPages_filled (fillsOne_framed (by decide)) h₂.weaken hr₂ hok₃
    refine ⟨hmagic, ⟨fun seg hseg => ?_, hsegs.apart⟩⟩
    refine ⟨(hsegs.unmapped seg hseg).1, fun k hk' => ?_, fun k hk' => ?_⟩
    · intro vpn h1 h2 heq
      have hzero := (hsegs.unmapped seg hseg).2 k hk'
      obtain ⟨f, _, hodd, hleaf⟩ := hk vpn
        (le_trans (le_of_eq (by rw [L.text_eq, kernelBeginVaddr, pageSize])) h1)
        (lt_of_lt_of_eq h2 (by simp only [kernelEndVpn, memoryEndPaddr, kernelMapOffset, pageSize]))
      rw [leafAt_mod heq, hleaf] at hzero
      omega
    · intro j hj heq
      have hodd := hsegs.odd seg hseg k hk'
      rw [leafAt_mod heq, hstack.vacant j hj] at hodd
      omega
  · rintro ⟨hmagic, hfree, hapart⟩
    obtain ⟨root, m', hok, _⟩ := h.newUserThreadMapping_ok L ⟨hout, hmagic, hfree, hapart⟩ hroom
    exact ⟨root, m', hok⟩

end

end Jokerix
