import Jokerix.Vm.Elf
import Jokerix.Vm.Progress

/-!
# Mapping only takes frames

Whatever the memory holds, the functions that map pages take frames and give none back.
-/

namespace Jokerix

/-- The allocator is intact, and no frame is free that was not. -/
structure TakesFrames (d s : ℕ) (t t' : FrameTree) : Prop where
  inv : FrameInv d s t'
  free : freeFrames t' ⊆ freeFrames t

section
variable {d s a r : ℕ} {m m' : Machine} {t t' t'' : FrameTree}

namespace TakesFrames

lemma refl (hi : FrameInv d s t) : TakesFrames d s t t := ⟨hi, subset_rfl⟩

lemma trans (h : TakesFrames d s t t') (h' : TakesFrames d s t' t'') : TakesFrames d s t t'' :=
  ⟨h'.inv, h'.free.trans h.free⟩

lemma trans_ne (h : TakesFrames d s t t') (h' : TakesFrames d s t' t'')
    (hne : freeFrames t' ≠ freeFrames t) : freeFrames t'' ≠ freeFrames t :=
  fun heq => hne (subset_antisymm h.free (heq ▸ h'.free))

end TakesFrames

lemma FrameInv.free_finite (hi : FrameInv d s t) : (freeFrames t).Finite := by
  refine (Set.finite_Iio (s + 2 ^ d)).subset fun p hp => ?_
  obtain ⟨i, hlt, _, rfl⟩ := hi.mem_freeFrames.mp hp
  rw [Set.mem_Iio]
  omega

namespace FrameInv

/-! ### One frame -/

/-- A frame that is allocated is not free any more. -/
lemma allocFrame (hi : FrameInv d s m.sta) (hok : allocFrame m = .ok (a, m')) :
    TakesFrames d s m.sta m'.sta ∧ freeFrames m'.sta ≠ freeFrames m.sta := by
  rw [Jokerix.allocFrame] at hok
  by_cases hne : (freeFrames m.sta).Nonempty
  · obtain ⟨q, sta, halloc, hleast, hi', _, hfree⟩ := hi.alloc_ok hne
    rw [halloc, Except.ok.injEq, Prod.mk.injEq] at hok
    obtain ⟨_, rfl⟩ := hok
    refine ⟨⟨hi', hfree.trans_subset Set.sdiff_subset⟩, fun heq => ?_⟩
    have hq : q ∈ freeFrames sta := heq ▸ hleast.1
    rw [hfree] at hq
    exact hq.2 rfl
  · rw [hi.alloc_error (Set.not_nonempty_iff_eq_empty.mp hne)] at hok
    cases hok

lemma createTable {entry : ℕ} (hi : FrameInv d s m.sta) (hok : createTable m entry = .ok m') :
    TakesFrames d s m.sta m'.sta := by
  rcases createTable_cases hok with ⟨_, rfl⟩ | ⟨_, a, m₁, halloc, rfl⟩
  · exact .refl hi
  · exact (hi.allocFrame halloc).1

lemma findLevels {entry : ℕ} {levels : List ℕ} (hi : FrameInv d s m.sta)
    (hok : findLevels m entry levels = .ok (a, m')) : TakesFrames d s m.sta m'.sta := by
  induction levels generalizing m entry with
  | nil =>
    obtain ⟨_, rfl⟩ := Prod.mk.inj (Except.ok.inj hok)
    exact .refl hi
  | cons level levels ih =>
    obtain ⟨m₁, hcreate, hok⟩ := findLevels_cases hok
    have h₁ := hi.createTable hcreate
    exact h₁.trans (ih h₁.inv hok)

/-! ### The loop -/

/-- The loop takes frames when what it does for one page does. -/
lemma mapPages {σ : Type*} {install : σ → Machine → ℕ → ℕ → Except Halt (σ × Machine)}
    (hinstall : ∀ st m entry vpn st' m', FrameInv d s m.sta →
      install st m entry vpn = .ok (st', m') → TakesFrames d s m.sta m'.sta)
    {st : σ} {vpn n : ℕ} (hi : FrameInv d s m.sta) (hok : mapPages install r st m vpn n = .ok m') :
    TakesFrames d s m.sta m'.sta := by
  induction n generalizing st m vpn with
  | zero =>
    obtain rfl := Except.ok.inj hok
    exact .refl hi
  | succ n ih =>
    obtain ⟨_, m₁, _, m₂, hfind, _, hfill, hok⟩ := mapPages_cases hok
    have h₁ := hi.findLevels hfind
    have h₂ := hinstall _ _ _ _ _ _ h₁.inv hfill
    exact h₁.trans (h₂.trans (ih h₂.inv hok))

lemma mapLinearSegment {seg : Segment} (hi : FrameInv d s m.sta)
    (hok : mapLinearSegment m r seg = .ok m') : TakesFrames d s m.sta m'.sta := by
  refine hi.mapPages (fun st m entry vpn st' m' hi hfill => ?_) hok
  obtain ⟨_, rfl⟩ := Prod.mk.inj (Except.ok.inj hfill)
  exact .refl hi

lemma mapFramedSegment {seg : Segment} (hi : FrameInv d s m.sta)
    (hok : mapFramedSegment m r seg = .ok m') : TakesFrames d s m.sta m'.sta := by
  refine hi.mapPages (fun st m entry vpn st' m' hi hfill => ?_) hok
  obtain ⟨a, m₁, halloc, rfl⟩ := installFramed_cases hfill
  exact (hi.allocFrame halloc).1

lemma mapFramedAndCopy {seg : Segment} {data length : ℕ} (hi : FrameInv d s m.sta)
    (hok : mapFramedAndCopy m r seg data length = .ok m') : TakesFrames d s m.sta m'.sta := by
  refine hi.mapPages (fun st m entry vpn st' m' hi hfill => ?_) hok
  obtain ⟨a, m₁, halloc, _, rfl⟩ := installCopy_cases hfill
  exact (hi.allocFrame halloc).1

/-! ### Address spaces -/

lemma mapLinearSegments {segs : List Segment} (hi : FrameInv d s m.sta)
    (hok : mapLinearSegments m r segs = .ok m') : TakesFrames d s m.sta m'.sta := by
  induction segs generalizing m with
  | nil =>
    obtain rfl := Except.ok.inj hok
    exact .refl hi
  | cons seg segs ih =>
    rw [Jokerix.mapLinearSegments, List.foldlM_cons] at hok
    obtain ⟨m₁, hseg, hok⟩ := bind_eq_ok hok
    have h₁ := hi.mapLinearSegment hseg
    exact h₁.trans (ih h₁.inv hok)

/-- An address space takes at least the frame of its root. -/
lemma newKernelMapping {L : Layout} (hi : FrameInv d s m.sta)
    (hok : newKernelMapping L m = .ok (r, m')) :
    TakesFrames d s m.sta m'.sta ∧ freeFrames m'.sta ≠ freeFrames m.sta := by
  obtain ⟨m₁, hroot, hmap⟩ := newKernelMapping_cases hok
  obtain ⟨_, halloc, _⟩ := newMapping_cases hroot
  obtain ⟨h₁, hne⟩ := hi.allocFrame halloc
  have h₂ := h₁.inv.mapLinearSegments hmap
  exact ⟨h₁.trans h₂, h₁.trans_ne h₂ hne⟩

lemma mapProgHeaders {elf offset n : ℕ} (hi : FrameInv d s m.sta)
    (hok : mapProgHeaders m r elf offset n = .ok m') : TakesFrames d s m.sta m'.sta := by
  induction n generalizing m offset with
  | zero =>
    obtain rfl := Except.ok.inj hok
    exact .refl hi
  | succ n ih =>
    rw [Jokerix.mapProgHeaders] at hok
    obtain ⟨m₁, hph, hok⟩ := bind_eq_ok hok
    have h₁ : TakesFrames d s m.sta m₁.sta := by
      rw [mapProgHeader] at hph
      split_ifs at hph
      · obtain rfl := Except.ok.inj hph
        exact .refl hi
      · exact hi.mapFramedAndCopy hph
    exact h₁.trans (ih h₁.inv hok)

lemma newUserThreadMapping {L : Layout} {data : ℕ} (hi : FrameInv d s m.sta)
    (hok : newUserThreadMapping L m data = .ok (r, m')) :
    TakesFrames d s m.sta m'.sta ∧ freeFrames m'.sta ≠ freeFrames m.sta := by
  obtain ⟨m₁, huser, hstack⟩ := newUserThreadMapping_cases hok
  obtain ⟨m₂, hkernel, _, hph⟩ := newUserMapping_cases huser
  obtain ⟨h₁, hne⟩ := hi.newKernelMapping hkernel
  have h₂ := h₁.inv.mapProgHeaders hph
  have h₃ := h₂.trans (h₂.inv.mapFramedSegment hstack)
  exact ⟨h₁.trans h₃, h₁.trans_ne h₃ hne⟩

end FrameInv

end

end Jokerix
