import Jokerix.Memory.FrameRuns

/-!
# How many frames can be allocated

The number of `alloc` calls that succeed after `newAllocator`. The loop that marks leaves as free
stops one short of the length of the range, so its last frame is never handed out.
-/

namespace Jokerix

/-- `n` calls of `alloc`: the frames they return, in order, and the tree after them. -/
def allocs (sta : FrameTree) : ℕ → Except Halt (List ℕ × FrameTree)
  | 0 => .ok ([], sta)
  | n + 1 => do
    let (ppn, sta) ← alloc sta
    let (ppns, sta) ← allocs sta n
    .ok (ppn :: ppns, sta)

/-- Exactly `endPpn - startPpn` calls of `alloc` succeed, and they return every frame of the range
once. -/
def AllUsable (sta : FrameTree) (startPpn endPpn : ℕ) : Prop :=
  ∃ ppns t, allocs sta (endPpn - startPpn) = .ok (ppns, t) ∧ ppns.Nodup ∧
    (∀ ppn, ppn ∈ ppns ↔ startPpn ≤ ppn ∧ ppn < endPpn) ∧
    alloc t = .error (.panic "Physical memory depleted!\n")

/-- Calls that return all but the last frame leave that one to the next call. -/
lemma allocs_ok {d s a n : ℕ} {t : FrameTree} (hi : FrameInv d s t)
    (hfree : freeFrames t = Set.Ico a (a + n)) :
    ∃ t', allocs t n = .ok (List.range' a n, t') ∧ FrameInv d s t' ∧ freeFrames t' = ∅ := by
  induction n generalizing a t with
  | zero =>
    refine ⟨t, rfl, hi, ?_⟩
    rw [hfree, Nat.add_zero, Set.Ico_self]
  | succ n ih =>
    have hleast : IsLeast (freeFrames t) a := by
      rw [hfree]
      exact isLeast_Ico (by omega)
    obtain ⟨ppn, t₁, hok, hppn, hi₁, _, hfree₁⟩ := hi.alloc_ok ⟨a, hleast.1⟩
    obtain rfl := hppn.unique hleast
    obtain ⟨t', hoks, hi', hempty⟩ := ih (a := ppn + 1) hi₁ (by
      ext r
      rw [hfree₁, hfree]
      simp only [Set.mem_sdiff, Set.mem_Ico, Set.mem_singleton_iff]
      omega)
    refine ⟨t', ?_, hi', hempty⟩
    rw [allocs, bind_ok hok]
    simp only
    rw [bind_ok hoks]
    rfl

/-- A sequence of calls returns at the first one that panics. -/
lemma allocs_error {t t' : FrameTree} {n : ℕ} {ppns : List ℕ} {e : Halt}
    (hok : allocs t n = .ok (ppns, t')) (herr : alloc t' = .error e) (m : ℕ) :
    allocs t (n + m + 1) = .error e := by
  induction n generalizing t ppns with
  | zero =>
    cases hok
    rw [Nat.zero_add, allocs, herr]
    rfl
  | succ n ih =>
    rw [allocs] at hok
    obtain ⟨⟨ppn, t₁⟩, h1, hok⟩ := bind_eq_ok hok
    obtain ⟨⟨rest, t₂⟩, h2, hok⟩ := bind_eq_ok hok
    cases hok
    rw [show n + 1 + m + 1 = n + m + 1 + 1 by omega, allocs, bind_ok h1]
    simp only
    rw [ih h2]
    rfl

section
variable {sta t : FrameTree} {s e : ℕ}

/-- After `newAllocator` all frames of the range but the last are returned in order. -/
lemma allocs_newAllocator (hlt : s < e) (he : e < 2 ^ 64) (hok : newAllocator sta s e = .ok t) :
    ∃ t', allocs t (e - s - 1) = .ok (List.range' s (e - s - 1), t') ∧
      alloc t' = .error (.panic "Physical memory depleted!\n") := by
  obtain ⟨d, hi, hfree⟩ := newAllocator_spec hlt.le he hok
  obtain ⟨t', hoks, hi', hempty⟩ := allocs_ok (a := s) (n := e - s - 1) hi (by
    rw [hfree]
    congr 1
    omega)
  exact ⟨t', hoks, hi'.alloc_error hempty⟩

lemma not_allUsable (hlt : s < e) (he : e < 2 ^ 64) (hok : newAllocator sta s e = .ok t) :
    ¬ AllUsable t s e := by
  rintro ⟨ppns, t₁, hall, _⟩
  obtain ⟨t', hoks, herr⟩ := allocs_newAllocator hlt he hok
  have hlast := allocs_error hoks herr 0
  rw [show e - s - 1 + 0 + 1 = e - s by omega, hall] at hlast
  cases hlast

end

/-- For no range are all frames usable: exactly one call fewer than there are frames succeeds, and
the last frame of the range is not returned. -/
theorem frames_never_all_usable (sta t : FrameTree) (s e : ℕ) (hlt : s < e) (he : e < 2 ^ 64)
    (hok : newAllocator sta s e = .ok t) :
    ¬ AllUsable t s e ∧
      ∃ t', allocs t (e - s - 1) = .ok (List.range' s (e - s - 1), t') ∧
        alloc t' = .error (.panic "Physical memory depleted!\n") :=
  ⟨not_allUsable hlt he hok, allocs_newAllocator hlt he hok⟩

/-- A range of three frames gives two. -/
theorem frames_never_all_usable_three : ∃ t t',
    newAllocator ⟨fun _ => 0, 0, 0, 0⟩ 0x87ffd 0x88000 = .ok t ∧
      allocs t 2 = .ok ([0x87ffd, 0x87ffe], t') ∧
      alloc t' = .error (.panic "Physical memory depleted!\n") := by
  obtain ⟨t, hok⟩ := (newAllocator_ok_iff ⟨fun _ => 0, 0, 0, 0⟩
    (by decide : 0x87ffd ≤ 0x88000) (by decide)).mpr (by decide)
  obtain ⟨_, t', hoks, herr⟩ := frames_never_all_usable _ t _ _ (by decide) (by decide) hok
  exact ⟨t, t', hok, hoks, herr⟩

/-- Of a range of one frame the first `alloc` panics. -/
theorem single_frame_not_usable : ∃ t,
    newAllocator ⟨fun _ => 0, 0, 0, 0⟩ 0x87fff 0x88000 = .ok t ∧
      alloc t = .error (.panic "Physical memory depleted!\n") ∧ ¬ AllUsable t 0x87fff 0x88000 := by
  obtain ⟨t, hok⟩ := (newAllocator_ok_iff ⟨fun _ => 0, 0, 0, 0⟩
    (by decide : 0x87fff ≤ 0x88000) (by decide)).mpr (by decide)
  have hlt : 0x87fff < 0x88000 := by decide
  obtain ⟨t', hoks, herr⟩ := allocs_newAllocator hlt (by decide) hok
  obtain rfl : t = t' := congrArg Prod.snd (Except.ok.inj hoks)
  exact ⟨t, hok, herr, not_allUsable hlt (by decide) hok⟩

end Jokerix
