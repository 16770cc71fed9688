import Jokerix.Memory.FrameAllocator
import Mathlib.Order.Bounds.Basic
import Mathlib.Data.Set.Insert

/-!
# What the segment tree represents

A node of the segment tree is `0` exactly when a leaf below it is, `FrameInv`. The free frames are
the page numbers of the free leaves; `alloc` takes the least of them and `dealloc` puts one back.
-/

namespace Jokerix

open TreeArray

/-! ### The intended entries -/

open scoped Classical in
/-- The entry of node `p` over the given leaves. -/
noncomputable def frameVal (d : ℕ) (leaf : ℕ → ℕ) (p : ℕ) : ℕ :=
  if ∃ q ∈ leaves d p, leaf q = 0 then 0 else 1

section
variable {d p : ℕ} {leaf leaf' : ℕ → ℕ}

lemma frameVal_eq_zero_iff : frameVal d leaf p = 0 ↔ ∃ q ∈ leaves d p, leaf q = 0 := by
  unfold frameVal
  split_ifs with h <;> simp [h]

lemma frameVal_eq_one_iff : frameVal d leaf p = 1 ↔ ¬ ∃ q ∈ leaves d p, leaf q = 0 := by
  unfold frameVal
  split_ifs with h <;> simp [h]

lemma frameVal_congr (h : ∀ q ∈ leaves d p, leaf q = 0 ↔ leaf' q = 0) :
    frameVal d leaf p = frameVal d leaf' p := by
  have hiff : (∃ q ∈ leaves d p, leaf q = 0) ↔ ∃ q ∈ leaves d p, leaf' q = 0 := by
    constructor
    · rintro ⟨q, hq, h0⟩
      exact ⟨q, hq, (h q hq).mp h0⟩
    · rintro ⟨q, hq, h0⟩
      exact ⟨q, hq, (h q hq).mpr h0⟩
  by_cases hex : ∃ q ∈ leaves d p, leaf q = 0
  · rw [frameVal_eq_zero_iff.mpr hex, frameVal_eq_zero_iff.mpr (hiff.mp hex)]
  · rw [frameVal_eq_one_iff.mpr hex, frameVal_eq_one_iff.mpr (mt hiff.mpr hex)]

/-- An inner entry is the `&` of its children's. -/
lemma frameVal_parent (hp : IsNode d p) {h : ℕ} (hh : height d p = h + 1) :
    frameVal d leaf p = frameVal d leaf (2 * p) &&& frameVal d leaf (2 * p + 1) := by
  have hiff : (∃ q ∈ leaves d p, leaf q = 0) ↔
      (∃ q ∈ leaves d (2 * p), leaf q = 0) ∨ ∃ q ∈ leaves d (2 * p + 1), leaf q = 0 := by
    simp only [leaves_children hp hh]
    constructor
    · rintro ⟨q, hq | hq, h0⟩
      · exact .inl ⟨q, hq, h0⟩
      · exact .inr ⟨q, hq, h0⟩
    · rintro (⟨q, hq, h0⟩ | ⟨q, hq, h0⟩)
      · exact ⟨q, .inl hq, h0⟩
      · exact ⟨q, .inr hq, h0⟩
  by_cases hl : ∃ q ∈ leaves d (2 * p), leaf q = 0
  · rw [frameVal_eq_zero_iff.mpr hl, frameVal_eq_zero_iff.mpr (hiff.mpr (.inl hl)), Nat.zero_and]
  · by_cases hr : ∃ q ∈ leaves d (2 * p + 1), leaf q = 0
    · rw [frameVal_eq_zero_iff.mpr hr, frameVal_eq_zero_iff.mpr (hiff.mpr (.inr hr)), Nat.and_zero]
    · have hno : ¬ ∃ q ∈ leaves d p, leaf q = 0 := by
        rw [hiff]
        exact not_or.mpr ⟨hl, hr⟩
      rw [frameVal_eq_one_iff.mpr hl, frameVal_eq_one_iff.mpr hr, frameVal_eq_one_iff.mpr hno]
      rfl

end

/-- The invariant of the segment tree: `2 ^ d` leaves in an array that has room for them, every
entry the intended one, and no free leaf outside those of the managed frames. -/
structure FrameInv (d startPpn : ℕ) (t : FrameTree) : Prop where
  single : t.firstSingle = 2 ^ d
  room : 2 * 2 ^ d ≤ staNodes
  start : t.startPpn = (startPpn + 2 ^ 64 - 1) % 2 ^ 64
  range : startPpn + t.length < 2 ^ 64
  entry : ∀ p, IsNode d p → t.node p = frameVal d t.node p
  free : ∀ i < 2 ^ d, t.node (2 ^ d + i) = 0 → 1 ≤ i ∧ i < t.length

/-- The page number of a leaf. -/
def leafPpn (t : FrameTree) (q : ℕ) : ℕ := (q - t.firstSingle + t.startPpn) % 2 ^ 64

/-- The frames whose leaves are marked free. -/
def freeFrames (t : FrameTree) : Set ℕ :=
  {ppn | ∃ i < t.firstSingle, t.node (t.firstSingle + i) = 0 ∧
    ppn = leafPpn t (t.firstSingle + i)}

section
variable {d s : ℕ} {t : FrameTree}

lemma isLeaf {i : ℕ} (hi : i < 2 ^ d) : IsNode d (2 ^ d + i) ∧ height d (2 ^ d + i) = 0 := by
  have hpow : 2 ^ (d + 1) = 2 * 2 ^ d := pow_succ' 2 d
  have hpos := Nat.two_pow_pos d
  have hnode : IsNode d (2 ^ d + i) := ⟨by omega, by omega⟩
  exact ⟨hnode, (height_eq_zero_iff hnode).mpr (by omega)⟩

lemma FrameInv.leafPpn_eq (hi : FrameInv d s t) {i : ℕ} (h1 : 1 ≤ i) (h2 : i < t.length) :
    leafPpn t (2 ^ d + i) = s + i - 1 := by
  have hr := hi.range
  rw [leafPpn, hi.single, hi.start, Nat.add_sub_cancel_left]
  omega

/-- The free frames in terms of the managed range. -/
lemma FrameInv.mem_freeFrames (hi : FrameInv d s t) {ppn : ℕ} :
    ppn ∈ freeFrames t ↔ ∃ i < 2 ^ d, t.node (2 ^ d + i) = 0 ∧ ppn = s + i - 1 := by
  simp only [freeFrames, Set.mem_ofPred_eq, hi.single]
  constructor
  · rintro ⟨i, hlt, h0, rfl⟩
    obtain ⟨h1, h2⟩ := hi.free i hlt h0
    exact ⟨i, hlt, h0, hi.leafPpn_eq h1 h2⟩
  · rintro ⟨i, hlt, h0, rfl⟩
    obtain ⟨h1, h2⟩ := hi.free i hlt h0
    exact ⟨i, hlt, h0, (hi.leafPpn_eq h1 h2).symm⟩

lemma FrameInv.node_zero_or_one (hi : FrameInv d s t) {p : ℕ} (hp : IsNode d p) :
    t.node p = 0 ∨ t.node p = 1 := by
  rw [hi.entry p hp, frameVal]
  split_ifs
  · exact .inl rfl
  · exact .inr rfl

/-! ### The upward pass -/

lemma refreshNodes_spec {val : ℕ → ℕ} (fuel p : ℕ) (node : ℕ → ℕ) (hp : IsNode d p)
    (hagree : AgreesOff node val d p)
    (hval : ∀ q, IsNode d q → StrictlyAbove q p → val q = val (2 * q) &&& val (2 * q + 1))
    (hfuel : p / 2 ≤ fuel) {q : ℕ} (hq : IsNode d q) :
    refreshNodes node fuel (p / 2) q = val q := by
  induction fuel generalizing p node with
  | zero =>
    have := hp.1
    obtain rfl : p = 1 := by omega
    exact hagree.root hq
  | succ fuel ih =>
    by_cases h1 : p = 1
    · subst h1
      rw [refreshNodes, if_pos (by norm_num)]
      exact hagree.root hq
    · obtain ⟨hpar, _⟩ := hp.parent h1
      have hself : StrictlyAbove (p / 2) p := (strictlyAbove_iff _ _).mpr (Above.refl _)
      have hpos := hpar.1
      rw [refreshNodes, if_neg (by omega)]
      apply ih (p / 2) _ hpar
      · exact hagree.step (f := fun _ l r => l &&& r) hp h1 (hval _ hpar hself)
      · intro r hr hab
        exact hval r hr (hab.trans_above hself.above)
      · omega

/-- Changing one leaf and recomputing its ancestors keeps the invariant, whatever the leaf is set
to, as long as only leaves of managed frames become free. -/
lemma FrameInv.setLeaf (hi : FrameInv d s t) {i v : ℕ} (hlt : i < 2 ^ d) (hv : v = 0 ∨ v = 1)
    (hfree : v = 0 → 1 ≤ i ∧ i < t.length) :
    let node := Function.update t.node (2 ^ d + i) v
    let t' : FrameTree := { t with node := refreshNodes node (2 ^ d + i) ((2 ^ d + i) / 2) }
    FrameInv d s t' ∧
      ∀ j < 2 ^ d, t'.node (2 ^ d + j) = if j = i then v else t.node (2 ^ d + j) := by
  intro node t'
  obtain ⟨hleaf, hzero⟩ := isLeaf hlt
  have hagree : AgreesOff node (frameVal d node) d (2 ^ d + i) := by
    intro q hq hnot
    by_cases hqi : q = 2 ^ d + i
    · subst hqi
      have hself : node (2 ^ d + i) = v := Function.update_self _ _ _
      have hex : (∃ q ∈ leaves d (2 ^ d + i), node q = 0) ↔ v = 0 := by
        simp only [leaves_of_height_zero hzero, exists_eq_left, hself]
      rcases hv with h0 | h1
      · rw [hself, frameVal_eq_zero_iff.mpr (hex.mpr h0), h0]
      · rw [hself, frameVal_eq_one_iff.mpr (by rw [hex]; omega), h1]
    · have hother : node q = t.node q := Function.update_of_ne hqi _ _
      rw [hother, hi.entry q hq]
      apply frameVal_congr
      intro r hr
      have hne : r ≠ 2 ^ d + i := by
        rintro rfl
        rcases (above_iff_eq_or q _).mp (above_of_mem_leaves hr) with h | h
        · exact hqi h
        · exact hnot h
      rw [show node r = t.node r from Function.update_of_ne hne _ _]
  have hall : ∀ q, IsNode d q → t'.node q = frameVal d node q := by
    intro q hq
    apply refreshNodes_spec _ _ _ hleaf hagree _ (Nat.div_le_self _ _) hq
    intro r hr hab
    obtain ⟨h, hh⟩ := hleaf.height_of_strictlyAbove hr hab
    exact frameVal_parent hr hh
  have hleaves : ∀ j < 2 ^ d,
      t'.node (2 ^ d + j) = if j = i then v else t.node (2 ^ d + j) := by
    intro j hj
    obtain ⟨hjl, hjz⟩ := isLeaf hj
    have hnot : ¬ StrictlyAbove (2 ^ d + j) (2 ^ d + i) := by
      intro hab
      obtain ⟨h, hh⟩ := hleaf.height_of_strictlyAbove hjl hab
      omega
    rw [hall _ hjl, ← hagree _ hjl hnot]
    simp only [node, Function.update_apply]
    by_cases hji : j = i
    · rw [if_pos (by omega), if_pos hji]
    · rw [if_neg (by omega), if_neg hji]
  refine ⟨⟨hi.single, hi.room, hi.start, hi.range, ?_, ?_⟩, hleaves⟩
  · intro q hq
    rw [hall q hq]
    apply frameVal_congr
    intro r hr
    -- the leaves of the new tree are those of `node`
    obtain ⟨hr1, hr2⟩ : 2 ^ d ≤ r ∧ r < 2 ^ (d + 1) :=
      ⟨hq.bounds.1.trans hr.1, lt_of_lt_of_le hr.2 hq.bounds.2⟩
    have hpow : 2 ^ (d + 1) = 2 * 2 ^ d := pow_succ' 2 d
    obtain ⟨j, rfl⟩ : ∃ j, r = 2 ^ d + j := ⟨r - 2 ^ d, by omega⟩
    rw [hleaves j (by omega)]
    simp only [node, Function.update_apply]
    by_cases hji : j = i
    · rw [if_pos (by omega), if_pos hji]
    · rw [if_neg (by omega), if_neg hji]
  · intro j hj h0
    rw [hleaves j hj] at h0
    by_cases hji : j = i
    · subst hji
      rw [if_pos rfl] at h0
      exact hfree h0
    · rw [if_neg hji] at h0
      exact hi.free j hj h0

/-! ### The descent -/

/-- From a node above the first free leaf the descent ends at that leaf. -/
lemma FrameInv.allocDescend_eq (hi : FrameInv d s t) {m : ℕ} (hm : t.node m = 0)
    (hleast : ∀ q ∈ leaves d 1, t.node q = 0 → m ≤ q) (fuel p : ℕ) (hp : IsNode d p)
    (hmp : m ∈ leaves d p) (hfuel : 2 ^ d < fuel + p) : allocDescend t fuel p = m := by
  have hroot : ∀ q, IsNode d q → ∀ r ∈ leaves d q, r ∈ leaves d 1 := by
    intro q hq r hr
    exact mem_leaves_root.mpr ⟨hq.bounds.1.trans hr.1, lt_of_lt_of_le hr.2 hq.bounds.2⟩
  have hstop : ∀ p, IsNode d p → m ∈ leaves d p → 2 ^ d ≤ p → p = m := by
    intro p hp hmp hle
    exact ((leaves_of_height_zero ((height_eq_zero_iff hp).mpr hle)).mp hmp).symm
  induction fuel generalizing p with
  | zero => exact hstop p hp hmp (by omega)
  | succ fuel ih =>
    rw [allocDescend, hi.single]
    split_ifs with hlt hl
    · obtain ⟨h, hh⟩ : ∃ h, height d p = h + 1 := by
        have hne : height d p ≠ 0 := by
          rw [ne_eq, height_eq_zero_iff hp]
          omega
        exact ⟨height d p - 1, by omega⟩
      obtain ⟨hln, _⟩ := hp.left hh
      have hp1 := hp.1
      apply ih (2 * p) hln _ (by omega)
      -- the left half has a free leaf, so the first free leaf is there
      rw [hi.entry _ hln, frameVal_eq_zero_iff] at hl
      obtain ⟨q, hq, hq0⟩ := hl
      rcases (leaves_children hp hh).mp hmp with hm' | hm'
      · exact hm'
      · have h1 := leaves_left_lt_right hp hh hq hm'
        have h2 := hleast q (hroot _ hln q hq) hq0
        omega
    · obtain ⟨h, hh⟩ : ∃ h, height d p = h + 1 := by
        have hne : height d p ≠ 0 := by
          rw [ne_eq, height_eq_zero_iff hp]
          omega
        exact ⟨height d p - 1, by omega⟩
      obtain ⟨hln, _⟩ := hp.left hh
      obtain ⟨hrn, _⟩ := hp.right hh
      have hp1 := hp.1
      apply ih (2 * p + 1) hrn _ (by omega)
      rcases (leaves_children hp hh).mp hmp with hm' | hm'
      · exact absurd (hi.entry _ hln ▸ frameVal_eq_zero_iff.mpr ⟨m, hm', hm⟩) hl
      · exact hm'
    · exact hstop p hp hmp (by omega)

/-! ### What the operations do -/

/-- The depletion panic is reached exactly when no frame is free. -/
lemma FrameInv.node_one_eq_one_iff (hi : FrameInv d s t) :
    t.node 1 = 1 ↔ freeFrames t = ∅ := by
  have hone : IsNode d 1 := ⟨le_refl 1, Nat.one_lt_two_pow (by omega)⟩
  have hpow : 2 ^ (d + 1) = 2 * 2 ^ d := pow_succ' 2 d
  rw [hi.entry 1 hone, frameVal_eq_one_iff, Set.eq_empty_iff_forall_notMem]
  constructor
  · rintro hno ppn hmem
    obtain ⟨i, hlt, h0, _⟩ := hi.mem_freeFrames.mp hmem
    exact hno ⟨2 ^ d + i, mem_leaves_root.mpr ⟨by omega, by omega⟩, h0⟩
  · rintro hno ⟨q, hq, h0⟩
    obtain ⟨h1, h2⟩ := mem_leaves_root.mp hq
    obtain ⟨i, rfl⟩ : ∃ i, q = 2 ^ d + i := ⟨q - 2 ^ d, by omega⟩
    exact hno _ (hi.mem_freeFrames.mpr ⟨i, by omega, h0, rfl⟩)

lemma FrameInv.alloc_error (hi : FrameInv d s t) (hempty : freeFrames t = ∅) :
    alloc t = .error (.panic "Physical memory depleted!\n") := by
  rw [alloc, if_pos (hi.node_one_eq_one_iff.mpr hempty)]

/-- `alloc` returns the least free frame and removes exactly it. -/
theorem FrameInv.alloc_ok (hi : FrameInv d s t) (hne : (freeFrames t).Nonempty) :
    ∃ ppn t', alloc t = .ok (ppn, t') ∧ IsLeast (freeFrames t) ppn ∧ FrameInv d s t' ∧
      t'.length = t.length ∧ freeFrames t' = freeFrames t \ {ppn} := by
  have hpow : 2 ^ (d + 1) = 2 * 2 ^ d := pow_succ' 2 d
  -- the first free leaf
  have hex : ∃ i, i < 2 ^ d ∧ t.node (2 ^ d + i) = 0 := by
    obtain ⟨ppn, hmem⟩ := hne
    obtain ⟨i, hlt, h0, _⟩ := hi.mem_freeFrames.mp hmem
    exact ⟨i, hlt, h0⟩
  obtain ⟨i, ⟨hlt, h0⟩, hmin⟩ : ∃ i, (i < 2 ^ d ∧ t.node (2 ^ d + i) = 0) ∧
      ∀ j, j < 2 ^ d → t.node (2 ^ d + j) = 0 → i ≤ j := by
    classical
    exact ⟨Nat.find hex, Nat.find_spec hex, fun j hj hj0 => Nat.find_min' hex ⟨hj, hj0⟩⟩
  obtain ⟨hi1, hi2⟩ := hi.free i hlt h0
  have hone : IsNode d 1 := ⟨le_refl 1, Nat.one_lt_two_pow (by omega)⟩
  have hdesc : allocDescend t t.firstSingle 1 = 2 ^ d + i := by
    apply hi.allocDescend_eq h0 _ _ _ hone
    · exact mem_leaves_root.mpr ⟨by omega, by omega⟩
    · rw [hi.single]
      omega
    · intro q hq hq0
      obtain ⟨h1, h2⟩ := mem_leaves_root.mp hq
      obtain ⟨j, rfl⟩ : ∃ j, q = 2 ^ d + j := ⟨q - 2 ^ d, by omega⟩
      have := hmin j (by omega) hq0
      omega
  obtain ⟨hi', hleaves⟩ := hi.setLeaf (v := 1) hlt (.inr rfl) (by omega)
  have hfull : ¬ t.node 1 = 1 := by
    rw [hi.node_one_eq_one_iff]
    exact hne.ne_empty
  refine ⟨s + i - 1, _, ?_, ⟨?_, ?_⟩, hi', rfl, ?_⟩
  · rw [alloc, if_neg hfull, hdesc]
    simp only [Except.ok.injEq, Prod.mk.injEq, and_true]
    exact hi.leafPpn_eq hi1 hi2
  · exact hi.mem_freeFrames.mpr ⟨i, hlt, h0, rfl⟩
  · intro ppn hmem
    obtain ⟨j, hj, hj0, rfl⟩ := hi.mem_freeFrames.mp hmem
    have := hmin j hj hj0
    omega
  · ext ppn
    rw [hi'.mem_freeFrames, Set.mem_sdiff, hi.mem_freeFrames, Set.mem_singleton_iff]
    constructor
    · rintro ⟨j, hj, hj0, rfl⟩
      rw [hleaves j hj] at hj0
      split_ifs at hj0 with hji
      have := hi.free j hj hj0
      exact ⟨⟨j, hj, hj0, rfl⟩, by omega⟩
    · rintro ⟨⟨j, hj, hj0, rfl⟩, hne'⟩
      refine ⟨j, hj, ?_, rfl⟩
      rw [hleaves j hj, if_neg (by rintro rfl; exact hne' rfl)]
      exact hj0

/-- The leaf that `dealloc` computes for a managed frame. -/
lemma FrameInv.dealloc_index (hi : FrameInv d s t) {i : ℕ} (h1 : 1 ≤ i) (hlt : i < 2 ^ d) :
    (s + i - 1 + 2 ^ 64 - t.startPpn + t.firstSingle) % 2 ^ 64 = 2 ^ d + i ∧
      2 ^ d + i < staNodes := by
  have hr := hi.range
  have hroom := hi.room
  have hnodes : staNodes = 65536 := rfl
  rw [hi.start, hi.single]
  omega

/-- `dealloc` of a free frame changes nothing. -/
lemma FrameInv.dealloc_free (hi : FrameInv d s t) {ppn : ℕ} (hmem : ppn ∈ freeFrames t) :
    dealloc t ppn = .ok t := by
  obtain ⟨i, hlt, h0, rfl⟩ := hi.mem_freeFrames.mp hmem
  obtain ⟨h1, h2⟩ := hi.free i hlt h0
  obtain ⟨hidx, hbound⟩ := hi.dealloc_index h1 hlt
  simp only [dealloc, hidx]
  rw [if_neg (by omega), if_pos (by omega)]

/-- `dealloc` of an allocated managed frame makes exactly it free. -/
theorem FrameInv.dealloc_ok (hi : FrameInv d s t) {ppn : ℕ} (hnot : ppn ∉ freeFrames t)
    {i : ℕ} (h1 : 1 ≤ i) (h2 : i < t.length) (hlt : i < 2 ^ d) (hppn : ppn = s + i - 1) :
    ∃ t', dealloc t ppn = .ok t' ∧ FrameInv d s t' ∧ t'.length = t.length ∧
      freeFrames t' = insert ppn (freeFrames t) := by
  obtain ⟨hleaf, _⟩ := isLeaf hlt
  obtain ⟨hidx, hbound⟩ := hi.dealloc_index h1 hlt
  have hone : t.node (2 ^ d + i) = 1 := by
    rcases hi.node_zero_or_one hleaf with h | h
    · exact absurd (hi.mem_freeFrames.mpr ⟨i, hlt, h, hppn⟩) hnot
    · exact h
  obtain ⟨hi', hleaves⟩ := hi.setLeaf (v := 0) hlt (.inl rfl) (fun _ => ⟨h1, h2⟩)
  refine ⟨_, ?_, hi', rfl, ?_⟩
  · subst hppn
    simp only [dealloc, hidx]
    rw [if_neg (by omega), if_neg (by omega)]
  · ext r
    rw [hi'.mem_freeFrames, Set.mem_insert_iff, hi.mem_freeFrames]
    constructor
    · rintro ⟨j, hj, hj0, rfl⟩
      rw [hleaves j hj] at hj0
      by_cases hji : j = i
      · subst hji
        exact .inl hppn.symm
      · rw [if_neg hji] at hj0
        exact .inr ⟨j, hj, hj0, rfl⟩
    · rintro (rfl | ⟨j, hj, hj0, rfl⟩)
      · exact ⟨i, hlt, by rw [hleaves i hlt, if_pos rfl], hppn⟩
      · refine ⟨j, hj, ?_, rfl⟩
        rw [hleaves j hj, hj0, ite_self]

end

end Jokerix
