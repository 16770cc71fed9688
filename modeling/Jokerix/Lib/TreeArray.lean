import Mathlib.Data.Nat.Log
import Mathlib.Logic.Function.Basic
import Mathlib.Algebra.Group.Nat.Even
import Mathlib.Data.Finset.Basic
import Mathlib.Data.Set.BooleanAlgebra
import Mathlib.Order.CompletePartialOrder
import Mathlib.Order.Interval.Set.Basic
import Mathlib.Tactic.Ring

/-!
# Complete binary trees stored in arrays

The root has position `1` and the children of position `p` are `2 * p` and `2 * p + 1`, so the
parent of `p` is `p / 2` and the ancestors of `p` are its quotients by powers of two. The file
has the ancestor order, the interval of leaves below a node, and the rule for the loop that
recomputes the ancestors of one changed node from the bottom up.
-/

namespace TreeArray

variable {α : Type*}

/-! ### The ancestor order -/

/-- `a` is `p` or one of its ancestors. -/
def Above (a p : ℕ) : Prop := ∃ j, p / 2 ^ j = a

/-- `a` is a proper ancestor of `p`. -/
def StrictlyAbove (a p : ℕ) : Prop := ∃ j, p / 2 ^ (j + 1) = a

lemma Above.refl (p : ℕ) : Above p p := ⟨0, by simp⟩

lemma Above.trans {a b c : ℕ} (hab : Above a b) (hbc : Above b c) : Above a c := by
  obtain ⟨i, rfl⟩ := hab
  obtain ⟨j, rfl⟩ := hbc
  exact ⟨j + i, by rw [pow_add, Nat.div_div_eq_div_mul]⟩

lemma Above.le {a p : ℕ} (h : Above a p) : a ≤ p := by
  obtain ⟨j, rfl⟩ := h
  exact Nat.div_le_self _ _

lemma StrictlyAbove.above {a p : ℕ} (h : StrictlyAbove a p) : Above a p := by
  obtain ⟨j, hj⟩ := h
  exact ⟨j + 1, hj⟩

/-- The proper ancestors of a node are its parent and the ancestors of its parent. -/
lemma strictlyAbove_iff (a p : ℕ) : StrictlyAbove a p ↔ Above a (p / 2) := by
  constructor
  · rintro ⟨j, rfl⟩
    exact ⟨j, by rw [pow_succ', Nat.div_div_eq_div_mul]⟩
  · rintro ⟨j, rfl⟩
    exact ⟨j, by rw [pow_succ', Nat.div_div_eq_div_mul]⟩

lemma StrictlyAbove.lt {a p : ℕ} (h : StrictlyAbove a p) (ha : 0 < a) : a < p := by
  have hle := ((strictlyAbove_iff a p).mp h).le
  omega

lemma above_iff_eq_or (a p : ℕ) : Above a p ↔ a = p ∨ StrictlyAbove a p := by
  constructor
  · rintro ⟨j, rfl⟩
    cases j with
    | zero => left; simp
    | succ j => right; exact ⟨j, rfl⟩
  · rintro (rfl | h)
    · exact Above.refl _
    · exact h.above

lemma StrictlyAbove.trans_above {a b c : ℕ} (hab : StrictlyAbove a b) (hbc : Above b c) :
    StrictlyAbove a c := by
  obtain ⟨i, rfl⟩ := hab
  obtain ⟨j, rfl⟩ := hbc
  exact ⟨j + i, by rw [show j + i + 1 = j + (i + 1) by ring, pow_add, Nat.div_div_eq_div_mul]⟩

lemma strictlyAbove_left (a p : ℕ) : StrictlyAbove a (2 * p) ↔ Above a p := by
  rw [strictlyAbove_iff, Nat.mul_div_cancel_left p two_pos]

lemma strictlyAbove_right (a p : ℕ) : StrictlyAbove a (2 * p + 1) ↔ Above a p := by
  rw [strictlyAbove_iff, show (2 * p + 1) / 2 = p by omega]

/-- The root is above every position. -/
lemma above_one {p : ℕ} (hp : 1 ≤ p) : Above 1 p := by
  refine ⟨Nat.log 2 p, ?_⟩
  have hlow := Nat.pow_log_le_self 2 (by omega : p ≠ 0)
  have hhigh := Nat.lt_pow_succ_log_self (by omega : 1 < 2) p
  rw [pow_succ] at hhigh
  exact Nat.div_eq_of_lt_le (by omega) (by omega)

/-- Two ancestors of one node are comparable. -/
lemma Above.comparable {a b p : ℕ} (ha : Above a p) (hb : Above b p) : Above a b ∨ Above b a := by
  obtain ⟨i, rfl⟩ := ha
  obtain ⟨j, rfl⟩ := hb
  rcases Nat.le_total i j with h | h
  · right
    exact ⟨j - i, by rw [Nat.div_div_eq_div_mul, ← pow_add, Nat.add_sub_cancel' h]⟩
  · left
    exact ⟨i - j, by rw [Nat.div_div_eq_div_mul, ← pow_add, Nat.add_sub_cancel' h]⟩

/-! ### Heights and the leaves below a node

In a tree with `2 ^ d` leaves the positions run from `1` to `2 ^ (d + 1) - 1`, the leaves are the
positions from `2 ^ d` on, and a node `p` of height `h` covers the leaves in
`[p * 2 ^ h, (p + 1) * 2 ^ h)`.
-/

/-- The height of a node over the leaves of a tree of depth `d`. -/
def height (d p : ℕ) : ℕ := d - Nat.log 2 p

/-- A position of the tree of depth `d`. -/
def IsNode (d p : ℕ) : Prop := 1 ≤ p ∧ p < 2 ^ (d + 1)

lemma IsNode.log_le {d p : ℕ} (hp : IsNode d p) : Nat.log 2 p ≤ d := by
  have h := Nat.log_lt_of_lt_pow (by have := hp.1; omega) hp.2
  omega

@[simp] lemma height_one (d : ℕ) : height d 1 = d := by simp [height]

lemma log_two_mul {p : ℕ} (hp : 1 ≤ p) : Nat.log 2 (2 * p) = Nat.log 2 p + 1 := by
  rw [Nat.mul_comm, Nat.log_mul_base (by norm_num) (by omega)]

lemma log_two_mul_add_one {p : ℕ} (hp : 1 ≤ p) : Nat.log 2 (2 * p + 1) = Nat.log 2 p + 1 := by
  have h := Nat.log_div_base 2 (2 * p + 1)
  rw [show (2 * p + 1) / 2 = p by omega] at h
  have hpos : 0 < Nat.log 2 (2 * p + 1) := Nat.log_pos (by norm_num) (by omega)
  omega

/-- A node of positive height has its children in the tree, one level lower. -/
lemma IsNode.left {d p h : ℕ} (hp : IsNode d p) (hh : height d p = h + 1) :
    IsNode d (2 * p) ∧ height d (2 * p) = h := by
  have hlog := log_two_mul hp.1
  have hle := hp.log_le
  simp only [height] at hh ⊢
  refine ⟨⟨by have := hp.1; omega, ?_⟩, by omega⟩
  exact (Nat.log_lt_iff_lt_pow (by norm_num) (by have := hp.1; omega)).mp (by omega)

lemma IsNode.right {d p h : ℕ} (hp : IsNode d p) (hh : height d p = h + 1) :
    IsNode d (2 * p + 1) ∧ height d (2 * p + 1) = h := by
  have hlog := log_two_mul_add_one hp.1
  have hle := hp.log_le
  simp only [height] at hh ⊢
  refine ⟨⟨by omega, ?_⟩, by omega⟩
  exact (Nat.log_lt_iff_lt_pow (by norm_num) (by omega)).mp (by omega)

/-- Every node but the root has its parent in the tree, one level higher. -/
lemma IsNode.parent {d p : ℕ} (hp : IsNode d p) (hne : p ≠ 1) :
    IsNode d (p / 2) ∧ height d (p / 2) = height d p + 1 := by
  have h1 := hp.1
  have h2 := hp.2
  have hlog := Nat.log_div_base 2 p
  have hpos : 0 < Nat.log 2 p := Nat.log_pos (by norm_num) (by omega)
  have hle := hp.log_le
  exact ⟨⟨by omega, by omega⟩, by simp only [height]; omega⟩

lemma IsNode.above {d p a : ℕ} (hp : IsNode d p) (ha : Above a p) (hpos : 1 ≤ a) : IsNode d a :=
  ⟨hpos, lt_of_le_of_lt ha.le hp.2⟩

/-- A node at position `p` and height `h` lies between the two powers of its level. -/
lemma IsNode.bounds {d p : ℕ} (hp : IsNode d p) :
    2 ^ d ≤ p * 2 ^ height d p ∧ (p + 1) * 2 ^ height d p ≤ 2 ^ (d + 1) := by
  have hle := hp.log_le
  have hlow : 2 ^ Nat.log 2 p ≤ p := Nat.pow_log_le_self 2 (by have := hp.1; omega)
  have hhigh : p + 1 ≤ 2 ^ (Nat.log 2 p + 1) := Nat.lt_pow_succ_log_self (by norm_num) p
  have hd : d = Nat.log 2 p + height d p := by simp only [height]; omega
  constructor
  · calc 2 ^ d = 2 ^ Nat.log 2 p * 2 ^ height d p := by rw [← pow_add, ← hd]
      _ ≤ p * 2 ^ height d p := Nat.mul_le_mul_right _ hlow
  · calc (p + 1) * 2 ^ height d p
        ≤ 2 ^ (Nat.log 2 p + 1) * 2 ^ height d p := Nat.mul_le_mul_right _ hhigh
      _ = 2 ^ (d + 1) := by
        rw [← pow_add]; congr 1; omega

/-- `a` lies in the subtree of height `h` at `p`. -/
def Under (h p a : ℕ) : Prop := ∃ j ≤ h, a / 2 ^ j = p

lemma Under.above {h p a : ℕ} (hu : Under h p a) : Above p a := by
  obtain ⟨j, _, hj⟩ := hu
  exact ⟨j, hj⟩

lemma Under.refl (h p : ℕ) : Under h p p := ⟨0, by omega, by simp⟩

lemma under_zero (p a : ℕ) : Under 0 p a ↔ a = p := by
  constructor
  · rintro ⟨j, hj, h⟩
    obtain rfl : j = 0 := by omega
    simpa using h
  · rintro rfl
    exact Under.refl _ _

/-- A subtree is its root together with the subtrees of the two children. -/
lemma under_succ (h p a : ℕ) :
    Under (h + 1) p a ↔ a = p ∨ Under h (2 * p) a ∨ Under h (2 * p + 1) a := by
  constructor
  · rintro ⟨j, hj, hdiv⟩
    cases j with
    | zero => left; simpa using hdiv
    | succ j =>
      right
      rw [pow_succ, ← Nat.div_div_eq_div_mul] at hdiv
      rcases Nat.even_or_odd' (a / 2 ^ j) with ⟨c, hc | hc⟩
      · left; exact ⟨j, by omega, by omega⟩
      · right; exact ⟨j, by omega, by omega⟩
  · rintro (rfl | ⟨j, hj, hdiv⟩ | ⟨j, hj, hdiv⟩)
    · exact Under.refl _ _
    · exact ⟨j + 1, by omega, by rw [pow_succ, ← Nat.div_div_eq_div_mul, hdiv]; omega⟩
    · exact ⟨j + 1, by omega, by rw [pow_succ, ← Nat.div_div_eq_div_mul, hdiv]; omega⟩

/-- Every node of the tree below `p` lies in the subtree of `p`'s height. -/
lemma IsNode.under {d p a : ℕ} (ha : IsNode d a) (hp : IsNode d p) (hab : Above p a) :
    Under (height d p) p a := by
  obtain ⟨j, hj⟩ := hab
  refine ⟨j, ?_, hj⟩
  by_contra hlt
  have hb := hp.bounds.1
  have hpow : 2 ^ (height d p + 1) ≤ 2 ^ j := Nat.pow_le_pow_right (by omega) (by omega)
  have hle : p * 2 ^ j ≤ a := by
    rw [← hj]
    exact Nat.div_mul_le_self a _
  have hlow : p * 2 ^ (height d p + 1) ≤ p * 2 ^ j := Nat.mul_le_mul_left p hpow
  have hsucc : p * 2 ^ (height d p + 1) = 2 * (p * 2 ^ height d p) := by ring
  have hd : 2 ^ (d + 1) = 2 * 2 ^ d := by ring
  have := ha.2
  omega

/-- A proper ancestor of a node has positive height. -/
lemma IsNode.height_of_strictlyAbove {d p r : ℕ} (hp : IsNode d p) (hr : IsNode d r)
    (hab : StrictlyAbove r p) : ∃ h, height d r = h + 1 := by
  obtain ⟨i, hi, hdiv⟩ := hp.under hr hab.above
  have hlt := hab.lt hr.1
  have hne : i ≠ 0 := by
    rintro rfl
    rw [pow_zero, Nat.div_one] at hdiv
    omega
  exact ⟨height d r - 1, by omega⟩

/-- A node has no other node of its height below it. -/
lemma IsNode.eq_of_height {d p r : ℕ} (hr : IsNode d r) (hp : IsNode d p) (hab : Above p r)
    (hheight : height d r = height d p) : r = p := by
  have hlogr := hr.log_le
  have hlogp := hp.log_le
  obtain ⟨j, hj⟩ := hab
  have hlog := Nat.log_div_base_pow 2 r j
  rw [hj] at hlog
  simp only [height] at hheight
  have hr1 := hr.1
  have hp1 := hp.1
  have hj0 : j = 0 := by
    by_contra hne
    have hsmall : r / 2 ^ j = 0 := by
      have hlt := Nat.lt_pow_succ_log_self (by omega : 1 < 2) r
      rw [show Nat.log 2 r = 0 by omega] at hlt
      exact Nat.div_eq_of_lt (lt_of_lt_of_le hlt (Nat.pow_le_pow_right (by omega) (by omega)))
    omega
  rw [hj0, pow_zero, Nat.div_one] at hj
  exact hj

/-- The leaves below a node. -/
def leaves (d p : ℕ) : Set ℕ := Set.Ico (p * 2 ^ height d p) ((p + 1) * 2 ^ height d p)

lemma leaf_above_iff {p q h : ℕ} : q / 2 ^ h = p ↔ p * 2 ^ h ≤ q ∧ q < (p + 1) * 2 ^ h := by
  have hpos : 0 < 2 ^ h := Nat.two_pow_pos h
  constructor
  · rintro rfl
    exact ⟨Nat.div_mul_le_self q _, by
      rw [Nat.mul_comm]; exact Nat.lt_mul_div_succ q hpos⟩
  · rintro ⟨h1, h2⟩
    exact Nat.div_eq_of_lt_le h1 h2

/-- The leaves below an inner node are those below its left child, then those below its right. -/
lemma leaves_children {d p h q : ℕ} (hp : IsNode d p) (hh : height d p = h + 1) :
    q ∈ leaves d p ↔ q ∈ leaves d (2 * p) ∨ q ∈ leaves d (2 * p + 1) := by
  have hpow : p * 2 ^ (h + 1) = 2 * p * 2 ^ h := by ring
  have hpow' : (p + 1) * 2 ^ (h + 1) = (2 * p + 1 + 1) * 2 ^ h := by ring
  have hle : 2 * p * 2 ^ h ≤ (2 * p + 1) * 2 ^ h := Nat.mul_le_mul_right _ (by omega)
  have hle' : (2 * p + 1) * 2 ^ h ≤ (2 * p + 1 + 1) * 2 ^ h := Nat.mul_le_mul_right _ (by omega)
  simp only [leaves, Set.mem_Ico, hh, (hp.left hh).2, (hp.right hh).2, hpow, hpow']
  omega

lemma leaves_left_lt_right {d p h q r : ℕ} (hp : IsNode d p) (hh : height d p = h + 1)
    (hq : q ∈ leaves d (2 * p)) (hr : r ∈ leaves d (2 * p + 1)) : q < r := by
  simp only [leaves, Set.mem_Ico, (hp.left hh).2, (hp.right hh).2] at hq hr
  exact lt_of_lt_of_le hq.2 hr.1

lemma leaves_of_height_zero {d p q : ℕ} (hh : height d p = 0) : q ∈ leaves d p ↔ q = p := by
  simp only [leaves, Set.mem_Ico, hh, pow_zero, Nat.mul_one]
  omega

lemma above_of_mem_leaves {d p q : ℕ} (h : q ∈ leaves d p) : Above p q :=
  ⟨height d p, leaf_above_iff.mpr h⟩

/-- The positions from `2 ^ d` on are the leaves. -/
lemma height_eq_zero_iff {d p : ℕ} (hp : IsNode d p) : height d p = 0 ↔ 2 ^ d ≤ p := by
  have hle := hp.log_le
  have hlog : 2 ^ d ≤ p ↔ d ≤ Nat.log 2 p :=
    (Nat.le_log_iff_pow_le (by norm_num) (by have := hp.1; omega)).symm
  rw [hlog, height]
  omega

lemma mem_leaves_root {d q : ℕ} : q ∈ leaves d 1 ↔ 2 ^ d ≤ q ∧ q < 2 ^ (d + 1) := by
  simp only [leaves, height_one, Set.mem_Ico, Nat.one_mul, pow_succ]
  omega

/-- Nodes that share a leaf are comparable. -/
lemma Above.of_leaves {d a b q : ℕ} (ha : q ∈ leaves d a) (hb : q ∈ leaves d b) :
    Above a b ∨ Above b a := by
  exact (above_of_mem_leaves ha).comparable (above_of_mem_leaves hb)

/-- Of two incomparable nodes one covers leaves that all come before those of the other. -/
lemma leaves_separate {d a b : ℕ} (hab : ¬ Above a b) (hba : ¬ Above b a) :
    (a + 1) * 2 ^ height d a ≤ b * 2 ^ height d b ∨
      (b + 1) * 2 ^ height d b ≤ a * 2 ^ height d a := by
  by_contra hno
  rw [not_or] at hno
  have ha : a * 2 ^ height d a < (a + 1) * 2 ^ height d a :=
    Nat.mul_lt_mul_of_pos_right (Nat.lt_succ_self a) (Nat.two_pow_pos _)
  have hb : b * 2 ^ height d b < (b + 1) * 2 ^ height d b :=
    Nat.mul_lt_mul_of_pos_right (Nat.lt_succ_self b) (Nat.two_pow_pos _)
  -- otherwise the later of the two first leaves belongs to both
  have hmax : max (a * 2 ^ height d a) (b * 2 ^ height d b) ∈ leaves d a ∩ leaves d b := by
    simp only [leaves, Set.mem_inter_iff, Set.mem_Ico]
    omega
  rcases Above.of_leaves hmax.1 hmax.2 with h | h
  · exact hab h
  · exact hba h

/-- Among the leaves of the tree those below a node are those it is an ancestor of. -/
lemma mem_leaves_iff {d p q : ℕ} (hp : IsNode d p) (hlow : 2 ^ d ≤ q) (hhigh : q < 2 ^ (d + 1)) :
    q ∈ leaves d p ↔ Above p q := by
  refine ⟨above_of_mem_leaves, ?_⟩
  rintro ⟨j, hj⟩
  have hlog : Nat.log 2 q = d := by
    rw [Nat.log_eq_iff (.inr ⟨by omega, by have := Nat.two_pow_pos d; omega⟩)]
    exact ⟨hlow, hhigh⟩
  have hdiv : Nat.log 2 p = d - j := by rw [← hj, Nat.log_div_base_pow, hlog]
  have hjd : j ≤ d := by
    by_contra hlt
    have hpow : 2 ^ (d + 1) ≤ 2 ^ j := Nat.pow_le_pow_right two_pos (by omega)
    have hzero : q / 2 ^ j = 0 := Nat.div_eq_of_lt (by omega)
    have := hp.1
    omega
  have hh : height d p = j := by rw [height, hdiv]; omega
  rw [leaves, hh]
  exact leaf_above_iff.mp hj

lemma first_mem_leaves (d p : ℕ) : p * 2 ^ height d p ∈ leaves d p :=
  ⟨le_refl _, Nat.mul_lt_mul_of_pos_right (Nat.lt_succ_self p) (Nat.two_pow_pos _)⟩

lemma IsNode.leaf_bounds {d p q : ℕ} (hp : IsNode d p) (hq : q ∈ leaves d p) :
    2 ^ d ≤ q ∧ q < 2 ^ (d + 1) :=
  ⟨hp.bounds.1.trans hq.1, lt_of_lt_of_le hq.2 hp.bounds.2⟩

/-- An ancestor covers the leaves of its descendants. -/
lemma Above.leaves_subset {d p q : ℕ} (hab : Above p q) (hp : IsNode d p) (hq : IsNode d q) :
    leaves d q ⊆ leaves d p := by
  intro r hr
  obtain ⟨h1, h2⟩ := hq.leaf_bounds hr
  exact (mem_leaves_iff hp h1 h2).mpr (hab.trans (above_of_mem_leaves hr))

/-- The ancestors of a node are the nodes that cover its leaves. -/
lemma leaves_subset_iff {d p q : ℕ} (hp : IsNode d p) (hq : IsNode d q) :
    leaves d q ⊆ leaves d p ↔ Above p q := by
  refine ⟨fun hsub => ?_, fun hab => hab.leaves_subset hp hq⟩
  have hfirst := first_mem_leaves d q
  rcases Above.of_leaves (hsub hfirst) hfirst with hab | hab
  · exact hab
  · -- the two nodes cover the same leaves, so they are one
    have hsub' := hab.leaves_subset hq hp
    have h1 := hsub hfirst
    have h2 := hsub' (first_mem_leaves d p)
    have hlow : p * 2 ^ height d p = q * 2 ^ height d q := le_antisymm h1.1 h2.1
    obtain ⟨i, _, hi⟩ := hp.under hq hab
    have hle := hab.le
    by_contra hne
    have hlt : q < p := by
      rcases Nat.lt_or_ge q p with h | h
      · exact h
      · exact absurd ((Nat.le_antisymm h hle) ▸ Above.refl q) hne
    have hdesc : height d p < height d q := by
      by_contra hge
      have hpow : 2 ^ height d q ≤ 2 ^ height d p := Nat.pow_le_pow_right two_pos (by omega)
      have := Nat.mul_lt_mul_of_lt_of_le hlt hpow (Nat.two_pow_pos _)
      omega
    have hlast : (q + 1) * 2 ^ height d q - 1 ∈ leaves d p := by
      apply hsub
      have := hfirst.2
      exact ⟨by omega, by omega⟩
    have hpow : 2 ^ height d p < 2 ^ height d q := Nat.pow_lt_pow_right (by omega) hdesc
    have hq2 : (q + 1) * 2 ^ height d q = q * 2 ^ height d q + 2 ^ height d q := by ring
    have hp2 : (p + 1) * 2 ^ height d p = p * 2 ^ height d p + 2 ^ height d p := by ring
    have := hlast.2
    omega

/-- Nodes share no leaf exactly when neither is an ancestor of the other. -/
lemma leaves_disjoint_iff {d p q : ℕ} (hp : IsNode d p) (hq : IsNode d q) :
    Disjoint (leaves d p) (leaves d q) ↔ ¬ Above p q ∧ ¬ Above q p := by
  constructor
  · intro hdis
    rw [Set.disjoint_left] at hdis
    exact ⟨fun hab => hdis (hab.leaves_subset hp hq (first_mem_leaves d q)) (first_mem_leaves d q),
      fun hab => hdis (first_mem_leaves d p) (hab.leaves_subset hq hp (first_mem_leaves d p))⟩
  · rintro ⟨hpq, hqp⟩
    rw [Set.disjoint_left]
    intro r hrp hrq
    rcases Above.of_leaves hrp hrq with h | h
    · exact hpq h
    · exact hqp h

/-- An aligned run of `2 ^ j` leaves is covered by a node of height `j`. -/
lemma exists_node_of_aligned {d j q : ℕ} (hdvd : 2 ^ j ∣ q) (hlow : 2 ^ d ≤ q)
    (hhigh : q + 2 ^ j ≤ 2 ^ (d + 1)) : IsNode d (q / 2 ^ j) ∧ height d (q / 2 ^ j) = j := by
  obtain ⟨c, rfl⟩ := hdvd
  have hpos : 0 < 2 ^ j := Nat.two_pow_pos j
  rw [Nat.mul_div_cancel_left c hpos]
  have hjd : j ≤ d := by
    by_contra hlt
    have h1 : 2 ^ (d + 1) ≤ 2 ^ j := Nat.pow_le_pow_right two_pos (by omega)
    have := Nat.two_pow_pos d
    omega
  obtain ⟨e, rfl⟩ : ∃ e, d = j + e := ⟨d - j, by omega⟩
  rw [pow_add] at hlow
  rw [show j + e + 1 = j + (e + 1) by ring, pow_add,
    show 2 ^ j * c + 2 ^ j = 2 ^ j * (c + 1) by ring] at hhigh
  have hc1 : 2 ^ e ≤ c := Nat.le_of_mul_le_mul_left hlow hpos
  have hc2 : c + 1 ≤ 2 ^ (e + 1) := Nat.le_of_mul_le_mul_left hhigh hpos
  have hlog : Nat.log 2 c = e := by
    rw [Nat.log_eq_iff (.inr ⟨by omega, by have := Nat.two_pow_pos e; omega⟩)]
    exact ⟨hc1, by omega⟩
  refine ⟨⟨by have := Nat.two_pow_pos e; omega, ?_⟩, by rw [height, hlog]; omega⟩
  calc c < 2 ^ (e + 1) := by omega
    _ ≤ 2 ^ (j + e + 1) := Nat.pow_le_pow_right two_pos (by omega)

/-! ### Recomputing the ancestors of a node -/

/-- The array holds the intended value everywhere except at the proper ancestors of `p`. -/
def AgreesOff (arr val : ℕ → α) (d p : ℕ) : Prop :=
  ∀ q, IsNode d q → ¬ StrictlyAbove q p → arr q = val q

lemma AgreesOff.congr {arr arr' val : ℕ → α} {d p : ℕ} (h : AgreesOff arr val d p)
    (heq : ∀ q, IsNode d q → arr' q = arr q) : AgreesOff arr' val d p := by
  intro q hq hnot
  rw [heq q hq, h q hq hnot]

/-- One round of the bottom-up loop: the parent of `p` is recomputed from its children. -/
def recompute (f : ℕ → α → α → α) (arr : ℕ → α) (p : ℕ) : ℕ → α :=
  Function.update arr (p / 2) (f (p / 2) (arr (2 * (p / 2))) (arr (2 * (p / 2) + 1)))

/-- Step rule: recomputing the parent moves the frontier of the loop one level up. -/
lemma AgreesOff.step {f : ℕ → α → α → α} {arr val : ℕ → α} {d p : ℕ}
    (h : AgreesOff arr val d p) (hp : IsNode d p) (hne : p ≠ 1)
    (hval : val (p / 2) = f (p / 2) (val (2 * (p / 2))) (val (2 * (p / 2) + 1))) :
    AgreesOff (recompute f arr p) val d (p / 2) := by
  intro q hq hnot
  obtain ⟨hpar, hh⟩ := hp.parent hne
  by_cases hqp : q = p / 2
  · subst hqp
    have hl := hpar.left hh
    have hr := hpar.right hh
    have hnl : ¬ StrictlyAbove (2 * (p / 2)) p := by
      rw [strictlyAbove_iff]
      intro hab
      have := hab.le
      have := hpar.1
      omega
    have hnr : ¬ StrictlyAbove (2 * (p / 2) + 1) p := by
      rw [strictlyAbove_iff]
      intro hab
      have := hab.le
      omega
    simp only [recompute, Function.update_self]
    rw [h _ hl.1 hnl, h _ hr.1 hnr, hval]
  · simp only [recompute, Function.update_of_ne hqp]
    apply h q hq
    rw [strictlyAbove_iff, above_iff_eq_or]
    rintro (heq | hab)
    · exact hqp heq
    · exact hnot hab

/-- At the root nothing is left to recompute. -/
lemma AgreesOff.root {arr val : ℕ → α} {d : ℕ} (h : AgreesOff arr val d 1) {q : ℕ}
    (hq : IsNode d q) : arr q = val q := by
  apply h q hq
  rintro ⟨j, hj⟩
  have h1 : 1 / 2 ^ (j + 1) = 0 := Nat.div_eq_of_lt (Nat.one_lt_two_pow (by omega))
  have := hq.1
  omega

end TreeArray
