import Jokerix.Heap.Buddy
import Jokerix.Lib.TreeArray
import Mathlib.Data.Finset.Insert
import Mathlib.Data.Finset.Erase

/-!
# What the buddy tree represents

The abstract state of the buddy tree is the set of its live nodes, an antichain: the nodes that
were handed out and not freed. `nodeRun` says which number every entry of `longest` holds for a
given live set, and `Represents` that a tree holds these numbers. Entries are addressed by tree
position, `longest (p - 1)` for position `p`.
-/

namespace Jokerix

open TreeArray

/-! ### The intended entries -/

/-- The value of an inner node of `nodeSize` blocks from those of its children: two free halves
join, otherwise the longer run counts. -/
def combine (nodeSize left right : ℕ) : ℕ :=
  if left + right = nodeSize then nodeSize else max left right

/-- The longest aligned free run in the subtree of height `h` at `p`, which is not below a live
node. -/
def freeRun (live : Finset ℕ) : ℕ → ℕ → ℕ
  | 0, p => if p ∈ live then 0 else 1
  | h + 1, p =>
    if p ∈ live then 0
    else combine (2 ^ (h + 1)) (freeRun live h (2 * p)) (freeRun live h (2 * p + 1))

open scoped Classical in
/-- The entry of node `p`: below a live node the full size, which the allocation left standing. -/
noncomputable def nodeRun (d : ℕ) (live : Finset ℕ) (p : ℕ) : ℕ :=
  if ∃ a ∈ live, StrictlyAbove a p then 2 ^ height d p else freeRun live (height d p) p

/-- The live nodes are nodes of the tree, none below another. -/
structure LiveSet (d : ℕ) (live : Finset ℕ) : Prop where
  node : ∀ a ∈ live, IsNode d a
  antichain : ∀ a ∈ live, ∀ b ∈ live, Above a b → a = b

/-- The tree holds, for the live set, the intended number at every node. -/
structure Represents (d : ℕ) (live : Finset ℕ) (t : BuddyTree) : Prop extends LiveSet d live where
  size : t.size = 2 ^ d
  entry : ∀ p, IsNode d p → t.longest (p - 1) = nodeRun d live p

/-! ### Free runs -/

lemma combine_le {n l r : ℕ} (hl : l ≤ n) (hr : r ≤ n) : combine n l r ≤ n := by
  unfold combine
  split_ifs <;> omega

lemma combine_eq_max {n l r : ℕ} (h : l + r < n) : combine n l r = max l r := by
  rw [combine, if_neg (by omega)]

lemma freeRun_of_mem {live : Finset ℕ} {p : ℕ} (h : ℕ) (hp : p ∈ live) :
    freeRun live h p = 0 := by
  cases h <;> simp [freeRun, hp]

lemma freeRun_succ {live : Finset ℕ} {h p : ℕ} (hp : p ∉ live) :
    freeRun live (h + 1) p =
      combine (2 ^ (h + 1)) (freeRun live h (2 * p)) (freeRun live h (2 * p + 1)) := by
  simp [freeRun, hp]

lemma freeRun_le (live : Finset ℕ) (h p : ℕ) : freeRun live h p ≤ 2 ^ h := by
  induction h generalizing p with
  | zero => simp only [freeRun]; split_ifs <;> simp
  | succ h ih =>
    have hl := ih (2 * p)
    have hr := ih (2 * p + 1)
    have hpow : 2 ^ (h + 1) = 2 * 2 ^ h := pow_succ' 2 h
    simp only [freeRun]
    split_ifs
    · omega
    · exact combine_le (by omega) (by omega)

/-- A free run depends only on the live nodes of its subtree. -/
lemma freeRun_congr {live live' : Finset ℕ} {h p : ℕ}
    (heq : ∀ a, Under h p a → (a ∈ live ↔ a ∈ live')) :
    freeRun live h p = freeRun live' h p := by
  induction h generalizing p with
  | zero =>
    have hp := heq p (Under.refl _ _)
    simp only [freeRun, hp]
  | succ h ih =>
    have hp := heq p (Under.refl _ _)
    have hl := ih (p := 2 * p) fun a ha => heq a ((under_succ h p a).mpr (.inr (.inl ha)))
    have hr := ih (p := 2 * p + 1) fun a ha => heq a ((under_succ h p a).mpr (.inr (.inr ha)))
    simp only [freeRun, hp, hl, hr]

/-- A subtree is wholly free exactly when its run has the full length. -/
lemma freeRun_eq_full_iff (live : Finset ℕ) (h p : ℕ) :
    freeRun live h p = 2 ^ h ↔ ∀ a ∈ live, ¬ Under h p a := by
  induction h generalizing p with
  | zero =>
    simp only [freeRun, under_zero]
    constructor
    · intro hval a ha heq
      subst heq
      simp [ha] at hval
    · intro hno
      rw [if_neg fun hp => hno p hp rfl, pow_zero]
  | succ h ih =>
    have hpow : 2 ^ (h + 1) = 2 * 2 ^ h := pow_succ' 2 h
    have hpos : 0 < 2 ^ h := Nat.two_pow_pos h
    have hl := freeRun_le live h (2 * p)
    have hr := freeRun_le live h (2 * p + 1)
    by_cases hp : p ∈ live
    · rw [freeRun_of_mem _ hp]
      constructor
      · intro h0
        omega
      · intro hno
        exact absurd (Under.refl _ _) (hno p hp)
    · rw [freeRun_succ hp]
      have hfull : combine (2 ^ (h + 1)) (freeRun live h (2 * p)) (freeRun live h (2 * p + 1)) =
          2 ^ (h + 1) ↔ freeRun live h (2 * p) = 2 ^ h ∧ freeRun live h (2 * p + 1) = 2 ^ h := by
        unfold combine
        split_ifs with hsum
        · simp only [true_iff]; omega
        · constructor <;> intro hh <;> omega
      rw [hfull, ih, ih]
      constructor
      · rintro ⟨hnl, hnr⟩ a ha hu
        rcases (under_succ h p a).mp hu with rfl | hu | hu
        · exact hp ha
        · exact hnl a ha hu
        · exact hnr a ha hu
      · intro hno
        exact ⟨fun a ha hu => hno a ha ((under_succ h p a).mpr (.inr (.inl hu))),
          fun a ha hu => hno a ha ((under_succ h p a).mpr (.inr (.inr hu)))⟩

/-! ### Entries of nodes -/

section
variable {d : ℕ} {live : Finset ℕ} {p q : ℕ}

lemma nodeRun_below (h : ∃ a ∈ live, StrictlyAbove a p) : nodeRun d live p = 2 ^ height d p := by
  rw [nodeRun, if_pos h]

lemma nodeRun_not_below (h : ¬ ∃ a ∈ live, StrictlyAbove a p) :
    nodeRun d live p = freeRun live (height d p) p := by
  rw [nodeRun, if_neg h]

lemma nodeRun_le (d : ℕ) (live : Finset ℕ) (p : ℕ) : nodeRun d live p ≤ 2 ^ height d p := by
  unfold nodeRun
  split_ifs
  · exact le_refl _
  · exact freeRun_le _ _ _

/-- No live node is `p` or above it: a descent that looks for a free run may stand at `p`. -/
def Uncovered (live : Finset ℕ) (p : ℕ) : Prop := ∀ a ∈ live, ¬ Above a p

lemma Uncovered.not_below (h : Uncovered live p) : ¬ ∃ a ∈ live, StrictlyAbove a p := by
  rintro ⟨a, ha, hab⟩
  exact h a ha hab.above

lemma Uncovered.not_mem (h : Uncovered live p) : p ∉ live := fun hp => h p hp (Above.refl p)

lemma Uncovered.of_above (h : Uncovered live p) (hab : Above q p) : Uncovered live q :=
  fun a ha haq => h a ha (haq.trans hab)

/-- An uncovered inner node has the combined entry of its children. -/
lemma nodeRun_parent (hq : IsNode d q) {h : ℕ} (hh : height d q = h + 1)
    (hun : Uncovered live q) :
    nodeRun d live q =
      combine (2 ^ (h + 1)) (nodeRun d live (2 * q)) (nodeRun d live (2 * q + 1)) := by
  have hnl : ¬ ∃ a ∈ live, StrictlyAbove a (2 * q) := by
    rintro ⟨a, ha, hab⟩
    exact hun a ha ((strictlyAbove_left a q).mp hab)
  have hnr : ¬ ∃ a ∈ live, StrictlyAbove a (2 * q + 1) := by
    rintro ⟨a, ha, hab⟩
    exact hun a ha ((strictlyAbove_right a q).mp hab)
  rw [nodeRun_not_below hun.not_below, nodeRun_not_below hnl, nodeRun_not_below hnr, hh,
    (hq.left hh).2, (hq.right hh).2, freeRun_succ hun.not_mem]

/-- An uncovered node with the full entry has no live node in its subtree. -/
lemma not_above_of_full (hl : LiveSet d live) (hp : IsNode d p) (hun : Uncovered live p)
    (hfull : nodeRun d live p = 2 ^ height d p) : ∀ a ∈ live, ¬ Above p a := by
  rw [nodeRun_not_below hun.not_below, freeRun_eq_full_iff] at hfull
  exact fun a ha hab => hfull a ha ((hl.node a ha).under hp hab)

/-- A node with no live node in its subtree has the full entry. -/
lemma nodeRun_full (hun : ∀ a ∈ live, ¬ Above p a) :
    nodeRun d live p = 2 ^ height d p := by
  by_cases hb : ∃ a ∈ live, StrictlyAbove a p
  · exact nodeRun_below hb
  · rw [nodeRun_not_below hb, freeRun_eq_full_iff]
    exact fun a ha hu => hun a ha hu.above

lemma LiveSet.nodeRun_of_mem (hl : LiveSet d live) (hp : p ∈ live) : nodeRun d live p = 0 := by
  have hnb : ¬ ∃ a ∈ live, StrictlyAbove a p := by
    rintro ⟨a, ha, hab⟩
    have heq := hl.antichain a ha p hp hab.above
    have hlt := hab.lt (hl.node a ha).1
    omega
  rw [nodeRun_not_below hnb, freeRun_of_mem _ hp]

/-- With any free run the root is not live. -/
lemma LiveSet.uncovered_root (hl : LiveSet d live) (hpos : 0 < nodeRun d live 1) :
    Uncovered live 1 := by
  intro a ha hab
  have hle := hab.le
  have ha1 := (hl.node a ha).1
  obtain rfl : a = 1 := by omega
  rw [hl.nodeRun_of_mem ha] at hpos
  omega

/-- A node that is comparable with no live node may be added. -/
lemma LiveSet.insert (hl : LiveSet d live) (hp : IsNode d p) (hun : Uncovered live p)
    (hno : ∀ a ∈ live, ¬ Above p a) : LiveSet d (insert p live) where
  node a ha := by
    rcases Finset.mem_insert.mp ha with rfl | ha
    · exact hp
    · exact hl.node a ha
  antichain a ha b hb hab := by
    rcases Finset.mem_insert.mp ha with rfl | ha'
    · rcases Finset.mem_insert.mp hb with rfl | hb'
      · rfl
      · exact absurd hab (hno b hb')
    · rcases Finset.mem_insert.mp hb with rfl | hb'
      · exact absurd hab (hun a ha')
      · exact hl.antichain a ha' b hb' hab

lemma LiveSet.erase (hl : LiveSet d live) (p : ℕ) : LiveSet d (live.erase p) where
  node a ha := hl.node a (Finset.mem_of_mem_erase ha)
  antichain a ha b hb := hl.antichain a (Finset.mem_of_mem_erase ha) b (Finset.mem_of_mem_erase hb)

/-- Adding a free node to the live set changes its own entry and those of its ancestors only. -/
lemma nodeRun_insert (hun : Uncovered live p) (hno : ∀ a ∈ live, ¬ Above p a) (hne : q ≠ p)
    (hnot : ¬ StrictlyAbove q p) : nodeRun d (insert p live) q = nodeRun d live q := by
  by_cases hpq : StrictlyAbove p q
  · rw [nodeRun_below ⟨p, Finset.mem_insert_self _ _, hpq⟩]
    symm
    exact nodeRun_full fun a ha haq => hno a ha (hpq.above.trans haq)
  · have hiff : (∃ a ∈ insert p live, StrictlyAbove a q) ↔ ∃ a ∈ live, StrictlyAbove a q := by
      constructor
      · rintro ⟨a, ha, hab⟩
        rcases Finset.mem_insert.mp ha with rfl | ha
        · exact absurd hab hpq
        · exact ⟨a, ha, hab⟩
      · rintro ⟨a, ha, hab⟩
        exact ⟨a, Finset.mem_insert_of_mem ha, hab⟩
    by_cases hb : ∃ a ∈ live, StrictlyAbove a q
    · rw [nodeRun_below hb, nodeRun_below (hiff.mpr hb)]
    · rw [nodeRun_not_below hb, nodeRun_not_below (mt hiff.mp hb)]
      apply freeRun_congr
      intro a ha
      rw [Finset.mem_insert]
      constructor
      · rintro (rfl | h)
        · rcases (above_iff_eq_or q a).mp ha.above with h | h
          · exact absurd h hne
          · exact absurd h hnot
        · exact h
      · exact Or.inr

/-- An ancestor of a live node is uncovered. -/
lemma LiveSet.uncovered_of_above (hl : LiveSet d live) (hp : p ∈ live) (hq : IsNode d q)
    (hab : StrictlyAbove q p) : Uncovered live q := by
  intro a ha haq
  have hap := haq.trans hab.above
  have heq := hl.antichain a ha p hp hap
  subst heq
  have h1 := haq.le
  have h2 := hab.lt hq.1
  omega

/-- A node with a live node in its subtree has less than the full entry. -/
lemma LiveSet.nodeRun_lt (hl : LiveSet d live) (hp : p ∈ live) (hq : IsNode d q)
    (hab : Above q p) : nodeRun d live q < 2 ^ height d q := by
  rcases (above_iff_eq_or q p).mp hab with rfl | hs
  · rw [hl.nodeRun_of_mem hp]
    exact Nat.two_pow_pos _
  · have hun := hl.uncovered_of_above hp hq hs
    refine lt_of_le_of_ne (nodeRun_le d live q) fun hfull => ?_
    exact not_above_of_full hl hq hun hfull p hp hab

/-- At a proper ancestor of a live node the combined entry is the plain maximum: its halves are
not both free. -/
lemma LiveSet.nodeRun_parent_max (hl : LiveSet d live) (hp : p ∈ live) {h : ℕ}
    (hq : IsNode d q) (hh : height d q = h + 1) (hab : StrictlyAbove q p) :
    nodeRun d live q = max (nodeRun d live (2 * q)) (nodeRun d live (2 * q + 1)) := by
  obtain ⟨hln, hlh⟩ := hq.left hh
  obtain ⟨hrn, hrh⟩ := hq.right hh
  have hll := nodeRun_le d live (2 * q)
  have hrl := nodeRun_le d live (2 * q + 1)
  have hpow : 2 ^ (h + 1) = 2 * 2 ^ h := pow_succ' 2 h
  rw [hlh] at hll
  rw [hrh] at hrl
  rw [nodeRun_parent hq hh (hl.uncovered_of_above hp hq hab)]
  apply combine_eq_max
  -- one of the children is above the live node as well
  obtain ⟨j, hj⟩ := hab
  have hu : Under (h + 1) q p := by
    rw [← hh]
    exact (hl.node p hp).under hq ⟨j + 1, hj⟩
  rcases (under_succ h q p).mp hu with heq | hu | hu
  · exfalso
    have := StrictlyAbove.lt ⟨j, hj⟩ hq.1
    omega
  · have := hl.nodeRun_lt hp hln hu.above
    rw [hlh] at this
    omega
  · have := hl.nodeRun_lt hp hrn hu.above
    rw [hrh] at this
    omega

end

end Jokerix
