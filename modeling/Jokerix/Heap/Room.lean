import Jokerix.Heap.Holds
import Mathlib.Data.List.Perm.Subperm
import Mathlib.Data.List.Range

/-!
# When the heap has room

A request of at most an eighth of the heap succeeds while fewer than eight blocks of at most that
size are live: one of the eight nodes of that size has nothing below it.
-/

namespace Jokerix

open TreeArray

lemma le_combine {n l r : ℕ} (hl : l ≤ n) (hr : r ≤ n) :
    l ≤ combine n l r ∧ r ≤ combine n l r := by
  unfold combine
  split_ifs
  · exact ⟨hl, hr⟩
  · exact ⟨le_max_left l r, le_max_right l r⟩

/-- The root has a free run as long as any uncovered node's. -/
lemma nodeRun_le_root {d : ℕ} {live : Finset ℕ} {p : ℕ} (hp : IsNode d p)
    (hun : Uncovered live p) : nodeRun d live p ≤ nodeRun d live 1 := by
  induction p using Nat.strong_induction_on with
  | _ p ih =>
    by_cases h1 : p = 1
    · rw [h1]
    · obtain ⟨hpar, hh⟩ := hp.parent h1
      have hself : Above (p / 2) p := ⟨1, by simp⟩
      have hunp := hun.of_above hself
      have hle := nodeRun_parent hpar hh hunp
      have hsub : ∀ {c}, height d c = height d p → nodeRun d live c ≤ 2 ^ (height d p + 1) := by
        intro c hc
        exact (nodeRun_le d live c).trans (hc ▸ Nat.pow_le_pow_right (by omega) (by omega))
      obtain ⟨hl, hr⟩ := le_combine (n := 2 ^ (height d p + 1))
        (l := nodeRun d live (2 * (p / 2))) (r := nodeRun d live (2 * (p / 2) + 1))
        (hsub (hpar.left hh).2) (hsub (hpar.right hh).2)
      rw [← hle] at hl hr
      have hup := ih (p / 2) (by have := hp.1; omega) hpar hunp
      rcases Nat.even_or_odd' p with ⟨c, rfl | rfl⟩
      · rw [show 2 * (2 * c / 2) = 2 * c by omega] at hl
        exact hl.trans hup
      · rw [show 2 * ((2 * c + 1) / 2) + 1 = 2 * c + 1 by omega] at hr
        exact hr.trans hup

/-- The ancestor of a node three levels below the root. -/
def eighth (a : ℕ) : ℕ := a / 2 ^ (Nat.log 2 a - 3)

/-- A node in the subtree of one of the eight nodes has it as its `eighth`. -/
lemma eighth_eq_of_above {q a : ℕ} (hq : 8 ≤ q) (hq' : q < 16) (h : Above q a) : eighth a = q := by
  obtain ⟨j, hj⟩ := h
  have hlogq : Nat.log 2 q = 3 := Nat.log_eq_of_pow_le_of_lt_pow (by norm_num; omega)
    (by norm_num; omega)
  have hlog : Nat.log 2 a = j + 3 := by
    have h1 := Nat.log_div_base_pow 2 a j
    rw [hj, hlogq] at h1
    omega
  rw [eighth, hlog, Nat.add_sub_cancel, hj]

/-- With fewer than eight small nodes live, one of the eight nodes is wholly free. -/
lemma exists_free_eighth {nodes : List ℕ} (hlen : nodes.length < 8) (hlow : ∀ a ∈ nodes, 8 ≤ a) :
    ∃ q, 8 ≤ q ∧ q < 16 ∧ Uncovered nodes.toFinset q ∧ ∀ a ∈ nodes.toFinset, ¬ Above q a := by
  obtain ⟨q, hq, hnot⟩ : ∃ q ∈ List.range' 8 8, q ∉ nodes.map eighth := by
    by_contra hall
    push Not at hall
    have hsub : List.range' 8 8 ⊆ nodes.map eighth := hall
    have hle := (List.subperm_of_subset List.nodup_range' hsub).length_le
    rw [List.length_range', List.length_map] at hle
    omega
  obtain ⟨h8, h16⟩ : 8 ≤ q ∧ q < 16 := by
    obtain ⟨i, hi, rfl⟩ := List.mem_range'.mp hq
    omega
  have hno : ∀ a ∈ nodes.toFinset, ¬ Above q a := by
    intro a ha hab
    exact hnot (List.mem_map.mpr ⟨a, List.mem_toFinset.mp ha, eighth_eq_of_above h8 h16 hab⟩)
  refine ⟨q, h8, h16, ?_, hno⟩
  intro a ha hab
  have ha8 := hlow a (List.mem_toFinset.mp ha)
  have hq : eighth q = q := eighth_eq_of_above h8 h16 (Above.refl q)
  obtain ⟨j, hj⟩ := hab
  -- a live node above `q` would be `q` itself
  have hj0 : j = 0 := by
    by_contra hne
    have hdiv : q / 2 ^ j ≤ q / 2 ^ 1 :=
      Nat.div_le_div_left (Nat.pow_le_pow_right (by omega) (by omega)) (by norm_num)
    omega
  rw [hj0, pow_zero, Nat.div_one] at hj
  exact hno a ha (hj ▸ Above.refl q)

/-- Requests of at most an eighth of the heap succeed while fewer than eight blocks of at most that
size are live. -/
theorem Holds.kalloc_of_few {h : KernelHeap} {blocks : List (ℕ × ℕ)} {size : BitVec 32}
    (hh : Holds h blocks) (hpos : 0 < size.toInt) (hsize : kallocBlocks size ≤ 2 ^ 14)
    (hfew : blocks.length < 8) (hsmall : ∀ b ∈ blocks, b.2 ≤ 2 ^ 14 * minBlockSize) :
    ∃ ptr h', Jokerix.kalloc h size = .ok (ptr, h') := by
  obtain ⟨nodes, _, hr, rfl⟩ := hh
  rcases kalloc_spec hr hpos with ⟨hlt, _⟩ | ⟨p, tree, _, _, _, _, _, hok⟩
  · have hlow : ∀ a ∈ nodes, 8 ≤ a := by
      intro a ha
      have hnode := hr.node a (List.mem_toFinset.mpr ha)
      have hb := hsmall _ (List.mem_map_of_mem ha)
      simp only [nodeBytes] at hb
      have hpow := Nat.le_of_mul_le_mul_right hb (by decide)
      have hheight : height heapDepth a ≤ 14 := (Nat.pow_le_pow_iff_right (by omega)).mp hpow
      have hlog : 3 ≤ Nat.log 2 a := by
        simp only [height, heapDepth] at hheight
        omega
      have := Nat.pow_le_of_le_log (by have := hnode.1; omega) hlog
      omega
    obtain ⟨q, h8, h16, hun, hno⟩ := exists_free_eighth (by simpa using hfew) hlow
    have hnode : IsNode heapDepth q := by
      refine ⟨by omega, lt_of_lt_of_le h16 ?_⟩
      decide
    have hlogq : Nat.log 2 q = 3 :=
      Nat.log_eq_of_pow_le_of_lt_pow (by norm_num; omega) (by norm_num; omega)
    have hheight : height heapDepth q = 14 := by
      rw [height, hlogq]
      rfl
    have hroot := nodeRun_le_root hnode hun
    rw [nodeRun_full hno, hheight] at hroot
    have hclog : Nat.clog 2 (kallocBlocks size) ≤ 14 := Nat.clog_le_of_le_pow hsize
    have hle : 2 ^ Nat.clog 2 (kallocBlocks size) ≤ 2 ^ 14 := Nat.pow_le_pow_right (by omega) hclog
    omega
  · exact ⟨_, _, hok⟩

section
variable {h : KernelHeap} {blocks : List (ℕ × ℕ)}

/-- The blocks are few and none exceeds an eighth of the heap. -/
def Roomy (n : ℕ) (blocks : List (ℕ × ℕ)) : Prop :=
  blocks.length ≤ n ∧ ∀ b ∈ blocks, b.2 ≤ 2 ^ 14 * minBlockSize

lemma Roomy.cons {n : ℕ} {b : ℕ × ℕ} (hroom : Roomy n blocks)
    (hb : b.2 ≤ 2 ^ 14 * minBlockSize) : Roomy (n + 1) (b :: blocks) := by
  constructor
  · simpa using hroom.1
  · intro c hc
    rcases List.mem_cons.mp hc with rfl | hc
    · exact hb
    · exact hroom.2 c hc

lemma kallocBytes_small {size : BitVec 32} (hpos : 0 < size.toInt) (hle : size.toInt < 2 ^ 20) :
    kallocBlocks size ≤ 2 ^ 14 ∧ kallocBytes size ≤ 2 ^ 14 * minBlockSize := by
  have hblocks : kallocBlocks size ≤ 2 ^ 14 := by
    have hne : size.toInt ≠ 0 ∧ minBlockSize - 1 ≠ 0 := ⟨by omega, by decide⟩
    rw [kallocBlocks, if_pos hne]
    simp only [minBlockSize]
    omega
  refine ⟨hblocks, ?_⟩
  rw [kallocBytes_eq hpos]
  apply Nat.mul_le_mul_right
  exact Nat.pow_le_pow_right (by omega) (Nat.clog_le_of_le_pow hblocks)

/-- A request below a megabyte succeeds while few blocks are live. -/
lemma Holds.kalloc_roomy {n : ℕ} (hh : Holds h blocks) (size : BitVec 32) (hroom : Roomy n blocks)
    (hn : n < 8) (hpos : 0 < size.toInt) (hle : size.toInt < 2 ^ 20) :
    ∃ ptr h', Jokerix.kalloc h size = .ok (ptr, h') ∧ h'.region = h.region ∧
      Holds h' ((ptr, kallocBytes size) :: blocks) ∧
      Roomy (n + 1) ((ptr, kallocBytes size) :: blocks) := by
  obtain ⟨hblocks, hbytes⟩ := kallocBytes_small hpos hle
  have hlen := hroom.1
  obtain ⟨ptr, h', hok⟩ := hh.kalloc_of_few hpos hblocks (by omega) hroom.2
  obtain ⟨hh', _, hregion, _⟩ := hh.kalloc hpos hok
  exact ⟨ptr, h', hok, hregion, hh', hroom.cons hbytes⟩

end

end Jokerix
