import Jokerix.Heap.BuddyInvariant

/-!
# The buddy operations on the represented live set

`buddyInit` represents the empty live set, `buddyAlloc` adds a wholly free node to the live set or
changes nothing, and `buddyFree` of any block of a live node removes that node.
-/

namespace Jokerix

open TreeArray

variable {d : ℕ} {live : Finset ℕ} {t : BuddyTree}

/-! ### Array indices and tree positions -/

lemma parent_pred {p : ℕ} (hp : 1 ≤ p) : parent (p - 1) = p / 2 - 1 := by
  rw [parent, Nat.sub_add_cancel hp]

lemma leftLeaf_pred {p : ℕ} (hp : 1 ≤ p) : leftLeaf (p - 1) = 2 * p - 1 := by
  unfold leftLeaf
  omega

lemma rightLeaf_pred {p : ℕ} (hp : 1 ≤ p) : rightLeaf (p - 1) = 2 * p + 1 - 1 := by
  unfold rightLeaf
  omega

lemma update_pred {longest : ℕ → ℕ} {p q v : ℕ} (hp : 1 ≤ p) (hq : 1 ≤ q) :
    Function.update longest (p - 1) v (q - 1) =
      Function.update (fun r => longest (r - 1)) p v q := by
  simp only [Function.update_apply]
  by_cases h : q = p
  · rw [if_pos (by omega), if_pos h]
  · rw [if_neg (by omega), if_neg h]

/-! ### Initialisation -/

/-- The level changes exactly at the powers of two. -/
lemma height_succ {i : ℕ} (hi : 1 ≤ i) :
    Nat.log 2 (i + 1) = if (i + 1).isPowerOfTwo then Nat.log 2 i + 1 else Nat.log 2 i := by
  have hlow : 2 ^ Nat.log 2 i ≤ i := Nat.pow_log_le_self 2 (by omega)
  have hhigh : i < 2 ^ (Nat.log 2 i + 1) := Nat.lt_pow_succ_log_self (by omega) i
  have hpow : 2 ^ (Nat.log 2 i + 2) = 2 * 2 ^ (Nat.log 2 i + 1) := pow_succ' 2 _
  split_ifs with hp
  · obtain ⟨k, hk⟩ := hp
    have h1 : Nat.log 2 i < k := by
      by_contra hle
      have := Nat.pow_le_pow_right (n := 2) (by omega) (by omega : k ≤ Nat.log 2 i)
      omega
    have h2 : k ≤ Nat.log 2 i + 1 := by
      by_contra hlt
      have := Nat.pow_le_pow_right (n := 2) (by omega) (by omega : Nat.log 2 i + 2 ≤ k)
      omega
    rw [hk, Nat.log_pow (by omega)]
    omega
  · rw [Nat.log_eq_iff (by omega)]
    have hne : i + 1 ≠ 2 ^ (Nat.log 2 i + 1) := fun h => hp ⟨_, h⟩
    omega

lemma buddyInitLoop_spec (hd : d < 31) (n i nodeSize : ℕ) (longest : ℕ → ℕ)
    (hn : i + n = 2 ^ (d + 1) - 1)
    (hsize : nodeSize = if i = 0 then 2 ^ (d + 1) else 2 ^ height d i)
    (hdone : ∀ q, 1 ≤ q → q ≤ i → longest (q - 1) = 2 ^ height d q) {q : ℕ} (hq : IsNode d q) :
    buddyInitLoop longest i nodeSize n (q - 1) = 2 ^ height d q := by
  induction n generalizing i nodeSize longest with
  | zero =>
    have := hq.2
    exact hdone q hq.1 (by omega)
  | succ n ih =>
    have hbound : 2 ^ (d + 1) ≤ 2 ^ 31 := Nat.pow_le_pow_right (by omega) (by omega)
    have hnode : IsNode d (i + 1) := ⟨by omega, by omega⟩
    -- the node size at the next position
    have hnext : (if isPowerOf2 (BitVec.ofNat 32 (i + 1)) then nodeSize / 2 else nodeSize) =
        2 ^ height d (i + 1) := by
      simp only [isPowerOf2_iff (by omega : 1 ≤ i + 1) (by omega : i + 1 < 2 ^ 32)]
      by_cases h0 : i = 0
      · subst h0
        have hone : (0 + 1).isPowerOfTwo := ⟨0, rfl⟩
        rw [if_pos hone, hsize, if_pos rfl, Nat.zero_add, height_one, pow_succ,
          Nat.mul_div_cancel _ two_pos]
      · rw [if_neg h0] at hsize
        have hlog := height_succ (by omega : 1 ≤ i)
        have hle := hnode.log_le
        subst hsize
        simp only [height]
        split_ifs at hlog ⊢ with hp
        · rw [hlog, show d - Nat.log 2 i = d - (Nat.log 2 i + 1) + 1 by omega, pow_succ,
            Nat.mul_div_cancel _ two_pos]
        · rw [hlog]
    simp only [buddyInitLoop, hnext]
    apply ih (i + 1) _ _ (by omega)
    · rw [if_neg (by omega)]
    · intro r hr1 hr2
      by_cases hri : r = i + 1
      · subst hri
        simp
      · rw [Function.update_of_ne (by omega)]
        exact hdone r hr1 (by omega)

/-- After `buddyInit` every block is free. -/
theorem buddyInit_represents (t : BuddyTree) (hd : d < 31) :
    Represents d ∅ (buddyInit t (2 ^ d)) where
  node := by simp
  antichain := by simp
  size := rfl
  entry p hp := by
    have hval : nodeRun d ∅ p = 2 ^ height d p := nodeRun_full (by simp)
    have hpow : 2 * 2 ^ d = 2 ^ (d + 1) := (pow_succ' 2 d).symm
    rw [hval, buddyInit, hpow]
    apply buddyInitLoop_spec hd
    · omega
    · simp
    · intro q h1 h2
      omega
    · exact hp

/-! ### Allocation -/

/-- From an uncovered inner node with a long enough run the descent goes to a child that has one
too: to the child with the shorter run, where both have. -/
lemma buddyDescend_step (hr : Represents d live t) {k p : ℕ} (hp : IsNode d p)
    (hun : Uncovered live p) (hk : k < height d p) (hrun : 2 ^ k ≤ nodeRun d live p) :
    ∃ c, c / 2 = p ∧ IsNode d c ∧ height d p = height d c + 1 ∧ Uncovered live c ∧
      2 ^ k ≤ nodeRun d live c ∧
      (∀ s, s / 2 = p → 2 ^ k ≤ nodeRun d live s → nodeRun d live c ≤ nodeRun d live s) ∧
      ∀ fuel, buddyDescend t.longest (2 ^ k : ℕ) (fuel + 1) (2 ^ height d p) (p - 1) =
        buddyDescend t.longest (2 ^ k : ℕ) fuel (2 ^ height d c) (c - 1) := by
  obtain ⟨h, hh⟩ : ∃ h, height d p = h + 1 := ⟨height d p - 1, by omega⟩
  obtain ⟨hln, hlh⟩ := hp.left hh
  obtain ⟨hrn, hrh⟩ := hp.right hh
  have hne : ((2 ^ height d p : ℕ) : ℤ) ≠ (2 ^ k : ℕ) := by
    intro heq
    exact hk.ne' (Nat.pow_right_injective (le_refl 2) (Nat.cast_injective heq))
  have hhalf : 2 ^ height d p / 2 = 2 ^ h := by
    rw [hh, pow_succ, Nat.mul_div_cancel _ two_pos]
  have hkh : 2 ^ k ≤ 2 ^ h := Nat.pow_le_pow_right (by omega) (by omega)
  have hpar := nodeRun_parent hp hh hun
  have hll := nodeRun_le d live (2 * p)
  have hrl := nodeRun_le d live (2 * p + 1)
  have hpow : 2 ^ (h + 1) = 2 * 2 ^ h := pow_succ' 2 h
  rw [hlh] at hll
  rw [hrh] at hrl
  -- one of the children has a long enough run
  have hchild : 2 ^ k ≤ nodeRun d live (2 * p) ∨ 2 ^ k ≤ nodeRun d live (2 * p + 1) := by
    rw [hpar, combine] at hrun
    split_ifs at hrun <;> omega
  -- a child with a nonempty run is not live, so nothing above it is
  have huncover : ∀ c, c / 2 = p → 2 ^ k ≤ nodeRun d live c → Uncovered live c := by
    intro c hc hpos a ha hac
    rcases (above_iff_eq_or a c).mp hac with rfl | hs
    · rw [hr.toLiveSet.nodeRun_of_mem ha] at hpos
      have := Nat.two_pow_pos k
      omega
    · rw [strictlyAbove_iff, hc] at hs
      exact hun a ha hs
  have hleft : 2 * p / 2 = p := by omega
  have hright : (2 * p + 1) / 2 = p := by omega
  have hcases : ∀ s, s / 2 = p → s = 2 * p ∨ s = 2 * p + 1 := fun s hs => by omega
  have hstep : ∀ fuel, buddyDescend t.longest (2 ^ k : ℕ) (fuel + 1) (2 ^ height d p) (p - 1) =
      buddyDescend t.longest (2 ^ k : ℕ) fuel (2 ^ h)
        ((if nodeRun d live (2 * p) ≤ nodeRun d live (2 * p + 1) then
            if 2 ^ k ≤ nodeRun d live (2 * p) then 2 * p else 2 * p + 1
          else if 2 ^ k ≤ nodeRun d live (2 * p + 1) then 2 * p + 1 else 2 * p) - 1) := by
    intro fuel
    rw [buddyDescend, if_neg hne]
    simp only [leftLeaf_pred hp.1, rightLeaf_pred hp.1, hr.entry _ hln, hr.entry _ hrn, hhalf,
      ge_iff_le, Nat.cast_le]
    split_ifs <;> rfl
  split_ifs at hstep with h1 h2 h3
  · refine ⟨2 * p, hleft, hln, by omega, huncover _ hleft h2, h2, ?_, by rwa [hlh]⟩
    intro s hs _
    rcases hcases s hs with rfl | rfl
    · exact le_refl _
    · exact h1
  · have h3 := hchild.resolve_left h2
    refine ⟨2 * p + 1, hright, hrn, by omega, huncover _ hright h3, h3, ?_, by rwa [hrh]⟩
    intro s hs hs'
    rcases hcases s hs with rfl | rfl
    · exact absurd hs' h2
    · exact le_refl _
  · refine ⟨2 * p + 1, hright, hrn, by omega, huncover _ hright h3, h3, ?_, by rwa [hrh]⟩
    intro s hs _
    rcases hcases s hs with rfl | rfl
    · omega
    · exact le_refl _
  · have h2 := hchild.resolve_right h3
    refine ⟨2 * p, hleft, hln, by omega, huncover _ hleft h2, h2, ?_, by rwa [hlh]⟩
    intro s hs hs'
    rcases hcases s hs with rfl | rfl
    · exact le_refl _
    · exact absurd hs' h3

/-- From an uncovered node with a long enough run the descent reaches an uncovered node of exactly
the requested size that is wholly free. -/
lemma buddyDescend_spec (hr : Represents d live t) {k : ℕ} (fuel p : ℕ) (hp : IsNode d p)
    (hun : Uncovered live p) (hk : k ≤ height d p) (hrun : 2 ^ k ≤ nodeRun d live p)
    (hfuel : height d p < fuel + k) :
    ∃ q, buddyDescend t.longest (2 ^ k : ℕ) fuel (2 ^ height d p) (p - 1) = some (q - 1) ∧
      IsNode d q ∧ Uncovered live q ∧ height d q = k ∧ nodeRun d live q = 2 ^ k := by
  induction fuel generalizing p with
  | zero => omega
  | succ fuel ih =>
    by_cases hkp : height d p = k
    · refine ⟨p, ?_, hp, hun, hkp, ?_⟩
      · rw [buddyDescend, hkp, if_pos rfl]
      · have := nodeRun_le d live p
        rw [hkp] at this
        omega
    · obtain ⟨c, _, hcn, hch, hcun, hcrun, _, hstep⟩ := buddyDescend_step hr hp hun (by omega) hrun
      rw [hstep]
      exact ih c hcn hcun (by omega) hcrun (by omega)

/-- The upward pass after an allocation restores every entry. -/
lemma buddyAllocUp_spec {val : ℕ → ℕ} (fuel p : ℕ) (longest : ℕ → ℕ) (hp : IsNode d p)
    (hagree : AgreesOff (fun q => longest (q - 1)) val d p)
    (hval : ∀ q, IsNode d q → StrictlyAbove q p →
      val q = max (val (2 * q)) (val (2 * q + 1)))
    (hfuel : p ≤ fuel + 1) {q : ℕ} (hq : IsNode d q) :
    buddyAllocUp longest (p - 1) fuel (q - 1) = val q := by
  have hp1 := hp.1
  induction fuel generalizing p longest with
  | zero =>
    obtain rfl : p = 1 := by omega
    exact hagree.root hq
  | succ fuel ih =>
    by_cases h1 : p = 1
    · subst h1
      rw [buddyAllocUp, if_pos (by omega)]
      exact hagree.root hq
    · obtain ⟨hpar, hh⟩ := hp.parent h1
      have hself : StrictlyAbove (p / 2) p := (strictlyAbove_iff _ _).mpr (Above.refl _)
      rw [buddyAllocUp, if_neg (by omega)]
      simp only [parent_pred hp1, leftLeaf_pred hpar.1, rightLeaf_pred hpar.1]
      apply ih (p / 2) _ hpar
      · apply (hagree.step (f := fun _ l r => max l r) hp h1 (hval _ hpar hself)).congr
        intro r hr
        rw [update_pred hpar.1 hr.1]
        rfl
      · intro r hr hab
        exact hval r hr (hab.trans_above hself.above)
      · omega
      · exact hpar.1

/-- What `buddyAlloc` does to the tree once its descent has ended at `index`. -/
def buddyTake (t : BuddyTree) (index : ℕ) : BuddyTree :=
  { t with longest := buddyAllocUp (Function.update t.longest index 0) index index }

/-- Taking a wholly free node adds it to the live set. -/
lemma buddyTake_spec (hr : Represents d live t) {p : ℕ} (hp : IsNode d p)
    (hun : Uncovered live p) (hno : ∀ a ∈ live, ¬ Above p a) :
    Represents d (insert p live) (buddyTake t (p - 1)) := by
  have hins := hr.toLiveSet.insert hp hun hno
  have hmem : p ∈ insert p live := Finset.mem_insert_self _ _
  refine ⟨hins, hr.size, fun q hq => ?_⟩
  apply buddyAllocUp_spec _ p _ hp _ _ (by have := hp.1; omega) hq
  · intro r hrn hnot
    beta_reduce
    rw [update_pred hp.1 hrn.1]
    by_cases hrp : r = p
    · subst hrp
      rw [Function.update_self, hins.nodeRun_of_mem hmem]
    · rw [Function.update_of_ne hrp, nodeRun_insert hun hno hrp hnot]
      exact hr.entry r hrn
  · intro r hrn hab
    obtain ⟨h, hh⟩ := hp.height_of_strictlyAbove hrn hab
    exact hins.nodeRun_parent_max hmem hrn hh hab

/-- `buddyAlloc` either finds no run that is long enough, and changes nothing, or adds to the live
set an uncovered node of the rounded size that is wholly free. -/
theorem buddyAlloc_spec (hr : Represents d live t) {n : ℕ} (h1 : 1 ≤ n) (h2 : n ≤ 2 ^ 30) :
    (nodeRun d live 1 < 2 ^ Nat.clog 2 n ∧ buddyAlloc t n = some (-1, t)) ∨
    (2 ^ Nat.clog 2 n ≤ nodeRun d live 1 ∧ ∃ p t', IsNode d p ∧ Uncovered live p ∧
      (∀ a ∈ live, ¬ Above p a) ∧ height d p = Nat.clog 2 n ∧
      buddyAlloc t n = some (((p * 2 ^ height d p - 2 ^ d : ℕ) : ℤ), t') ∧
      Represents d (insert p live) t') := by
  have hroot : IsNode d 1 := ⟨le_refl 1, Nat.one_lt_two_pow (by omega)⟩
  have hlong : t.longest 0 = nodeRun d live 1 := hr.entry 1 hroot
  have hreq := buddyRequest_eq h1 h2
  set k := Nat.clog 2 n with hk
  rcases Nat.lt_or_ge (nodeRun d live 1) (2 ^ k) with hlt | hge
  · left
    refine ⟨hlt, ?_⟩
    simp only [buddyAlloc, hreq, Int.toNat_natCast]
    rw [if_pos (by omega)]
  · right
    refine ⟨hge, ?_⟩
    have hle := nodeRun_le d live 1
    rw [height_one] at hle
    have hkd : k ≤ d := (Nat.pow_le_pow_iff_right (by omega)).mp (hge.trans hle)
    have hun1 := hr.toLiveSet.uncovered_root (by have := Nat.two_pow_pos k; omega)
    have hd : d < 2 ^ d := Nat.lt_two_pow_self
    obtain ⟨p, hdesc, hp, hun, hpk, hfull⟩ := buddyDescend_spec hr (t.size + 1) 1 hroot hun1
      (by simpa using hkd) hge (by simp only [height_one, hr.size]; omega)
    rw [height_one] at hdesc
    have hno := not_above_of_full hr.toLiveSet hp hun (by rw [hfull, hpk])
    refine ⟨p, buddyTake t (p - 1), hp, hun, hno, hpk, ?_, buddyTake_spec hr hp hun hno⟩
    have hp1 := hp.1
    have hb := hp.bounds.1
    rw [hpk] at hb
    simp only [buddyAlloc, hreq, Int.toNat_natCast]
    rw [if_neg (by omega)]
    rw [hr.size] at hdesc ⊢
    rw [hdesc, hpk]
    simp only [Option.some.injEq, Prod.mk.injEq]
    refine ⟨?_, by simp only [buddyTake, hr.size]⟩
    push_cast [hb, Nat.cast_sub hp1]
    ring

/-! ### Freeing -/

/-- From a node at or below a live node the search stops at that live node, with its size. -/
lemma buddyFreeSearch_spec (hr : Represents d live t) {a : ℕ} (ha : a ∈ live) (fuel q : ℕ)
    (hq : IsNode d q) (hab : Above a q) (hfuel : q ≤ fuel) :
    buddyFreeSearch t.longest fuel (q - 1) (2 ^ height d q) =
      some (a - 1, 2 ^ height d a) := by
  induction fuel generalizing q with
  | zero =>
    have := hq.1
    omega
  | succ fuel ih =>
    rcases (above_iff_eq_or a q).mp hab with rfl | hs
    · rw [buddyFreeSearch, hr.entry a hq, hr.toLiveSet.nodeRun_of_mem ha, if_pos rfl]
    · have hlt := hs.lt (hr.node a ha).1
      have ha1 := (hr.node a ha).1
      obtain ⟨hpar, hh⟩ := hq.parent (by omega)
      have hne : nodeRun d live q ≠ 0 := by
        rw [nodeRun_below ⟨a, ha, hs⟩]
        have := Nat.two_pow_pos (height d q)
        omega
      rw [buddyFreeSearch, hr.entry q hq, if_neg hne, if_neg (by omega), parent_pred hq.1,
        ← pow_succ, ← hh]
      exact ih (q / 2) hpar ((strictlyAbove_iff a q).mp hs) (by omega)

/-- The upward pass after a free restores every entry. -/
lemma buddyFreeUp_spec {val : ℕ → ℕ} (fuel p : ℕ) (longest : ℕ → ℕ) (hp : IsNode d p)
    (hagree : AgreesOff (fun q => longest (q - 1)) val d p)
    (hval : ∀ q, IsNode d q → StrictlyAbove q p →
      val q = combine (2 ^ height d q) (val (2 * q)) (val (2 * q + 1)))
    (hfuel : p ≤ fuel + 1) {q : ℕ} (hq : IsNode d q) :
    buddyFreeUp longest (p - 1) (2 ^ height d p) fuel (q - 1) = val q := by
  have hp1 := hp.1
  induction fuel generalizing p longest with
  | zero =>
    obtain rfl : p = 1 := by omega
    exact hagree.root hq
  | succ fuel ih =>
    by_cases h1 : p = 1
    · subst h1
      rw [buddyFreeUp, if_pos (by omega)]
      exact hagree.root hq
    · obtain ⟨hpar, hh⟩ := hp.parent h1
      have hself : StrictlyAbove (p / 2) p := (strictlyAbove_iff _ _).mpr (Above.refl _)
      rw [buddyFreeUp, if_neg (by omega)]
      simp only [parent_pred hp1, leftLeaf_pred hpar.1, rightLeaf_pred hpar.1, ← pow_succ, ← hh]
      apply ih (p / 2) _ hpar
      · apply (hagree.step (f := fun q l r => combine (2 ^ height d q) l r) hp h1
          (hval _ hpar hself)).congr
        intro r hr
        rw [update_pred hpar.1 hr.1]
        rfl
      · intro r hr hab
        exact hval r hr (hab.trans_above hself.above)
      · omega
      · exact hpar.1

/-- `buddyFree` of any block of a live node makes exactly that node free. -/
theorem buddyFree_spec (hr : Represents d live t) {a b : ℕ} (ha : a ∈ live) (hb : b < 2 ^ d)
    (hab : Above a (b + 2 ^ d)) : Represents d (live.erase a) (buddyFree t b) := by
  have hleaf : IsNode d (b + 2 ^ d) := by
    have hpow : 2 ^ (d + 1) = 2 * 2 ^ d := pow_succ' 2 d
    have := Nat.two_pow_pos d
    exact ⟨by omega, by omega⟩
  have hzero : height d (b + 2 ^ d) = 0 := by
    have hlog : Nat.log 2 (b + 2 ^ d) = d := by
      have hpow : 2 ^ (d + 1) = 2 * 2 ^ d := pow_succ' 2 d
      rw [Nat.log_eq_iff (.inr ⟨by omega, by have := Nat.two_pow_pos d; omega⟩)]
      omega
    rw [height, hlog, Nat.sub_self]
  have hpos := Nat.two_pow_pos d
  have han := hr.node a ha
  have hsearch := buddyFreeSearch_spec hr ha (b + 2 ^ d - 1 + 1) _ hleaf hab (by omega)
  rw [hzero, pow_zero] at hsearch
  -- the live set before the free is the one after it with `a` added
  have hlive := hr.toLiveSet
  have herase := hlive.erase a
  have hun : Uncovered (live.erase a) a := by
    intro c hc hca
    exact Finset.ne_of_mem_erase hc (hlive.antichain c (Finset.mem_of_mem_erase hc) a ha hca)
  have hno : ∀ c ∈ live.erase a, ¬ Above a c := by
    intro c hc hac
    exact Finset.ne_of_mem_erase hc (hlive.antichain a ha c (Finset.mem_of_mem_erase hc) hac).symm
  have hins : insert a (live.erase a) = live := Finset.insert_erase ha
  simp only [buddyFree, hr.size, hsearch]
  refine ⟨herase, rfl, ?_⟩
  intro q hq
  apply buddyFreeUp_spec _ a _ han _ _ (by have := han.1; omega) hq
  · intro r hrn hnot
    beta_reduce
    rw [update_pred han.1 hrn.1]
    by_cases hra : r = a
    · subst hra
      rw [Function.update_self, nodeRun_full hno]
    · rw [Function.update_of_ne hra, ← nodeRun_insert hun hno hra hnot, hins]
      exact hr.entry r hrn
  · intro r hrn hab'
    obtain ⟨h, hh⟩ := han.height_of_strictlyAbove hrn hab'
    rw [hh]
    exact nodeRun_parent hrn hh (hun.of_above hab'.above)

end Jokerix
