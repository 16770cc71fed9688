import Jokerix.Heap.BuddyRuns

/-!
# The smaller branch first

The descent of `buddyAlloc` prefers, among two children that are large enough, the one with the
shorter longest run. By induction on the tree, no other run of the requested size leaves a longer
run to the whole tree than the one it takes.
-/

namespace Jokerix

open TreeArray

section
variable {d k : ℕ} {live : Finset ℕ} {t : BuddyTree} {p q r c s : ℕ}

/-! ### Taking a node under a node -/

/-- Nothing is above both of two siblings' descendants. -/
lemma not_above_sibling (hp : 1 ≤ p) (hc : c / 2 = p) (hs : s / 2 = p) (hne : s ≠ c)
    (hr : Above c r) : ¬ Above s r := by
  intro hsr
  have key : ∀ {x y}, x / 2 = p → y / 2 = p → x ≠ y → ¬ Above x y := by
    intro x y hx hy hxy hab
    rcases (above_iff_eq_or x y).mp hab with h | h
    · exact hxy h
    · rw [strictlyAbove_iff, hy] at h
      have := h.le
      omega
  rcases hr.comparable hsr with h | h
  · exact key hc hs hne.symm h
  · exact key hs hc hne h

/-- A node under an inner node, other than itself, is under one of its children. -/
lemma exists_child_above (hp : IsNode d p) (hr : IsNode d r) (hne : r ≠ p) (hab : Above p r) :
    ∃ c, c / 2 = p ∧ Above c r := by
  have hs : StrictlyAbove p r := by
    rcases (above_iff_eq_or p r).mp hab with h | h
    · exact absurd h.symm hne
    · exact h
  obtain ⟨h, hh⟩ := hr.height_of_strictlyAbove hp hs
  have hu := hr.under hp hab
  rw [hh] at hu
  rcases (under_succ h p r).mp hu with heq | hu | hu
  · exact absurd heq hne
  · exact ⟨2 * p, by omega, hu.above⟩
  · exact ⟨2 * p + 1, by omega, hu.above⟩

lemma FreeNode.uncovered (hf : FreeNode live q) : Uncovered live q := fun a ha => (hf a ha).1

lemma FreeNode.not_above (hf : FreeNode live q) : ∀ a ∈ live, ¬ Above q a := fun a ha => (hf a ha).2

/-- Taking a node makes no run under an uncovered node longer. -/
lemma nodeRun_insert_le (hl : LiveSet d live) (hq : IsNode d q) (hf : FreeNode live q)
    (hp : IsNode d p) (hun : Uncovered live p) (hab : Above p q) :
    nodeRun d (insert q live) p ≤ nodeRun d live p := by
  have hins := hl.insert hq hf.uncovered hf.not_above
  have hnb : ¬ ∃ a ∈ insert q live, StrictlyAbove a p := by
    rintro ⟨a, ha, hs⟩
    rcases Finset.mem_insert.mp ha with rfl | ha
    · have h1 := hs.lt hq.1
      have h2 := hab.le
      omega
    · exact hun a ha hs.above
  apply (hl.nodeRun_isGreatest hp hun.not_below).2
  rcases (hins.nodeRun_isGreatest hp hnb).1 with h0 | ⟨x, hx, hpx, hxf, hval⟩
  · exact .inl h0
  · exact .inr ⟨x, hx, hpx, fun a ha => hxf a (Finset.mem_insert_of_mem ha), hval⟩

/-- A free node under an uncovered one makes its run at least as long. -/
lemma le_nodeRun (hl : LiveSet d live) (hq : IsNode d q) (hf : FreeNode live q) (hp : IsNode d p)
    (hun : Uncovered live p) (hab : Above p q) : 2 ^ height d q ≤ nodeRun d live p :=
  (hl.nodeRun_isGreatest hp hun.not_below).2 (.inr ⟨q, hq, hab, hf, rfl⟩)

/-- With a free node below a child taken, the parent's run is the longer of that child's and its
sibling's, which does not change. -/
lemma nodeRun_insert_parent (hl : LiveSet d live) (hp : IsNode d p) (hq : IsNode d q)
    (hf : FreeNode live q) (hc : c / 2 = p) (hs : s / 2 = p) (hne : s ≠ c) (hab : Above c q) :
    nodeRun d (insert q live) p = max (nodeRun d (insert q live) c) (nodeRun d live s) := by
  have hins := hl.insert hq hf.uncovered hf.not_above
  have hp1 := hp.1
  have hpq : StrictlyAbove p q := by
    have hpc : StrictlyAbove p c := (strictlyAbove_iff p c).mpr (hc ▸ Above.refl p)
    exact hpc.trans_above hab
  obtain ⟨h, hh⟩ := hq.height_of_strictlyAbove hp hpq
  have hnot := not_above_sibling hp1 hc hs hne hab
  have hsib : nodeRun d (insert q live) s = nodeRun d live s :=
    nodeRun_insert hf.uncovered hf.not_above (fun h => hnot (h ▸ Above.refl _))
      fun h => hnot h.above
  have hmax := hins.nodeRun_parent_max (Finset.mem_insert_self q live) hp hh hpq
  rw [hmax, ← hsib]
  rcases (by omega : c = 2 * p ∨ c = 2 * p + 1) with rfl | rfl
  · obtain rfl : s = 2 * p + 1 := by omega
    rfl
  · obtain rfl : s = 2 * p := by omega
    rw [max_comm]

/-- The node the descent ends at leaves as long a run as any other free node of its size. -/
lemma buddyDescend_best (hr : Represents d live t) (fuel p : ℕ) (hp : IsNode d p)
    (hun : Uncovered live p) (hk : k ≤ height d p) (hrun : 2 ^ k ≤ nodeRun d live p)
    (hfuel : height d p < fuel + k) :
    ∃ q, buddyDescend t.longest (2 ^ k : ℕ) fuel (2 ^ height d p) (p - 1) = some (q - 1) ∧
      IsNode d q ∧ Above p q ∧ FreeNode live q ∧ height d q = k ∧
      ∀ r, IsNode d r → Above p r → FreeNode live r → height d r = k →
        nodeRun d (insert r live) p ≤ nodeRun d (insert q live) p := by
  induction fuel generalizing p with
  | zero => omega
  | succ fuel ih =>
    by_cases hkp : height d p = k
    · have hfull : nodeRun d live p = 2 ^ height d p := by
        have := nodeRun_le d live p
        rw [hkp] at this ⊢
        omega
      have hno := not_above_of_full hr.toLiveSet hp hun hfull
      refine ⟨p, ?_, hp, Above.refl p, fun a ha => ⟨hun a ha, hno a ha⟩, hkp, ?_⟩
      · rw [buddyDescend, hkp, if_pos rfl]
      · -- no other node below `p` has its height
        intro r hrn hab _ hrk
        rw [hrn.eq_of_height hp hab (by omega)]
    · obtain ⟨c, hc, hcn, hch, hcun, hcrun, hshort, hstep⟩ :=
        buddyDescend_step hr hp hun (by omega) hrun
      obtain ⟨q, hdesc, hq, hcq, hqf, hqk, hbest⟩ := ih c hcn hcun (by omega) hcrun (by omega)
      have hpc : Above p c := (strictlyAbove_iff p c).mpr (hc ▸ Above.refl p) |>.above
      refine ⟨q, (hstep fuel).trans hdesc, hq, hpc.trans hcq, hqf, hqk, ?_⟩
      intro r hrn hab hrf hrk
      have hp1 := hp.1
      obtain ⟨e, he, her⟩ := exists_child_above hp hrn (fun h => hkp (h ▸ hrk)) hab
      obtain ⟨s, hs, hsc⟩ : ∃ s, s / 2 = p ∧ s ≠ c := by
        rcases (by omega : c = 2 * p ∨ c = 2 * p + 1) with rfl | rfl
        · exact ⟨2 * p + 1, by omega, by omega⟩
        · exact ⟨2 * p, by omega, by omega⟩
      rw [nodeRun_insert_parent hr.toLiveSet hp hq hqf hc hs hsc hcq]
      by_cases hec : e = c
      · -- the other node is below the same child
        subst hec
        rw [nodeRun_insert_parent hr.toLiveSet hp hrn hrf he hs hsc her]
        exact max_le_max (hbest r hrn her hrf hrk) (le_refl _)
      · -- it is below the sibling, whose run is not the shorter one
        obtain rfl : e = s := by omega
        have hen : IsNode d e := hrn.above her (by omega)
        have heun : Uncovered live e := hrf.uncovered.of_above her
        rw [nodeRun_insert_parent hr.toLiveSet hp hrn hrf he hc (Ne.symm hsc) her]
        have hle := nodeRun_insert_le hr.toLiveSet hrn hrf hen heun her
        have hge := le_nodeRun hr.toLiveSet hrn hrf hen heun her
        have := hshort e he (hrk ▸ hge)
        exact (max_le hle this).trans (le_max_right _ _)

end

/-- The index of the node of the run of `k` blocks from `o` on. -/
def runIndex (t : BuddyTree) (k o : ℕ) : ℕ := (o + t.size) / k - 1

lemma runIndex_nodeBlock {d p : ℕ} {live : Finset ℕ} {t : BuddyTree} (hr : Represents d live t)
    (hp : IsNode d p) : runIndex t (nodeBlock d p).2 (nodeBlock d p).1 = p - 1 := by
  rw [runIndex, hr.size]
  exact congrArg (· - 1) (blockNode_nodeBlock hp)

/-- In every reachable tree, of all free runs of the requested size the one that `buddyAlloc` takes
leaves the longest run to allocate from. -/
theorem buddyAlloc_keeps_largest {d : ℕ} (hd : d < 31) (t : BuddyTree) (ops : List BuddyOp)
    (s : BuddyState) (hrun : buddyRun (buddyStart t (2 ^ d)) ops = some s) (size : BitVec 32)
    (offset : ℤ) (tree : BuddyTree) (hok : buddyAlloc s.tree size.toInt = some (offset, tree))
    (hne : offset ≠ -1) {k : ℕ} (hk : buddyRequest size.toInt = k) :
    WhollyFree s.tree k offset.toNat ∧
      tree = buddyTake s.tree (runIndex s.tree k offset.toNat) ∧
      ∀ o, WhollyFree s.tree k o →
        (buddyTake s.tree (runIndex s.tree k o)).longest 0 ≤ tree.longest 0 := by
  obtain ⟨nodes, hr, _⟩ := (buddyInv_start t hd).run hrun
  have hroot : IsNode d 1 := ⟨le_refl 1, Nat.one_lt_two_pow (by omega)⟩
  rcases buddyAlloc_cases s.tree size with hnone | ⟨n, h1, h2, hreq⟩
  · rw [hnone] at hok
    cases hok
  obtain rfl : k = 2 ^ Nat.clog 2 n := by
    rw [hreq, buddyRequest_eq h1 h2] at hk
    exact_mod_cast hk.symm
  rw [buddyAlloc_congr s.tree hreq] at hok
  rcases buddyAlloc_spec hr h1 h2 with ⟨_, hfail⟩ | ⟨hge, _⟩
  · rw [hfail] at hok
    cases hok
    exact absurd rfl hne
  obtain ⟨index, hdesc, hoff, rfl⟩ := buddyDescend_of_alloc hok hne
  have hheight : Nat.clog 2 n ≤ height d 1 := by
    have hle := nodeRun_le d nodes 1
    exact (Nat.pow_le_pow_iff_right (by omega : 1 < 2)).mp (hge.trans hle)
  have hun : Uncovered nodes 1 :=
    hr.toLiveSet.uncovered_root (by have := Nat.two_pow_pos (Nat.clog 2 n); omega)
  have hlt : d < 2 ^ d := Nat.lt_two_pow_self
  obtain ⟨q, hdesc', hq, _, hqf, hqk, hbest⟩ := buddyDescend_best hr (s.tree.size + 1) 1 hroot hun
    hheight hge (by rw [height_one, hr.size]; omega)
  rw [height_one, ← hr.size] at hdesc'
  rw [buddyRequest_eq h1 h2] at hdesc hoff
  obtain rfl : index = q - 1 := by
    rw [hdesc'] at hdesc
    exact (Option.some.inj hdesc).symm
  have hblock : nodeBlock d q = (offset.toNat, 2 ^ Nat.clog 2 n) := by
    have hq1 := hq.1
    have hlow := hq.bounds.1
    rw [hqk] at hlow
    rw [nodeBlock, hqk, Prod.mk.injEq]
    refine ⟨?_, rfl⟩
    have hcast : offset = ((q * 2 ^ Nat.clog 2 n - 2 ^ d : ℕ) : ℤ) := by
      rw [hoff, hr.size]
      push_cast [hlow, Nat.cast_sub hq1]
      ring
    rw [hcast, Int.toNat_natCast]
  -- a free run is the run of a free node of the requested height
  have hlongest : ∀ r, IsNode d r → FreeNode nodes r →
      (buddyTake s.tree (r - 1)).longest 0 = nodeRun d (insert r nodes) 1 := fun r hrn hrf =>
    (buddyTake_spec hr hrn hrf.uncovered hrf.not_above).entry 1 hroot
  have hindex := runIndex_nodeBlock hr hq
  obtain ⟨hdvd, hfit⟩ := nodeBlock_aligned hq
  have hfree := (hr.freeNode_iff hq).mp hqf
  rw [hblock] at hindex hdvd hfit hfree
  refine ⟨⟨hdvd, by rw [hr.size]; exact hfit, hfree⟩, by rw [hindex], ?_⟩
  rintro o ⟨hodvd, hofit, hofree⟩
  rw [hr.size] at hofit
  obtain ⟨r, hrn, hrk, hrblock⟩ := exists_nodeBlock hodvd hofit
  have hrf : FreeNode nodes r := (hr.freeNode_iff hrn).mpr (by rw [hrblock]; exact hofree)
  have hrindex := runIndex_nodeBlock hr hrn
  rw [hrblock] at hrindex
  rw [hrindex, hlongest r hrn hrf, hlongest q hq hqf]
  exact hbest r hrn (above_one hrn.1) hrf hrk

/-- Of four blocks with the first one allocated, taking the second one leaves two together; no other
choice leaves more. -/
theorem buddyAlloc_keeps_largest_second : ∃ s tree,
    buddyRun (buddyStart sampleTree (2 ^ 2)) [.alloc 1] = some s ∧
      buddyAlloc s.tree 1 = some (1, tree) ∧ tree.longest 0 = 2 ∧
      ∀ o, WhollyFree s.tree 1 o → (buddyTake s.tree (runIndex s.tree 1 o)).longest 0 ≤ 2 := by
  have hone : (1 : BitVec 32).toInt = 1 := by decide
  obtain ⟨s, hs, tree, hok, hlong⟩ : ∃ s,
      buddyRun (buddyStart sampleTree (2 ^ 2)) [.alloc 1] = some s ∧ ∃ tree,
        buddyAlloc s.tree (1 : BitVec 32).toInt = some (1, tree) ∧ tree.longest 0 = 2 :=
    ⟨_, rfl, _, rfl, by decide +kernel⟩
  obtain ⟨_, _, hbest⟩ := buddyAlloc_keeps_largest (by decide) sampleTree _ s hs 1 1 tree hok
    (by decide) (k := 1) (by decide)
  rw [hlong] at hbest
  exact ⟨s, tree, hs, hok, hlong, hbest⟩

end Jokerix
