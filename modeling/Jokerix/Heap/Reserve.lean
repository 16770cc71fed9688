import Jokerix.Heap.FreeAny

/-!
# How much `kalloc` reserves

What a request needs is the least power of two of blocks that covers it. The test of `kalloc` for a
remainder holds of every size, so a request that is itself a power of two of whole blocks is given
twice that.
-/

namespace Jokerix

open TreeArray

/-- A call with `size` reserves exactly an aligned free run of `k` blocks, and fails only when there
is none. -/
structure Reserves (h : KernelHeap) (size : BitVec 32) (k : ℕ) : Prop where
  run : ∀ ptr h', kalloc h size = .ok (ptr, h') → ∃ o, ptr = h.region.base + o * minBlockSize ∧
    WhollyFree h.tree k o ∧
    ∀ b < heapBlockNum, Occupied h'.tree b ↔ Occupied h.tree b ∨ b ∈ blockSet (o, k)
  full : ∀ e, kalloc h size = .error e → ¬ ∃ o, WhollyFree h.tree k o

/-- The blocks that cover a request, before rounding. -/
def coveringBlocks (size : BitVec 32) : ℕ := (size.toInt.toNat + minBlockSize - 1) / minBlockSize

section
variable {h : KernelHeap} {blocks : List (ℕ × ℕ)} {size : BitVec 32}

lemma Holds.tree_size (hh : Holds h blocks) : h.tree.size = heapBlockNum := by
  obtain ⟨nodes, _, hr, _⟩ := hh
  exact hr.size

/-- `kalloc` reserves the rounding of the blocks it asks for. -/
lemma Holds.reserves (hh : Holds h blocks) (hpos : 0 < size.toInt) :
    Reserves h size (2 ^ Nat.clog 2 (kallocBlocks size)) := by
  obtain ⟨nodes, _, hr, _⟩ := hh
  have hfree := hr.exists_whollyFree_iff (Nat.clog 2 (kallocBlocks size))
  rcases kalloc_spec hr hpos with ⟨hlt, herr⟩ | ⟨p, tree, hp, hun, hno, hbytes, hr', hok⟩
  · constructor
    · intro ptr h' hok
      rw [herr] at hok
      cases hok
    · intro e _
      rw [hfree]
      omega
  · constructor
    · intro ptr h' hok'
      rw [hok] at hok'
      cases hok'
      have hsize : 2 ^ height heapDepth p = 2 ^ Nat.clog 2 (kallocBlocks size) := by
        rw [kallocBytes_eq hpos, nodeBytes] at hbytes
        exact Nat.eq_of_mul_eq_mul_right (by decide) hbytes
      have hblock : nodeBlock heapDepth p =
          (nodeOffset p, 2 ^ Nat.clog 2 (kallocBlocks size)) := by
        rw [nodeBlock, hsize, nodeOffset_eq hp, hsize]
      obtain ⟨hdvd, hfit⟩ := nodeBlock_aligned hp
      rw [hblock] at hdvd hfit
      refine ⟨nodeOffset p, rfl, ⟨hdvd, by rw [hr.size]; exact hfit, ?_⟩, ?_⟩
      · rw [← hblock]
        exact (hr.freeNode_iff hp).mp fun a ha => ⟨hun a ha, hno a ha⟩
      · intro b hb
        rw [hr'.occupied_iff hb, hr.occupied_iff hb, ← hblock, Finset.exists_mem_insert, or_comm]
    · intro e herr
      rw [hok] at herr
      cases herr

/-- A free run contains one of half its length. -/
lemma WhollyFree.half {t : BuddyTree} {k o : ℕ} (hw : WhollyFree t (2 * k) o) :
    WhollyFree t k o := by
  obtain ⟨hdvd, hfit, hfree⟩ := hw
  refine ⟨(Nat.dvd_mul_left k 2).trans hdvd, by omega, fun b hb => hfree b ?_⟩
  simp only [blockSet, Set.mem_Ico] at hb ⊢
  omega

lemma kallocBlocks_eq (hpos : 0 < size.toInt) :
    kallocBlocks size = size.toInt.toNat / minBlockSize + 1 := by
  have hne : size.toInt ≠ 0 ∧ minBlockSize - 1 ≠ 0 := ⟨by omega, by decide⟩
  rw [kallocBlocks, if_pos hne]
  simp only [minBlockSize]
  omega

/-- Unless the size is a power of two of whole blocks, the rounding is the one that is needed. -/
lemma clog_kallocBlocks_eq (hpos : 0 < size.toInt)
    (hne : ¬ ∃ j, size.toInt = minBlockSize * 2 ^ j) :
    Nat.clog 2 (kallocBlocks size) = Nat.clog 2 (coveringBlocks size) := by
  obtain ⟨n, hn⟩ : ∃ n : ℕ, size.toInt = n := ⟨size.toInt.toNat, by omega⟩
  rw [kallocBlocks_eq hpos, coveringBlocks]
  rw [hn] at hpos hne ⊢
  rw [Int.toNat_natCast]
  by_cases hdvd : minBlockSize ∣ n
  · obtain ⟨m, rfl⟩ := hdvd
    have hdiv : minBlockSize * m / minBlockSize = m := Nat.mul_div_cancel_left m (by decide)
    have hceil : (minBlockSize * m + minBlockSize - 1) / minBlockSize = m := by
      simp only [minBlockSize]
      omega
    have hm : 2 ^ Nat.clog 2 m ≠ m := by
      intro heq
      exact hne ⟨Nat.clog 2 m, by exact_mod_cast congrArg (minBlockSize * ·) heq.symm⟩
    rw [hdiv, hceil]
    exact ((Nat.clog_eq_clog_succ_iff (by omega)).mpr hm).symm
  · -- a remainder takes one block more
    have hceil : (n + minBlockSize - 1) / minBlockSize = n / minBlockSize + 1 := by
      simp only [minBlockSize] at hdvd ⊢
      omega
    rw [hceil]

/-- A power of two of whole blocks is asked for with one block more, which doubles it. -/
lemma clog_kallocBlocks_pow (j : ℕ) (hsize : size.toInt = minBlockSize * 2 ^ j) :
    coveringBlocks size = 2 ^ j ∧ Nat.clog 2 (kallocBlocks size) = j + 1 := by
  have hpow := Nat.two_pow_pos j
  have hnat : size.toInt.toNat = minBlockSize * 2 ^ j := by
    rw [hsize]
    exact_mod_cast Int.toNat_natCast (minBlockSize * 2 ^ j)
  have hpos : 0 < size.toInt := by
    rw [hsize]
    simp only [minBlockSize]
    positivity
  constructor
  · rw [coveringBlocks, hnat]
    simp only [minBlockSize]
    omega
  · have hlog := Nat.clog_pow 2 j (by omega)
    rw [kallocBlocks_eq hpos, hnat, Nat.mul_div_cancel_left _ (by decide)]
    apply le_antisymm
    · apply Nat.clog_le_of_le_pow
      rw [pow_succ]
      omega
    · rw [Nat.succ_le_iff, Nat.lt_clog_iff_pow_lt (by omega)]
      omega

end

/-- In every heap that calls lead to, a request reserves the least power of two of blocks that
covers it, and fails only without such a run, exactly when it is not itself a power of two of whole
blocks or no such run is free. -/
theorem kalloc_reserves_iff (h : KernelHeap) (calls : List HeapCall) (s : HeapBlocks)
    (hrun : callRun ⟨initHeap h, []⟩ calls = some s) (size : BitVec 32) (hpos : 0 < size.toInt)
    (k : ℕ) (hk : IsLeast {m : ℕ | m.isPowerOfTwo ∧ coveringBlocks size ≤ m} k) :
    Reserves s.heap size k ↔
      (¬ ∃ j, size.toInt = minBlockSize * 2 ^ j) ∨ ¬ ∃ o, WhollyFree s.heap.tree k o := by
  obtain ⟨hh, _⟩ := (holds_initHeap h).callRun (s := ⟨initHeap h, []⟩) hrun
  have hres := hh.reserves hpos
  obtain rfl : k = 2 ^ Nat.clog 2 (coveringBlocks size) := hk.unique (PowTwo.isLeast_pow_clog _)
  by_cases hsize : ∃ j, size.toInt = minBlockSize * 2 ^ j
  · obtain ⟨j, hj⟩ := hsize
    obtain ⟨hcover, hclog⟩ := clog_kallocBlocks_pow j hj
    rw [hcover, Nat.clog_pow 2 j (by omega)]
    rw [hclog, pow_succ'] at hres
    constructor
    · intro hleast
      right
      intro hfree
      rcases hok : kalloc s.heap size with e | ⟨ptr, h'⟩
      · exact hleast.full e hok hfree
      · -- the code occupies the second half of the run, which `Reserves` leaves alone
        obtain ⟨o, hptr, hwf, hocc⟩ := hres.run ptr h' hok
        obtain ⟨o', hptr', _, hocc'⟩ := hleast.run ptr h' hok
        have hpow := Nat.two_pow_pos j
        obtain rfl : o = o' := by
          simp only [minBlockSize] at hptr hptr'
          omega
        obtain ⟨_, hfit, hfree'⟩ := hwf
        have hsize := hh.tree_size
        have hlast : o + 2 ^ j ∈ blockSet (o, 2 * 2 ^ j) := ⟨by simp, by simp only; omega⟩
        rw [hsize] at hfit
        have h1 := (hocc (o + 2 ^ j) (by omega)).mpr (.inr hlast)
        rcases (hocc' (o + 2 ^ j) (by omega)).mp h1 with h2 | h2
        · exact hfree' _ hlast h2
        · exact absurd h2.2 (by simp)
    · rintro (hne | hno)
      · exact absurd ⟨j, hj⟩ hne
      · refine ⟨fun ptr h' hok => ?_, fun _ _ => hno⟩
        obtain ⟨o, _, hwf, _⟩ := hres.run ptr h' hok
        exact absurd ⟨o, hwf.half⟩ hno
  · rw [clog_kallocBlocks_eq hpos hsize] at hres
    exact iff_of_true hres (.inl hsize)

/-- After two other calls `kalloc(100)` succeeds, and reserves two blocks. -/
theorem kalloc_reserves_iff_100 : ∃ s ptr h',
    callRun ⟨initHeap sampleHeap, []⟩ [.kalloc 64, .kalloc 5000] = some s ∧
    s.blocks.length = 2 ∧ kalloc s.heap 100 = .ok (ptr, h') ∧ Reserves s.heap 100 2 := by
  have hk : IsLeast {m : ℕ | m.isPowerOfTwo ∧ coveringBlocks 100 ≤ m} 2 := by
    have h := PowTwo.isLeast_pow_clog (coveringBlocks 100)
    have hcover : coveringBlocks 100 = 2 := by decide
    rwa [hcover, show 2 ^ Nat.clog 2 2 = 2 by decide, ← hcover] at h
  obtain ⟨p, h₁, hp, _, hh₁, hroom⟩ := (holds_initHeap sampleHeap).kalloc_roomy (n := 0) 64
    ⟨le_rfl, by simp⟩ (by decide) (by decide) (by decide)
  obtain ⟨q, h₂, hq, _, hh₂, hroom⟩ := hh₁.kalloc_roomy 5000 hroom (by decide)
    (by decide) (by decide)
  obtain ⟨ptr, h', hok, _⟩ := hh₂.kalloc_roomy 100 hroom (by decide) (by decide) (by decide)
  have hrun : callRun ⟨initHeap sampleHeap, []⟩ [.kalloc 64, .kalloc 5000] =
      some ⟨h₂, [(q, kallocBytes 5000), (p, kallocBytes 64)]⟩ := by
    rw [callRun_kalloc (by decide) hp, callRun_kalloc (by decide) hq]
    rfl
  refine ⟨_, ptr, h', hrun, rfl, hok,
    (kalloc_reserves_iff sampleHeap _ _ hrun 100 (by decide) 2 hk).mpr (.inl ?_)⟩
  rintro ⟨j, hj⟩
  rw [show (100 : BitVec 32).toInt = 100 by decide, minBlockSize] at hj
  omega

/-- On the empty heap a request for all of `HEAP` panics, although the run of all blocks is free. -/
theorem kalloc_whole_heap_panics :
    kalloc (initHeap sampleHeap) 0x800000 = .error (.panic "Malloc failed!\n") ∧
      coveringBlocks 0x800000 = heapBlockNum ∧
      WhollyFree (initHeap sampleHeap).tree heapBlockNum 0 ∧
      ¬ Reserves (initHeap sampleHeap) 0x800000 heapBlockNum := by
  have hr := initHeap_represents sampleHeap
  have hfree : WhollyFree (initHeap sampleHeap).tree heapBlockNum 0 :=
    hr.whollyFree_iff.mpr ⟨Nat.dvd_zero _, by decide, by simp⟩
  have herr : kalloc (initHeap sampleHeap) 0x800000 = .error (.panic "Malloc failed!\n") := by
    obtain ⟨_, hclog⟩ := clog_kallocBlocks_pow 17
      (show (0x800000 : BitVec 32).toInt = _ by decide)
    rcases kalloc_spec hr (show 0 < (0x800000 : BitVec 32).toInt by decide) with
      ⟨_, herr⟩ | ⟨p, _, _, _, _, hbytes, _⟩
    · exact herr
    · -- no node has more blocks than there are
      rw [kallocBytes_eq (by decide), hclog, nodeBytes] at hbytes
      have hle : 2 ^ height heapDepth p ≤ 2 ^ heapDepth :=
        Nat.pow_le_pow_right (by omega) (Nat.sub_le _ _)
      have heq := Nat.eq_of_mul_eq_mul_right (by decide) hbytes
      simp only [heapDepth] at hle heq
      omega
  exact ⟨herr, by decide, hfree, fun hres => hres.full _ herr ⟨0, hfree⟩⟩

end Jokerix
