import Jokerix.Memory.FrameInvariant
import Mathlib.Data.Nat.Log

/-!
# Runs of the page-frame allocator

`newAllocator` builds a segment tree whose free frames lie in the managed range, and every sequence
of `alloc` and `dealloc` after it hands out the least free frame and takes frames back one by one.
-/

namespace Jokerix

open TreeArray

/-! ### The loops of `newAllocator` -/

/-- The search ends at the least power of two that leaves room for two more leaves. -/
lemma growSingle_eq (length fuel : ℕ) {p k : ℕ} (hp : p = 2 ^ k)
    (hk : k ≤ Nat.clog 2 ((length + 2) % 2 ^ 64))
    (hfuel : Nat.clog 2 ((length + 2) % 2 ^ 64) < k + fuel) :
    growSingle length fuel p = some (2 ^ Nat.clog 2 ((length + 2) % 2 ^ 64)) := by
  induction fuel generalizing p k with
  | zero => omega
  | succ fuel ih =>
    have hiff : 2 ^ k < (length + 2) % 2 ^ 64 ↔ k < Nat.clog 2 ((length + 2) % 2 ^ 64) := by
      rw [← not_le, ← not_le, Nat.clog_le_iff_le_pow (by omega)]
    subst hp
    rw [growSingle]
    by_cases hlt : k < Nat.clog 2 ((length + 2) % 2 ^ 64)
    · rw [if_pos (hiff.mpr hlt)]
      exact ih (pow_succ 2 k).symm hlt (by omega)
    · rw [if_neg (mt hiff.mp hlt), le_antisymm hk (not_lt.mp hlt)]

lemma growSingle_pow {length p fuel first : ℕ} (hp : ∃ k, p = 2 ^ k)
    (h : growSingle length fuel p = some first) :
    (∃ d, first = 2 ^ d) ∧ (length + 2) % 2 ^ 64 ≤ first := by
  induction fuel generalizing p with
  | zero => cases h
  | succ fuel ih =>
    rw [growSingle] at h
    split_ifs at h with hlt
    · obtain ⟨k, rfl⟩ := hp
      exact ih ⟨k + 1, (pow_succ 2 k).symm⟩ h
    · obtain rfl := Option.some.inj h
      exact ⟨hp, not_lt.mp hlt⟩

lemma setNodes_apply (node : ℕ → ℕ) (i v n q : ℕ) :
    setNodes node i v n q = if i ≤ q ∧ q < i + n then v else node q := by
  induction n generalizing node i with
  | zero => rw [setNodes, if_neg (by omega)]
  | succ n ih =>
    rw [setNodes, ih, Function.update_apply]
    by_cases hq : q = i
    · rw [if_neg (by omega), if_pos hq, if_pos (by omega)]
    · rw [if_neg hq]
      congr 1
      exact propext ⟨fun h => by omega, fun h => by omega⟩

/-- Filling the inner nodes from the last one down to the root. -/
lemma buildNodes_apply {d i : ℕ} {node val : ℕ → ℕ} (hi : i < 2 ^ d)
    (hdone : ∀ q, IsNode d q → i < q → node q = val q)
    (hval : ∀ q, IsNode d q → q < 2 ^ d → val q = val (2 * q) &&& val (2 * q + 1)) {q : ℕ}
    (hq : IsNode d q) : buildNodes node i q = val q := by
  have hpow : 2 ^ (d + 1) = 2 * 2 ^ d := pow_succ' 2 d
  induction i generalizing node with
  | zero => exact hdone q hq hq.1
  | succ i ih =>
    rw [buildNodes]
    apply ih (by omega)
    intro r hr hlt
    by_cases hri : r = i + 1
    · subst hri
      rw [Function.update_self, hval _ hr hi, hdone _ ⟨by omega, by omega⟩ (by omega),
        hdone _ ⟨by omega, by omega⟩ (by omega)]
    · rw [Function.update_of_ne hri]
      exact hdone r hr (by omega)

/-! ### What `newAllocator` leaves -/

section
variable {sta t : FrameTree} {s e : ℕ}

lemma newAllocator_eq_ok_iff (hle : s ≤ e) (he : e < 2 ^ 64) :
    newAllocator sta s e = .ok t ↔
      ∃ first, growSingle (e - s) 64 1 = some first ∧ fillTree sta s (e - s) first = .ok t := by
  have hlen : (e + 2 ^ 64 - s) % 2 ^ 64 = e - s := by omega
  unfold newAllocator
  simp only [hlen]
  generalize growSingle (e - s) 64 1 = result
  cases result with
  | none => simp
  | some first => simp

/-- The tree is built exactly when its nodes fit the array. -/
theorem newAllocator_ok_iff (sta : FrameTree) (hle : s ≤ e) (he : e < 2 ^ 64) :
    (∃ t, newAllocator sta s e = .ok t) ↔ e - s + 2 ≤ maxPhysicalPages := by
  have hnodes : staNodes = 65536 := rfl
  have hpages : maxPhysicalPages = 32768 := rfl
  have h15 : (2 : ℕ) ^ 15 = 32768 := by norm_num
  simp only [newAllocator_eq_ok_iff hle he]
  constructor
  · rintro ⟨t, first, hfirst, ht⟩
    obtain ⟨_, hle⟩ := growSingle_pow ⟨0, rfl⟩ hfirst
    rw [fillTree] at ht
    split_ifs at ht with hfit
    rw [not_or] at hfit
    omega
  · intro hfit
    have hmod : (e - s + 2) % 2 ^ 64 = e - s + 2 := by omega
    have hclog : Nat.clog 2 (e - s + 2) ≤ 15 := by
      rw [Nat.clog_le_iff_le_pow (by omega)]
      omega
    have hge := Nat.le_pow_clog (by omega : 1 < 2) (e - s + 2)
    have hle : 2 ^ Nat.clog 2 (e - s + 2) ≤ 2 ^ 15 := Nat.pow_le_pow_right (by omega) hclog
    have hgrow := growSingle_eq (e - s) 64 (pow_zero 2).symm (Nat.zero_le _)
      (by rw [hmod]; omega)
    rw [hmod] at hgrow
    have hfill : ∃ t, fillTree sta s (e - s) (2 ^ Nat.clog 2 (e - s + 2)) = .ok t := by
      rw [fillTree, if_neg (by omega)]
      exact ⟨_, rfl⟩
    obtain ⟨t, ht⟩ := hfill
    exact ⟨t, _, hgrow, ht⟩

/-- The tree `newAllocator` builds satisfies the invariant, and all its free frames are managed
ones. -/
theorem newAllocator_spec (hle : s ≤ e) (he : e < 2 ^ 64) (hok : newAllocator sta s e = .ok t) :
    ∃ d, FrameInv d s t ∧ freeFrames t = Set.Ico s (e - 1) := by
  have hfits := (newAllocator_ok_iff sta hle he).mp ⟨t, hok⟩
  have hpages : maxPhysicalPages = 32768 := rfl
  obtain ⟨first, hfirst, hfill⟩ := (newAllocator_eq_ok_iff hle he).mp hok
  obtain ⟨⟨d, rfl⟩, hge⟩ := growSingle_pow ⟨0, rfl⟩ hfirst
  clear hfirst
  rw [fillTree] at hfill
  split_ifs at hfill with hroom
  rw [not_or, not_lt, not_lt] at hroom
  obtain rfl := Except.ok.inj hfill
  have hpow : 2 ^ (d + 1) = 2 * 2 ^ d := pow_succ' 2 d
  have hlen2 : e - s + 2 ≤ 2 ^ d := by omega
  -- the leaves when the inner nodes are filled
  set leaf := setNodes (setNodes sta.node 1 1 (2 * 2 ^ d - 1)) (2 ^ d + 1) 0 (e - s - 1)
    with hleafdef
  have hleaf : ∀ i < 2 ^ d, leaf (2 ^ d + i) = if 1 ≤ i ∧ i < e - s then 0 else 1 := by
    intro i hi
    rw [hleafdef, setNodes_apply, setNodes_apply]
    by_cases hin : 1 ≤ i ∧ i < e - s
    · rw [if_pos hin, if_pos (by omega)]
    · rw [if_neg hin, if_neg (by omega), if_pos (by omega)]
  have hself : ∀ q, IsNode d q → 2 ^ d ≤ q → leaf q = frameVal d leaf q := by
    intro q hq hge
    have hlow := hq.2
    have hzero := (height_eq_zero_iff hq).mpr hge
    have hex : (∃ r ∈ leaves d q, leaf r = 0) ↔ leaf q = 0 := by
      simp only [leaves_of_height_zero hzero, exists_eq_left]
    obtain ⟨i, rfl⟩ : ∃ i, q = 2 ^ d + i := ⟨q - 2 ^ d, by omega⟩
    by_cases h0 : leaf (2 ^ d + i) = 0
    · rw [frameVal_eq_zero_iff.mpr (hex.mpr h0), h0]
    · rw [frameVal_eq_one_iff.mpr (mt hex.mp h0)]
      have h1 := hleaf i (by omega)
      split_ifs at h1
      · exact absurd h1 h0
      · exact h1
  have hall : ∀ q, IsNode d q → buildNodes leaf (2 ^ d - 1) q = frameVal d leaf q := by
    intro q hq
    refine buildNodes_apply (by omega) (fun r hr hge => hself r hr (by omega)) ?_ hq
    intro r hr hinner
    have hne : height d r ≠ 0 := by
      rw [ne_eq, height_eq_zero_iff hr]
      omega
    exact frameVal_parent hr (h := height d r - 1) (by omega)
  have hleaves : ∀ i < 2 ^ d, buildNodes leaf (2 ^ d - 1) (2 ^ d + i) =
      if 1 ≤ i ∧ i < e - s then 0 else 1 := by
    intro i hi
    obtain ⟨hnode, _⟩ := isLeaf hi
    rw [hall _ hnode, ← hself _ hnode (by omega), hleaf i hi]
  have hinv : FrameInv d s ⟨buildNodes leaf (2 ^ d - 1), 2 ^ d, e - s,
      (s + 2 ^ 64 - 1) % 2 ^ 64⟩ := by
    refine ⟨rfl, hroom.1, rfl, by simp only; omega, ?_, ?_⟩
    · intro p hp
      simp only
      rw [hall p hp]
      apply frameVal_congr
      intro q hq
      obtain ⟨hq1, hq2⟩ : 2 ^ d ≤ q ∧ q < 2 ^ (d + 1) :=
        ⟨hp.bounds.1.trans hq.1, lt_of_lt_of_le hq.2 hp.bounds.2⟩
      obtain ⟨i, rfl⟩ : ∃ i, q = 2 ^ d + i := ⟨q - 2 ^ d, by omega⟩
      rw [hleaf i (by omega), hleaves i (by omega)]
    · intro i hi h0
      simp only [hleaves i hi] at h0
      split_ifs at h0 with hin
      exact hin
  refine ⟨d, hinv, ?_⟩
  ext ppn
  rw [hinv.mem_freeFrames, Set.mem_Ico]
  constructor
  · rintro ⟨i, hi, h0, rfl⟩
    obtain ⟨h1, h2⟩ := hinv.free i hi h0
    simp only at h2
    omega
  · rintro ⟨h1, h2⟩
    refine ⟨ppn - s + 1, by omega, ?_, by omega⟩
    simp only
    rw [hleaves _ (by omega), if_pos (by omega)]

end

/-! ### Runs -/

/-- A call of the allocator. -/
inductive FrameOp where
  | alloc
  | dealloc (ppn : ℕ)

/-- The tree, the frames handed out and not yet given back, and all frames ever returned. -/
structure FrameState where
  tree : FrameTree
  out : List ℕ
  returned : List ℕ

/-- One call; a frame is deallocated only if some `alloc` returned it before. -/
def frameStep (st : FrameState) : FrameOp → Option FrameState
  | .alloc =>
    match alloc st.tree with
    | .ok (ppn, tree) => some ⟨tree, ppn :: st.out, ppn :: st.returned⟩
    | .error _ => none
  | .dealloc ppn =>
    if ppn ∈ st.returned then
      match dealloc st.tree ppn with
      | .ok tree => some { st with tree, out := st.out.erase ppn }
      | .error _ => none
    else none

def frameRun (st : FrameState) : List FrameOp → Option FrameState
  | [] => some st
  | op :: ops => (frameStep st op).bind fun st' => frameRun st' ops

/-- The invariant of runs over the frames `F₀` that were free at the start: the free frames are
those of `F₀` that are not handed out. -/
structure FrameRunInv (d s : ℕ) (F₀ : Set ℕ) (st : FrameState) : Prop where
  tree : FrameInv d s st.tree
  free : freeFrames st.tree = F₀ \ {ppn | ppn ∈ st.out}
  nodup : st.out.Nodup
  out : ∀ ppn ∈ st.out, ppn ∈ st.returned
  returned : ∀ ppn ∈ st.returned, ppn ∈ F₀
  managed : ∀ ppn ∈ F₀, ∃ i, 1 ≤ i ∧ i < st.tree.length ∧ i < 2 ^ d ∧ ppn = s + i - 1

section
variable {d s : ℕ} {F₀ : Set ℕ} {st st' : FrameState}

/-- Giving a frame back makes exactly it free. -/
lemma FrameRunInv.dealloc_out (hi : FrameRunInv d s F₀ st) {ppn : ℕ} (hout : ppn ∈ st.out) :
    ∃ t, dealloc st.tree ppn = .ok t ∧ FrameInv d s t ∧ t.length = st.tree.length ∧
      freeFrames t = insert ppn (freeFrames st.tree) := by
  obtain ⟨i, h1, h2, h3, h4⟩ := hi.managed ppn (hi.returned ppn (hi.out ppn hout))
  have hnot : ppn ∉ freeFrames st.tree := by
    rw [hi.free]
    exact fun h => h.2 hout
  exact hi.tree.dealloc_ok hnot h1 h2 h3 h4

/-- Step lemma: a call keeps the invariant. -/
lemma FrameRunInv.step (hi : FrameRunInv d s F₀ st) {op : FrameOp}
    (hs : frameStep st op = some st') : FrameRunInv d s F₀ st' := by
  cases op with
  | alloc =>
    simp only [frameStep] at hs
    by_cases hne : (freeFrames st.tree).Nonempty
    · obtain ⟨ppn, t, hok, hleast, ht, hlen, hfree⟩ := hi.tree.alloc_ok hne
      rw [hok] at hs
      obtain rfl := Option.some.inj hs
      have hmem : ppn ∈ F₀ \ {ppn | ppn ∈ st.out} := hi.free ▸ hleast.1
      refine ⟨ht, ?_, List.nodup_cons.mpr ⟨hmem.2, hi.nodup⟩, ?_, ?_, ?_⟩
      · ext r
        rw [hfree, hi.free]
        simp only [Set.mem_sdiff, Set.mem_ofPred_eq, Set.mem_singleton_iff, List.mem_cons, not_or]
        tauto
      · intro r hr
        rcases List.mem_cons.mp hr with rfl | hr
        · exact List.mem_cons_self
        · exact List.mem_cons_of_mem _ (hi.out r hr)
      · intro r hr
        rcases List.mem_cons.mp hr with rfl | hr
        · exact hmem.1
        · exact hi.returned r hr
      · simp only [hlen]
        exact hi.managed
    · rw [hi.tree.alloc_error (Set.not_nonempty_iff_eq_empty.mp hne)] at hs
      cases hs
  | dealloc ppn =>
    simp only [frameStep] at hs
    split_ifs at hs with hret
    by_cases hout : ppn ∈ st.out
    · obtain ⟨t, hok, ht, hlen, hfree⟩ := hi.dealloc_out hout
      rw [hok] at hs
      obtain rfl := Option.some.inj hs
      refine ⟨ht, ?_, hi.nodup.erase ppn, ?_, hi.returned, ?_⟩
      · ext r
        rw [hfree, hi.free]
        simp only [Set.mem_sdiff, Set.mem_ofPred_eq, Set.mem_insert_iff, hi.nodup.mem_erase_iff]
        constructor
        · rintro (rfl | ⟨h1, h2⟩)
          · exact ⟨hi.returned _ hret, fun h => h.1 rfl⟩
          · exact ⟨h1, fun h => h2 h.2⟩
        · rintro ⟨h1, h2⟩
          by_cases hr : r = ppn
          · exact .inl hr
          · exact .inr ⟨h1, fun h => h2 ⟨hr, h⟩⟩
      · exact fun r hr => hi.out r (List.mem_of_mem_erase hr)
      · simp only [hlen]
        exact hi.managed
    · have hfree : ppn ∈ freeFrames st.tree := hi.free ▸ ⟨hi.returned ppn hret, hout⟩
      rw [hi.tree.dealloc_free hfree] at hs
      obtain rfl := Option.some.inj hs
      have herase : st.out.erase ppn = st.out := List.erase_of_not_mem hout
      refine ⟨hi.tree, ?_, ?_, ?_, hi.returned, hi.managed⟩
      · simp only [herase]
        exact hi.free
      · simp only [herase]
        exact hi.nodup
      · simp only [herase]
        exact hi.out

/-- Run lemma. -/
lemma FrameRunInv.run (hi : FrameRunInv d s F₀ st) {ops : List FrameOp}
    (hs : frameRun st ops = some st') : FrameRunInv d s F₀ st' := by
  induction ops generalizing st with
  | nil =>
    obtain rfl := Option.some.inj hs
    exact hi
  | cons op ops ih =>
    simp only [frameRun, Option.bind_eq_some_iff] at hs
    obtain ⟨st₁, h1, h2⟩ := hs
    exact ih (hi.step h1) h2

end

lemma frameRunInv_newAllocator {sta t : FrameTree} {s e : ℕ} (hlt : s < e) (he : e < 2 ^ 64)
    (hok : newAllocator sta s e = .ok t) : ∃ d, FrameRunInv d s (freeFrames t) ⟨t, [], []⟩ := by
  obtain ⟨d, hi, _⟩ := newAllocator_spec hlt.le he hok
  refine ⟨d, hi, by simp, List.nodup_nil, by simp, by simp, ?_⟩
  intro ppn hmem
  obtain ⟨i, h1, h0, rfl⟩ := hi.mem_freeFrames.mp hmem
  obtain ⟨h2, h3⟩ := hi.free i h1 h0
  exact ⟨i, h2, h3, h1, rfl⟩

/-- The frame allocator over whole runs. `newAllocator` succeeds exactly on the ranges whose tree
fits the array. After any calls let `F` be the frames free at the start less those handed out: `F`
lies in the range, `alloc` returns its least element and removes exactly it, the depletion panic
means that `F` is empty, and `dealloc` puts exactly one frame back or changes nothing. -/
theorem frameAllocator_runs (sta : FrameTree) (s e : ℕ) (hlt : s < e) (he : e < 2 ^ 64) :
    ((∃ t, newAllocator sta s e = .ok t) ↔ e - s + 2 ≤ maxPhysicalPages) ∧
    ∀ t, newAllocator sta s e = .ok t → ∀ ops st, frameRun ⟨t, [], []⟩ ops = some st →
      let F := freeFrames t \ {ppn | ppn ∈ st.out}
      freeFrames st.tree = F ∧ st.out.Nodup ∧ F ⊆ Set.Ico s e ∧
      (alloc st.tree = .error (.panic "Physical memory depleted!\n") ↔ F = ∅) ∧
      (F.Nonempty → ∃ ppn t', alloc st.tree = .ok (ppn, t') ∧ IsLeast F ppn ∧
        freeFrames t' = F \ {ppn}) ∧
      (∀ ppn ∈ st.out, ∃ t', dealloc st.tree ppn = .ok t' ∧ freeFrames t' = insert ppn F) ∧
      ∀ ppn ∈ F, dealloc st.tree ppn = .ok st.tree := by
  refine ⟨newAllocator_ok_iff sta hlt.le he, ?_⟩
  intro t hok ops st hrun F
  obtain ⟨_, _, hrange⟩ := newAllocator_spec hlt.le he hok
  obtain ⟨d, hstart⟩ := frameRunInv_newAllocator hlt he hok
  have hi := hstart.run hrun
  have hF : freeFrames st.tree = F := hi.free
  refine ⟨hF, hi.nodup, ?_, ?_, ?_, ?_, ?_⟩
  · rintro ppn ⟨hmem, _⟩
    rw [hrange, Set.mem_Ico] at hmem
    exact ⟨hmem.1, by omega⟩
  · constructor
    · intro herr
      by_contra hne
      rw [← hF] at hne
      obtain ⟨_, _, hok', _⟩ := hi.tree.alloc_ok (Set.nonempty_iff_ne_empty.mpr hne)
      rw [herr] at hok'
      cases hok'
    · intro hempty
      exact hi.tree.alloc_error (hF.trans hempty)
  · intro hne
    rw [← hF] at hne ⊢
    obtain ⟨ppn, t', hok', hleast, _, _, hfree⟩ := hi.tree.alloc_ok hne
    exact ⟨ppn, t', hok', hleast, hfree⟩
  · intro ppn hout
    obtain ⟨t', hok', _, _, hfree⟩ := hi.dealloc_out hout
    exact ⟨t', hok', by rw [hfree, hF]⟩
  · intro ppn hmem
    exact hi.tree.dealloc_free (hF ▸ hmem)

/-- The range `0x80a00` to `0x88000`: two frames are handed out, and the first is given back and
comes again. -/
theorem frameAllocator_runs_dealloc : ∃ t st t', newAllocator ⟨fun _ => 0, 0, 0, 0⟩
    0x80a00 0x88000 =
    .ok t ∧ frameRun ⟨t, [], []⟩ [.alloc, .alloc, .dealloc 0x80a00] = some st ∧
      st.out = [0x80a01] ∧ alloc st.tree = .ok (0x80a00, t') := by
  obtain ⟨hfits, hruns⟩ := frameAllocator_runs ⟨fun _ => 0, 0, 0, 0⟩ 0x80a00 0x88000 (by decide)
    (by decide)
  obtain ⟨t, hok⟩ := hfits.mpr (by decide)
  have hruns := hruns t hok
  obtain ⟨d, _, hfree⟩ := newAllocator_spec (by decide) (by decide) hok
  have hleast : IsLeast (Set.Ico 0x80a00 (0x88000 - 1)) (0x80a00 : ℕ) := isLeast_Ico (by decide)
  have hleast' : IsLeast (Set.Ico 0x80a00 (0x88000 - 1) \ {ppn | ppn ∈ [0x80a00]})
    (0x80a01 : ℕ) := by
    refine ⟨⟨⟨by decide, by decide⟩, by decide⟩, fun ppn hppn => ?_⟩
    obtain ⟨⟨hlow, _⟩, hne⟩ := hppn
    have hne : ppn ≠ 0x80a00 := fun h => hne (by simp [h])
    omega
  -- the first two frames
  obtain ⟨_, _, _, _, halloc, _⟩ := hruns [] ⟨t, [], []⟩ rfl
  simp only [List.not_mem_nil, Set.ofPred_false, Set.sdiff_empty, hfree] at halloc
  obtain ⟨ppn, t₁, h₁, hppn, _⟩ := halloc ⟨_, hleast.1⟩
  obtain rfl := hppn.unique hleast
  have hrun₁ : frameRun ⟨t, [], []⟩ [.alloc] = some ⟨t₁, [0x80a00], [0x80a00]⟩ := by
    simp only [frameRun, frameStep, h₁, Option.bind_some]
  obtain ⟨_, _, _, _, halloc, _⟩ := hruns _ _ hrun₁
  simp only [hfree] at halloc
  obtain ⟨ppn, t₂, h₂, hppn, _⟩ := halloc ⟨_, hleast'.1⟩
  obtain rfl := hppn.unique hleast'
  have hrun₂ : frameRun ⟨t, [], []⟩ [.alloc, .alloc] =
      some ⟨t₂, [0x80a01, 0x80a00], [0x80a01, 0x80a00]⟩ := by
    simp only [frameRun, frameStep, h₁, h₂, Option.bind_some]
  -- the first comes back
  obtain ⟨_, _, _, _, _, hdealloc, _⟩ := hruns _ _ hrun₂
  obtain ⟨t₃, h₃, _⟩ := hdealloc 0x80a00 (by simp)
  have hrun₃ : frameRun ⟨t, [], []⟩ [.alloc, .alloc, .dealloc 0x80a00] =
      some ⟨t₃, [0x80a01], [0x80a01, 0x80a00]⟩ := by
    simp [frameRun, frameStep, h₁, h₂, h₃]
  obtain ⟨_, _, _, _, halloc, _⟩ := hruns _ _ hrun₃
  simp only [hfree] at halloc
  have hleast₃ : IsLeast (Set.Ico 0x80a00 (0x88000 - 1) \ {ppn | ppn ∈ [0x80a01]}) (0x80a00 : ℕ) :=
    ⟨⟨hleast.1, by decide⟩, fun ppn hppn => hleast.2 hppn.1⟩
  obtain ⟨ppn, t', h', hppn, _⟩ := halloc ⟨_, hleast₃.1⟩
  obtain rfl := hppn.unique hleast₃
  exact ⟨t, _, t', hok, hrun₃, rfl, h'⟩

end Jokerix
