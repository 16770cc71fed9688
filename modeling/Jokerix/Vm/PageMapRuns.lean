import Jokerix.Vm.Progress

/-!
# Page tables as finite maps, over runs

Every sequence of new roots, found entries and leaf entries stored there: the translation of the
hardware yields what was stored last for the root and the page.
-/

namespace Jokerix

/-- A call, or a store at an entry that was found for the page. -/
inductive PageOp where
  | newMapping
  | findEntry (root vpn : ℕ)
  | store (root vpn pte : ℕ)

/-- The machine and the roots, with the entries found and the leaf entries stored last, for each
root and page. -/
structure PageState where
  machine : Machine
  roots : List ℕ
  found : ℕ × ℕ → Option ℕ
  stored : ℕ × ℕ → Option ℕ

/-- A root and the page of a virtual page number. -/
def pageKey (root vpn : ℕ) : ℕ × ℕ := (root, vpn % 2 ^ 27)

/-- One step. It needs a root made before, and for a store an entry found before and a leaf. -/
def pageStep (st : PageState) : PageOp → Option PageState
  | .newMapping =>
    match newMapping st.machine with
    | .ok (root, machine) => some { st with machine, roots := root :: st.roots }
    | .error _ => none
  | .findEntry root vpn =>
    if root ∈ st.roots then
      match findEntry st.machine root vpn with
      | .ok (e, machine) =>
        some { st with machine, found := Function.update st.found (pageKey root vpn) (some e) }
      | .error _ => none
    else none
  | .store root vpn pte =>
    match st.found (pageKey root vpn) with
    | some e =>
      if IsLeaf pte ∧ pte < 2 ^ 64 then
        some { st with
          machine := { st.machine with mem := Bytes.storeLE 8 st.machine.mem e pte }
          stored := Function.update st.stored (pageKey root vpn) (some pte) }
      else none
    | none => none

def pageRun (st : PageState) : List PageOp → Option PageState
  | [] => some st
  | op :: ops =>
    match pageStep st op with
    | some st => pageRun st ops
    | none => none

/-! ### The invariant -/

/-- Every root has its tables, entries found are where the tables say, and the leaf entries are
those stored last. -/
structure PageInv (s : ℕ) (st : PageState) (owner : ℕ → Option Role) : Prop where
  owned : Owned (fun _ => False) s st.machine owner
  roots : ∀ r ∈ st.roots, owner r = some (.table r [])
  known : ∀ r v, r ∉ st.roots → st.found (r, v) = none ∧ st.stored (r, v) = none
  found : ∀ r v e, st.found (pageKey r v) = some e →
    ∃ n, tableAt st.machine.mem r (vpnPath v) = some n ∧ e = frameVa n + 8 * vpnIndex v
  stored : ∀ r ∈ st.roots, ∀ v,
    leafAt st.machine.mem r v = (st.stored (pageKey r v)).getD 0
  leaf : ∀ k e, st.stored k = some e → IsLeaf e ∧ e < 2 ^ 64

section
variable {s : ℕ} {st st' : PageState} {owner : ℕ → Option Role}

lemma PageInv.mem_roots (hi : PageInv s st owner) {r v e : ℕ}
    (h : st.found (pageKey r v) = some e) : r ∈ st.roots := by
  by_contra hr
  rw [pageKey, (hi.known r _ hr).1] at h
  cases h

/-- The walk of the hardware reads the map. -/
lemma PageInv.sv39 (hi : PageInv s st owner) {r : ℕ} (hr : r ∈ st.roots) (v : ℕ) :
    sv39 st.machine.mem r v = (st.stored (pageKey r v)).map fun e => (e, 0) := by
  have hleaf := hi.stored r hr v
  cases hst : st.stored (pageKey r v) with
  | none =>
    rw [hst, Option.getD_none] at hleaf
    rw [hi.owned.sv39_eq (hi.roots r hr) (.inl hleaf), if_pos hleaf, Option.map_none]
  | some e =>
    rw [hst, Option.getD_some] at hleaf
    have hne : IsLeaf e := (hi.leaf _ _ hst).1
    rw [hi.owned.sv39_eq (hi.roots r hr) (.inr (hleaf ▸ hne)), hleaf, Option.map_some, if_neg]
    rintro rfl
    exact absurd hne.1 (by decide)

/-- What was found is found again, and nothing changes. -/
lemma PageInv.findEntry_again (hi : PageInv s st owner) {r v e : ℕ}
    (h : st.found (pageKey r v) = some e) :
    findEntry st.machine r v = .ok (e, st.machine) := by
  obtain ⟨n, ht, rfl⟩ := hi.found r v e h
  exact hi.owned.findEntry_of_table (hi.roots r (hi.mem_roots h)) ht

lemma PageInv.newMapping (hi : PageInv s st owner) {root : ℕ} {machine : Machine}
    (hok : newMapping st.machine = .ok (root, machine)) :
    ∃ owner', PageInv s { st with machine, roots := root :: st.roots } owner' := by
  obtain ⟨hfresh, owner', h', hext, hroot⟩ := hi.owned.newMapping hok
  have hnew : root ∉ st.roots := by
    intro hmem
    rw [hi.roots root hmem] at hfresh
    cases hfresh
  obtain ⟨hempty, hkeeps⟩ := hi.owned.newMapping_leaves hok
  refine ⟨owner', h', ?_, ?_, ?_, ?_, hi.leaf⟩
  · intro r hr
    rcases List.mem_cons.mp hr with rfl | hr
    · exact hroot
    · exact hext.grows _ _ (hi.roots r hr)
  · exact fun r v hr => hi.known r v fun hmem => hr (List.mem_cons_of_mem _ hmem)
  · intro r v e he
    obtain ⟨n, ht, rfl⟩ := hi.found r v e he
    have hr := hi.roots r (hi.mem_roots he)
    exact ⟨n, hi.owned.tableAt_extends hext hr (by simp [vpnPath]) ht, rfl⟩
  · intro r hr v
    rcases List.mem_cons.mp hr with rfl | hr
    · rw [pageKey, (hi.known r _ hnew).2, Option.getD_none]
      exact hempty v
    · rw [hkeeps r v (hi.roots r hr)]
      exact hi.stored r hr v

lemma pageKey_eq_iff {r r' v v' : ℕ} :
    pageKey r' v' = pageKey r v ↔ r' = r ∧ vpnPath v' = vpnPath v ∧ vpnIndex v' = vpnIndex v := by
  rw [pageKey, pageKey, Prod.mk.injEq, vpn_eq_iff]

lemma PageInv.findEntry (hi : PageInv s st owner) {r v e : ℕ} {machine : Machine}
    (hr : r ∈ st.roots)
    (hok : findEntry st.machine r v = .ok (e, machine)) :
    ∃ owner', PageInv s
      { st with machine, found := Function.update st.found (pageKey r v) (some e) } owner' := by
  obtain ⟨owner', n, h', hext, _, ht, rfl⟩ := hi.owned.findEntry (hi.roots r hr) hok
  have hkeeps := hi.owned.findEntry_keeps (hi.roots r hr) hok
  refine ⟨owner', h', fun r' hr' => hext.grows _ _ (hi.roots r' hr'), ?_, ?_, ?_, hi.leaf⟩
  · intro r' v' hr'
    refine ⟨?_, (hi.known r' v' hr').2⟩
    dsimp only at hr' ⊢
    rw [Function.update_of_ne]
    · exact (hi.known r' v' hr').1
    · intro heq
      rw [pageKey, Prod.mk.injEq] at heq
      exact hr' (heq.1 ▸ hr)
  · intro r' v' e' he'
    dsimp only at he' ⊢
    by_cases hkey : pageKey r' v' = pageKey r v
    · rw [hkey, Function.update_self] at he'
      obtain ⟨rfl, hpath, hindex⟩ := pageKey_eq_iff.mp hkey
      refine ⟨n, hpath ▸ ht, ?_⟩
      rw [← Option.some.inj he', hindex]
    · rw [Function.update_of_ne hkey] at he'
      obtain ⟨n', ht', rfl⟩ := hi.found r' v' e' he'
      have hr' := hi.roots r' (hi.mem_roots he')
      exact ⟨n', hi.owned.tableAt_extends hext hr' (by simp [vpnPath]) ht', rfl⟩
  · intro r' hr' v'
    dsimp only at hr' ⊢
    rw [hkeeps r' v' (hi.roots r' hr')]
    exact hi.stored r' hr' v'

lemma PageInv.store (hi : PageInv s st owner) {r v e pte : ℕ}
    (he : st.found (pageKey r v) = some e) (hleaf : IsLeaf pte) (hlt : pte < 2 ^ 64) :
    PageInv s { st with
      machine := { st.machine with mem := Bytes.storeLE 8 st.machine.mem e pte }
      stored := Function.update st.stored (pageKey r v) (some pte) } owner := by
  obtain ⟨n, ht, rfl⟩ := hi.found r v e he
  have hmem := hi.mem_roots he
  have hr := hi.roots r hmem
  have hn : owner n = some (.table r (vpnPath v)) := hi.owned.tableAt_owner hr (by simp) ht
  refine ⟨hi.owned.setEntry hn hlt (.inr (.inr ⟨by simp [vpnPath], hleaf.1, fun h => h.elim⟩)),
    hi.roots, ?_, ?_, ?_, ?_⟩
  · intro r' v' hr'
    refine ⟨(hi.known r' v' hr').1, ?_⟩
    dsimp only at hr' ⊢
    rw [Function.update_of_ne]
    · exact (hi.known r' v' hr').2
    · intro heq
      rw [pageKey, Prod.mk.injEq] at heq
      exact hr' (heq.1 ▸ hmem)
  · intro r' v' e' he'
    obtain ⟨n', ht', rfl⟩ := hi.found r' v' e' he'
    refine ⟨n', ?_, rfl⟩
    dsimp only
    rw [hi.owned.tableAt_store hn rfl (hi.roots r' (hi.mem_roots he')) _ (by simp [vpnPath])]
    exact ht'
  · intro r' hr' v'
    dsimp only at hr' ⊢
    rw [hi.owned.leafAt_store hr ht hlt (hi.roots r' hr')]
    by_cases hkey : pageKey r' v' = pageKey r v
    · rw [if_pos (by rwa [pageKey, pageKey, Prod.mk.injEq] at hkey), hkey, Function.update_self,
        Option.getD_some]
    · rw [if_neg (by rwa [pageKey, pageKey, Prod.mk.injEq] at hkey), Function.update_of_ne hkey]
      exact hi.stored r' hr' v'
  · intro k e' he'
    dsimp only at he'
    by_cases hkey : k = pageKey r v
    · rw [hkey, Function.update_self] at he'
      rw [← Option.some.inj he']
      exact ⟨hleaf, hlt⟩
    · rw [Function.update_of_ne hkey] at he'
      exact hi.leaf k e' he'

/-- Step lemma: a step keeps the invariant. -/
lemma PageInv.step (hi : PageInv s st owner) {op : PageOp} (h : pageStep st op = some st') :
    ∃ owner', PageInv s st' owner' := by
  cases op with
  | newMapping =>
    rw [pageStep] at h
    split at h
    · rename_i root machine hok
      obtain rfl := Option.some.inj h
      exact hi.newMapping hok
    · cases h
  | findEntry root vpn =>
    rw [pageStep] at h
    split_ifs at h with hroot
    split at h
    · rename_i e machine hok
      obtain rfl := Option.some.inj h
      exact hi.findEntry hroot hok
    · cases h
  | store root vpn pte =>
    rw [pageStep] at h
    split at h
    · rename_i e he
      split_ifs at h with hpte
      obtain rfl := Option.some.inj h
      exact ⟨owner, hi.store he hpte.1 hpte.2⟩
    · cases h

/-- Run lemma. -/
lemma PageInv.run (hi : PageInv s st owner) {ops : List PageOp} (h : pageRun st ops = some st') :
    ∃ owner', PageInv s st' owner' := by
  induction ops generalizing st owner with
  | nil =>
    obtain rfl := Option.some.inj h
    exact ⟨owner, hi⟩
  | cons op ops ih =>
    rw [pageRun] at h
    split at h
    · rename_i st₁ hstep
      obtain ⟨owner₁, h₁⟩ := hi.step hstep
      exact ih h₁ h
    · cases h

end

/-- The state with a new allocator and no roots. -/
def PageState.new (mem : Bytes.Memory) (sta : FrameTree) : PageState :=
  ⟨⟨mem, sta⟩, [], fun _ => none, fun _ => none⟩

lemma pageInv_new {s : ℕ} {m : Machine} {sta : FrameTree} (hlt : s < memoryEndPaddr / pageSize)
    (hnew : newAllocator m.sta s (memoryEndPaddr / pageSize) = .ok sta) :
    PageInv s (.new m.mem sta) fun _ => none := by
  refine ⟨owned_newAllocator (m := m) hlt.le hnew, ?_, fun _ _ _ => ⟨rfl, rfl⟩, ?_, ?_, ?_⟩
  · exact fun r hr => absurd hr List.not_mem_nil
  · exact fun _ _ _ h => by cases h
  · exact fun r hr => absurd hr List.not_mem_nil
  · exact fun _ _ h => by cases h

/-- Over every run the page tables are a map. The translation yields the leaf entry stored last for
the root and the page, and fails where none was stored; an entry found before is found again, and
then nothing changes; and a step changes the translation of the page it stores an entry for at
most. -/
theorem pageTables_runs (m : Machine) (s : ℕ) (sta : FrameTree)
    (hlt : s < memoryEndPaddr / pageSize)
    (hnew : newAllocator m.sta s (memoryEndPaddr / pageSize) = .ok sta) (ops : List PageOp)
    (st : PageState) (hrun : pageRun (.new m.mem sta) ops = some st) :
    (∀ r ∈ st.roots, ∀ v, sv39 st.machine.mem r v = (st.stored (pageKey r v)).map fun e => (e, 0)) ∧
    (∀ r v e, st.found (pageKey r v) = some e →
      findEntry st.machine r v = .ok (e, st.machine)) ∧
    ∀ op st', pageStep st op = some st' → ∀ r ∈ st.roots, ∀ v,
      (∀ r₁ v₁ pte, op = .store r₁ v₁ pte → pageKey r v ≠ pageKey r₁ v₁) →
      sv39 st'.machine.mem r v = sv39 st.machine.mem r v := by
  obtain ⟨owner, hi⟩ := (pageInv_new hlt hnew).run hrun
  refine ⟨fun r hr v => hi.sv39 hr v, fun r v e he => hi.findEntry_again he, ?_⟩
  intro op st' hstep r hr v hother
  obtain ⟨owner', hi'⟩ := hi.step hstep
  have hr' : r ∈ st'.roots ∧ st'.stored (pageKey r v) = st.stored (pageKey r v) := by
    cases op with
    | newMapping =>
      rw [pageStep] at hstep
      split at hstep
      · obtain rfl := Option.some.inj hstep
        exact ⟨List.mem_cons_of_mem _ hr, rfl⟩
      · cases hstep
    | findEntry root vpn =>
      rw [pageStep] at hstep
      split_ifs at hstep
      split at hstep
      · obtain rfl := Option.some.inj hstep
        exact ⟨hr, rfl⟩
      · cases hstep
    | store root vpn pte =>
      rw [pageStep] at hstep
      split at hstep
      · split_ifs at hstep
        obtain rfl := Option.some.inj hstep
        exact ⟨hr, Function.update_of_ne (hother _ _ _ rfl) _ _⟩
      · cases hstep
  rw [hi.sv39 hr, hi'.sv39 hr'.1, hr'.2]

/-- A page that is stored in a new address space. -/
theorem pageTables_runs_store : ∃ sta root st,
    newAllocator ⟨fun _ => 0, 0, 0, 0⟩ 0x80a00 (memoryEndPaddr / pageSize) = .ok sta ∧
    pageRun (.new (fun _ => 0) sta)
      [.newMapping, .findEntry root 0x12345, .store root 0x12345 0x200004df] = some st ∧
    sv39 st.machine.mem root 0x12345 = some (0x200004df, 0) := by
  let m : Machine := ⟨fun _ => 0, ⟨fun _ => 0, 0, 0, 0⟩⟩
  have hlt : 0x80a00 < memoryEndPaddr / pageSize := by
    simp only [memoryEndPaddr, pageSize]
    norm_num
  obtain ⟨sta, hnew⟩ := (newAllocator_ok_iff m.sta hlt.le (by decide)).mpr (by
    simp only [memoryEndPaddr, pageSize, maxPhysicalPages]
    norm_num)
  have hi := pageInv_new (m := m) hlt hnew
  have hroom := room_newAllocator (m := m) hlt.le hnew
  rw [endPpn_eq] at hroom
  obtain ⟨root, m₁, hmap, hroom₁⟩ := hi.owned.newMapping_ok (by
    change 1 ≤ room { m with sta }
    omega)
  obtain ⟨owner₁, hi₁⟩ := hi.newMapping hmap
  have hroot : root ∈ root :: ([] : List ℕ) := List.mem_cons_self
  obtain ⟨e, m₂, hfind, _⟩ := hi₁.owned.findEntry_ok (v := 0x12345) (hi₁.roots root hroot) (by
    have : room m₁ + 1 = room { m with sta } := hroom₁.symm
    change 2 ≤ room m₁
    omega)
  have step₁ : pageStep (.new m.mem sta) .newMapping =
      some ⟨m₁, [root], fun _ => none, fun _ => none⟩ := by
    rw [pageStep, hmap]
    rfl
  have step₂ : pageStep ⟨m₁, [root], fun _ => none, fun _ => none⟩ (.findEntry root 0x12345) =
      some ⟨m₂, [root], Function.update (fun _ => none) (pageKey root 0x12345) (some e),
        fun _ => none⟩ := by
    rw [pageStep, if_pos hroot, show findEntry m₁ root 0x12345 = .ok (e, m₂) from hfind]
  have step₃ :
      pageStep ⟨m₂, [root], Function.update (fun _ => none) (pageKey root 0x12345) (some e),
        fun _ => none⟩ (.store root 0x12345 0x200004df) =
      some ⟨{ m₂ with mem := Bytes.storeLE 8 m₂.mem e 0x200004df }, [root],
        Function.update (fun _ => none) (pageKey root 0x12345) (some e),
        Function.update (fun _ => none) (pageKey root 0x12345) (some 0x200004df)⟩ := by
    rw [pageStep]
    simp only [Function.update_self]
    rw [if_pos (by decide)]
  obtain ⟨st, hrun, hroots, hstored⟩ : ∃ st, pageRun (.new m.mem sta)
      [.newMapping, .findEntry root 0x12345, .store root 0x12345 0x200004df] = some st ∧
      root ∈ st.roots ∧ st.stored (pageKey root 0x12345) = some 0x200004df := by
    rw [pageRun, step₁]
    simp only
    rw [pageRun, step₂]
    simp only
    rw [pageRun, step₃]
    refine ⟨_, rfl, hroot, ?_⟩
    dsimp only
    exact Function.update_self (pageKey root 0x12345) (some 0x200004df) fun _ => none
  refine ⟨sta, root, st, hnew, hrun, ?_⟩
  rw [(pageTables_runs m 0x80a00 sta hlt hnew _ st hrun).1 root hroots, hstored]
  rfl

end Jokerix
