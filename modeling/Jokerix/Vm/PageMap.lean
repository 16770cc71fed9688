import Jokerix.Vm.FindEntry

/-!
# Page tables as finite maps

The translation of the hardware reads the tables as a map from virtual pages to leaf entries.
Finding an entry keeps the map, and storing at the entry of a page updates it there alone.
-/

namespace Jokerix

/-! ### The translation of the hardware -/

/-- A leaf entry: valid, readable or executable, and not writable without being readable. -/
def IsLeaf (e : ℕ) : Prop :=
  e % 2 = 1 ∧ (e / flagReadable % 2 = 1 ∨ e / flagExecutable % 2 = 1 ∧ e / flagWritable % 2 = 0)

instance (e : ℕ) : Decidable (IsLeaf e) := inferInstanceAs (Decidable (_ ∧ _))

/-- The Sv39 walk from the table in a frame: the leaf entry it ends at, and how many levels are
left below it. -/
def sv39Walk (mem : Bytes.Memory) : ℕ → List ℕ → Option (ℕ × ℕ)
  | _, [] => none
  | ppn, vpn :: vpns =>
    let e := Bytes.loadLE 8 mem (accessVaViaPa (ppn * pageSize + 8 * vpn))
    if e % 2 = 0 ∨ e / flagReadable % 2 = 0 ∧ e / flagWritable % 2 = 1 then none
    else if e / flagReadable % 2 = 1 ∨ e / flagExecutable % 2 = 1 then some (e, vpns.length)
    else sv39Walk mem (e / 2 ^ 10 % 2 ^ 44) vpns

/-- The translation of a virtual page, with the root table in a frame. -/
def sv39 (mem : Bytes.Memory) (root vpn : ℕ) : Option (ℕ × ℕ) :=
  sv39Walk mem root (getVpnLevels vpn)

/-- The virtual addresses that Sv39 has. -/
def Canonical (va : ℕ) : Prop := va < 2 ^ 38 ∨ 2 ^ 64 - 2 ^ 38 ≤ va ∧ va < 2 ^ 64

instance (va : ℕ) : Decidable (Canonical va) := inferInstanceAs (Decidable (_ ∨ _))

/-- The translation of a virtual address: the physical address and the flags of its entry. A leaf
above the last level maps an aligned range of pages. -/
def sv39Address (mem : Bytes.Memory) (root va : ℕ) : Option (ℕ × ℕ) :=
  if Canonical va then
    (sv39 mem root (va / pageSize)).bind fun (e, level) =>
      let ppn := e / 2 ^ 10 % 2 ^ 44
      if ppn % 512 ^ level = 0 then
        some (ppn * pageSize + va % (512 ^ level * pageSize), e % 2 ^ 10)
      else none
  else none

section
variable {own : ℕ → Prop} {s : ℕ} {m m' : Machine} {owner owner' : ℕ → Option Role}
  {p q r n v a e : ℕ} {path : Path} {i : Fin 512}

lemma entryAddr_frame {mem : Bytes.Memory} (h : n < endPpn) :
    Bytes.loadLE 8 mem (accessVaViaPa (n * pageSize + 8 * i)) = pte mem n i := by
  have hlt : n < 0x87fff := h
  have hi := i.isLt
  have haddr : accessVaViaPa (n * pageSize + 8 * i) = frameVa n + 8 * i := by
    simp only [accessVaViaPa, frameVa, pageSize, kernelMapOffset]
    omega
  rw [haddr, pte]

/-- Above the last level the walk follows the pointers of the tables. -/
lemma Owned.sv39Walk_pointer (h : Owned own s m owner) (hn : owner n = some (.table r path))
    (hlen : path.length ≤ 1) (vpns : List ℕ) :
    sv39Walk m.mem n (i :: vpns) =
      (nextTable (pte m.mem n i)).bind fun q => sv39Walk m.mem q vpns := by
  rw [sv39Walk, entryAddr_frame (h.used _ _ hn).2]
  rcases h.entry n r path i hn with he | ⟨_, q, he, hq⟩ | ⟨hthree, _⟩
  · rw [he]
    rfl
  · have hlt : q < 0x87fff := (h.used _ _ hq).2
    have hnext : (q * 2 ^ 10 + 1) / 2 ^ 10 % 2 ^ 44 = q := by omega
    rw [he, nextTable_pointer (h.used _ _ hq).2, Option.bind_some]
    simp only [hnext]
    rw [if_neg (by simp only [flagReadable, flagWritable]; omega),
      if_neg (by simp only [flagReadable, flagExecutable]; omega)]
  · rw [List.length_append, List.length_singleton] at hthree
    omega

/-- The walk goes to the table of the page. -/
lemma Owned.sv39_table (h : Owned own s m owner) (hr : owner r = some (.table r [])) :
    sv39 m.mem r v =
      (tableAt m.mem r (vpnPath v)).bind fun n => sv39Walk m.mem n [(vpnIndex v : ℕ)] := by
  rw [sv39, getVpnLevels, h.sv39Walk_pointer (i := ⟨v / 2 ^ 18 % 512, Nat.mod_lt _ (by decide)⟩)
    hr (by simp), tableAt, vpnPath, Radix.walk_cons, Option.bind_assoc]
  refine Option.bind_congr fun q hq => ?_
  obtain ⟨_, hq⟩ := h.next_place hr (by simp) hq
  rw [h.sv39Walk_pointer (i := ⟨v / 2 ^ 9 % 512, Nat.mod_lt _ (by decide)⟩) hq (by simp),
    Radix.walk_cons, Option.bind_assoc]
  simp only [Radix.walk_nil, Option.bind_some, vpnIndex]

/-- The last level of the walk. -/
lemma Owned.sv39Walk_last (h : Owned own s m owner) (hn : owner n = some (.table r path)) :
    sv39Walk m.mem n [(i : ℕ)] =
      if IsLeaf (pte m.mem n i) then some (pte m.mem n i, 0) else none := by
  rw [sv39Walk, entryAddr_frame (h.used _ _ hn).2]
  generalize pte m.mem n i = e
  simp only [List.length_nil]
  by_cases hleaf : IsLeaf e
  · obtain ⟨hvalid, hperm⟩ := hleaf
    rw [if_neg (by omega), if_pos (by omega), if_pos ⟨hvalid, hperm⟩]
  · rw [if_neg hleaf]
    split_ifs with hinvalid hperm
    · rfl
    · rw [IsLeaf] at hleaf
      omega
    · rfl

/-- The walk finds the leaf entry of the page. -/
theorem Owned.sv39_leaf (h : Owned own s m owner) (hr : owner r = some (.table r [])) :
    sv39 m.mem r v = if IsLeaf (leafAt m.mem r v) then some (leafAt m.mem r v, 0) else none := by
  rw [h.sv39_table hr]
  cases ht : tableAt m.mem r (vpnPath v) with
  | none => simp [leafAt, ht, IsLeaf]
  | some n =>
    rw [leafAt_eq ht, Option.bind_some]
    exact h.sv39Walk_last (h.tableAt_owner hr (by simp [vpnPath]) ht)

/-- When the entry is no malformed one, the walk fails only where it is zero. -/
theorem Owned.sv39_eq (h : Owned own s m owner) (hr : owner r = some (.table r []))
    (hleaf : leafAt m.mem r v = 0 ∨ IsLeaf (leafAt m.mem r v)) :
    sv39 m.mem r v = if leafAt m.mem r v = 0 then none else some (leafAt m.mem r v, 0) := by
  rw [h.sv39_leaf hr]
  rcases hleaf with hzero | hleaf
  · rw [hzero]
    rfl
  · rw [if_pos hleaf, if_neg]
    intro hzero
    rw [hzero] at hleaf
    exact absurd hleaf.1 (by decide)

/-! ### Finding an entry -/

/-- The address spaces map the same pages to the same entries. -/
def KeepsLeaves (m : Machine) (owner : ℕ → Option Role) (m' : Machine) : Prop :=
  ∀ r v, owner r = some (.table r []) → leafAt m'.mem r v = leafAt m.mem r v

lemma KeepsLeaves.trans {m'' : Machine} (h : KeepsLeaves m owner m')
    (hext : Extends s m owner m' owner') (h' : KeepsLeaves m' owner' m'') :
    KeepsLeaves m owner m'' :=
  fun r v hr => (h' r v (hext.grows _ _ hr)).trans (h r v hr)

/-- Only zero entries are added. -/
lemma KeepsLeaves.of_added (h : Owned own s m owner) (hext : Extends s m owner m' owner')
    (hadded : ∀ r path n i, owner r = some (.table r []) → path.length = 2 →
      tableAt m'.mem r path = some n → pte m'.mem n i ≠ 0 →
      tableAt m.mem r path = some n ∧ pte m.mem n i = pte m'.mem n i) : KeepsLeaves m owner m' := by
  intro r v hr
  by_cases hne : leafAt m.mem r v = 0
  · rw [hne]
    by_contra hne'
    cases ht : tableAt m'.mem r (vpnPath v) with
    | none => simp [leafAt, ht] at hne'
    | some n =>
      rw [leafAt_eq ht] at hne'
      obtain ⟨ht', he⟩ := hadded r _ n _ hr rfl ht hne'
      rw [leafAt_eq ht', he] at hne
      exact hne' hne
  · exact h.leafAt_extends hext hr hne

lemma Owned.createTable_keeps (h : Owned own s m owner) (hp : owner p = some (.table r path))
    (hlen : path.length ≤ 1) (hok : Jokerix.createTable m (frameVa p + 8 * i) = .ok m') :
    KeepsLeaves m owner m' := by
  obtain ⟨owner', _, _, hext, _⟩ := h.createTable hp hlen hok
  rcases createTable_cases hok with ⟨_, rfl⟩ | ⟨hzero, a, m₁, halloc, rfl⟩
  · exact fun _ _ _ => rfl
  · obtain ⟨q, rfl, hq, hs, hlt, hout, hin, _, _⟩ := h.allocFrame halloc
    have hlt' : q < 0x87fff := hlt
    have hpq : p ≠ q := by
      rintro rfl
      rw [hq] at hp
      cases hp
    have hval : q * pageSize / pageSize * 2 ^ 10 ||| flagValid = q * 2 ^ 10 + 1 := by
      rw [Nat.mul_div_cancel q (by decide)]
      exact or_flags (by decide)
    rw [hval] at hext ⊢
    -- The new pointer apart, entries outside the new table are as before.
    have hsame : ∀ n j, n ≠ q → (n ≠ p ∨ j ≠ i) →
        pte (Bytes.storeLE 8 m₁.mem (frameVa p + 8 * i) (q * 2 ^ 10 + 1)) n j = pte m.mem n j := by
      intro n j hnq hne
      rw [pte_storeLE_ne hne, pte_congr fun x hx => hout x fun hx' => hnq (hx.unique hx')]
    have hnew : ∀ j, pte (Bytes.storeLE 8 m₁.mem (frameVa p + 8 * i) (q * 2 ^ 10 + 1)) q j = 0 := by
      intro j
      rw [pte_storeLE_ne (.inl hpq.symm), pte_zero hin]
    have hother : ∀ n j, n ≠ q →
        nextTable (pte (Bytes.storeLE 8 m₁.mem (frameVa p + 8 * i) (q * 2 ^ 10 + 1)) n j) =
          nextTable (pte m.mem n j) ∨
        nextTable (pte (Bytes.storeLE 8 m₁.mem (frameVa p + 8 * i) (q * 2 ^ 10 + 1)) n j) =
          some q := by
      intro n j hnq
      by_cases hne : n ≠ p ∨ j ≠ i
      · exact .inl (by rw [hsame n j hnq hne])
      · push Not at hne
        obtain ⟨rfl, rfl⟩ := hne
        refine .inr ?_
        rw [pte_storeLE_same (by omega), nextTable_pointer hlt]
    refine .of_added h hext ?_
    intro r' path' n j hr' hlen' hn hne
    rcases Radix.walk_added hother (fun j => by rw [hnew]; rfl) hn with rfl | hn'
    · exact absurd (hnew j) hne
    · have hown : owner n = some (.table r' path') := h.tableAt_owner hr' (by simp [hlen']) hn'
      refine ⟨hn', (hsame n j ?_ (.inl ?_)).symm⟩
      · rintro rfl
        rw [hq] at hown
        cases hown
      · rintro rfl
        rw [hp, Option.some.injEq, Role.table.injEq] at hown
        rw [hown.2, hlen'] at hlen
        omega

lemma Owned.findLevels_keeps (h : Owned own s m owner) {levels : Path}
    (hp : owner p = some (.table r path)) (hlen : path.length + levels.length ≤ 2)
    (hok : Jokerix.findLevels m (frameVa p + 8 * i) (levels.map Fin.val) = .ok (a, m')) :
    KeepsLeaves m owner m' := by
  induction levels generalizing m owner p path i with
  | nil =>
    rw [List.map_nil, Jokerix.findLevels, Except.ok.injEq, Prod.mk.injEq] at hok
    obtain ⟨rfl, rfl⟩ := hok
    exact fun _ _ _ => rfl
  | cons l levels ih =>
    rw [List.map_cons] at hok
    obtain ⟨m₁, hcreate, hok⟩ := findLevels_cases hok
    rw [List.length_cons] at hlen
    obtain ⟨owner₁, q, h₁, hext₁, hq, he⟩ := h.createTable hp (by omega) hcreate
    have haddr : entryAddr ((Bytes.loadLE 8 m₁.mem (frameVa p + 8 * i) &&& pdeMask) * 4 % 2 ^ 64)
        l = frameVa q + 8 * l := by
      rw [show Bytes.loadLE 8 m₁.mem (frameVa p + 8 * i) = q * 2 ^ 10 + 1 from he]
      exact entryAddr_pointer (h₁.used _ _ hq).2 l
    simp only [haddr] at hok
    refine (h.createTable_keeps hp (by omega) hcreate).trans hext₁ (ih h₁ hq ?_ hok)
    rw [List.length_append, List.length_singleton]
    omega

theorem Owned.findEntry_keeps (h : Owned own s m owner) (hr : owner r = some (.table r []))
    (hok : Jokerix.findEntry m r v = .ok (a, m')) : KeepsLeaves m owner m' := by
  rw [findEntry_eq_findLevels (h.used _ _ hr).2] at hok
  exact h.findLevels_keeps hr (by simp) hok

lemma createTable_pointer (he : pte m.mem p i = q * 2 ^ 10 + 1) :
    createTable m (frameVa p + 8 * i) = .ok m := by
  rw [createTable, if_neg]
  rw [show Bytes.loadLE 8 m.mem (frameVa p + 8 * i) = q * 2 ^ 10 + 1 from he]
  omega

lemma findLevels_pointer {levels : List ℕ} {l : ℕ} (he : pte m.mem p i = q * 2 ^ 10 + 1)
    (hq : q < endPpn) :
    findLevels m (frameVa p + 8 * i) (l :: levels) = findLevels m (frameVa q + 8 * l) levels := by
  rw [findLevels, createTable_pointer he]
  simp only
  rw [show Bytes.loadLE 8 m.mem (frameVa p + 8 * i) = q * 2 ^ 10 + 1 from he, entryAddr_pointer hq]

/-- When the table of the page is there, its entry is found and nothing changes. -/
theorem Owned.findEntry_of_table (h : Owned own s m owner) (hr : owner r = some (.table r []))
    (ht : tableAt m.mem r (vpnPath v) = some n) :
    Jokerix.findEntry m r v = .ok (frameVa n + 8 * vpnIndex v, m) := by
  rw [tableAt, vpnPath, Radix.walk_cons, Option.bind_eq_some_iff] at ht
  obtain ⟨q, hq, ht⟩ := ht
  obtain ⟨he, hplace⟩ := h.next_place hr (by simp) hq
  rw [Radix.walk_cons, Option.bind_eq_some_iff] at ht
  obtain ⟨q', hq', ht⟩ := ht
  obtain ⟨he', hplace'⟩ := h.next_place hplace (by simp) hq'
  obtain rfl := Option.some.inj ht
  rw [findEntry_eq_findLevels (h.used _ _ hr).2, List.map_cons, List.map_cons, List.map_nil,
    findLevels_pointer he (h.used _ _ hplace).2, findLevels_pointer he' (h.used _ _ hplace').2,
    Jokerix.findLevels]

/-! ### Storing at an entry -/

lemma vpn_eq_iff {v v' : ℕ} :
    v' % 2 ^ 27 = v % 2 ^ 27 ↔ vpnPath v' = vpnPath v ∧ vpnIndex v' = vpnIndex v := by
  simp only [vpnPath, vpnIndex, List.cons.injEq, Fin.mk.injEq, and_true]
  omega

/-- A store at the entry of a page keeps all walks. -/
lemma Owned.tableAt_store (h : Owned own s m owner) (hn : owner n = some (.table r path))
    (hlen : path.length = 2) {r' : ℕ} (hr' : owner r' = some (.table r' [])) (path' : Path)
    (hlen' : path'.length ≤ 2) :
    tableAt (Bytes.storeLE 8 m.mem (frameVa n + 8 * i) e) r' path' = tableAt m.mem r' path' := by
  refine Radix.walk_congr fun path₁ n₁ j hlt hn₁ => pte_storeLE_ne (.inl ?_)
  have hown : owner n₁ = some (.table r' path₁) := h.tableAt_owner hr' (by simp; omega) hn₁
  rintro rfl
  rw [hn, Option.some.injEq, Role.table.injEq] at hown
  rw [← hown.2] at hlt
  omega

/-- A store at the entry of a page changes the leaf entry of this page alone. -/
theorem Owned.leafAt_store (h : Owned own s m owner) (hr : owner r = some (.table r []))
    (ht : tableAt m.mem r (vpnPath v) = some n) (he : e < 2 ^ 64) {r' v' : ℕ}
    (hr' : owner r' = some (.table r' [])) :
    leafAt (Bytes.storeLE 8 m.mem (frameVa n + 8 * vpnIndex v) e) r' v' =
      if r' = r ∧ v' % 2 ^ 27 = v % 2 ^ 27 then e else leafAt m.mem r' v' := by
  have hn : owner n = some (.table r (vpnPath v)) := h.tableAt_owner hr (by simp) ht
  have hwalk := h.tableAt_store (i := vpnIndex v) (e := e) hn rfl hr' (vpnPath v') le_rfl
  by_cases hsame : r' = r ∧ v' % 2 ^ 27 = v % 2 ^ 27
  · rw [if_pos hsame]
    obtain ⟨rfl, hsame⟩ := hsame
    obtain ⟨hpath, hindex⟩ := vpn_eq_iff.mp hsame
    rw [leafAt, hwalk, hpath, ht, Option.map_some, Option.getD_some, hindex, pte_storeLE_same he]
  · rw [if_neg hsame]
    refine leafAt_of_table hwalk fun n' ht' => pte_storeLE_ne ?_
    have hn' : owner n' = some (.table r' (vpnPath v')) := h.tableAt_owner hr' (by simp) ht'
    by_contra hcon
    push Not at hcon
    obtain ⟨rfl, hindex⟩ := hcon
    rw [hn, Option.some.injEq, Role.table.injEq] at hn'
    exact hsame ⟨hn'.1.symm, vpn_eq_iff.mpr ⟨hn'.2.symm, hindex⟩⟩

end

end Jokerix
