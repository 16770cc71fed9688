import Jokerix.Vm.Ownership

/-!
# Finding an entry

What `allocFrame` and `findEntry` do to the ownership of frames: a new table belongs to its place,
and the entry that is found is the one at the end of the path of the page number.
-/

namespace Jokerix

section
variable {own : ℕ → Prop} {s : ℕ} {m m' : Machine} {owner owner' : ℕ → Option Role} {p q r : ℕ}
  {path : Path}
  {i : Fin 512}

/-! ### The elementary changes -/

/-- Only a frame that nobody owned is written. -/
lemma extends_fresh (hq : owner q = none) (hs : s ≤ q) (he : q < endPpn)
    (hgrow : ∀ p R, owner p = some R → owner' p = some R)
    (hmem : ∀ x, ¬ InFrame q x → m'.mem x = m.mem x) : Extends s m owner m' owner' := by
  have hother : ∀ p R, owner p = some R → ∀ x, InFrame p x → m'.mem x = m.mem x := by
    intro p R hp x hx
    apply hmem
    intro hx'
    rw [hx.unique hx', hq] at hp
    cases hp
  constructor
  · exact hgrow
  · intro p r path i hp _
    exact pte_congr (hother p _ hp)
  · intro p r path x hp hx
    exact hother p _ hp x hx
  · intro x hx
    exact hmem x (hx q hs he)

/-- Only a zero entry of a table is written. -/
lemma Owned.extends_setEntry (h : Owned own s m owner) (hp : owner p = some (.table r path))
    (hzero : pte m.mem p i = 0) (e : ℕ) :
    Extends s m owner { m with mem := Bytes.storeLE 8 m.mem (frameVa p + 8 * i) e } owner := by
  constructor
  · exact fun _ _ h => h
  · intro n r path j hn hne
    apply pte_storeLE_ne
    by_contra hcon
    push Not at hcon
    obtain ⟨rfl, rfl⟩ := hcon
    exact hne hzero
  · intro n r' path' x hn hx
    apply storeLE_outside
    intro hx'
    rw [hx.unique hx', hp] at hn
    cases hn
  · intro x hx
    obtain ⟨h1, h2⟩ := h.used _ _ hp
    exact storeLE_outside (hx p h1 h2)

/-- The bytes of pages play no part. -/
lemma Owned.congr (h : Owned own s m owner) (hsta : m'.sta = m.sta)
    (hmem : ∀ p r path x, owner p = some (.table r path) → InFrame p x → m'.mem x = m.mem x) :
    Owned own s m' owner := by
  refine ⟨hsta ▸ h.inv, hsta ▸ h.free, h.used, h.depth, ?_⟩
  intro p r path i hp
  rw [pte_congr fun x hx => hmem p r path x hp hx]
  exact h.entry p r path i hp

lemma Owned.setEntry (h : Owned own s m owner) (hp : owner p = some (.table r path)) {e : ℕ}
    (hlt : e < 2 ^ 64) (he : EntryOk own owner r (path ++ [i]) e) :
    Owned own s { m with mem := Bytes.storeLE 8 m.mem (frameVa p + 8 * i) e } owner := by
  refine ⟨h.inv, h.free, h.used, h.depth, ?_⟩
  intro n r' path' j hn
  by_cases hsame : n = p ∧ j = i
  · obtain ⟨rfl, rfl⟩ := hsame
    rw [hp, Option.some.injEq, Role.table.injEq] at hn
    obtain ⟨rfl, rfl⟩ := hn
    rwa [pte_storeLE_same hlt]
  · rw [pte_storeLE_ne (by tauto)]
    exact h.entry n r' path' j hn

/-- `allocFrame` returns a frame that nobody owned, and clears it. -/
lemma Owned.allocFrame (h : Owned own s m owner) {a : ℕ} (hok : allocFrame m = .ok (a, m')) :
    ∃ q, a = q * pageSize ∧ owner q = none ∧ s ≤ q ∧ q < endPpn ∧
      (∀ x, ¬ InFrame q x → m'.mem x = m.mem x) ∧ (∀ x, InFrame q x → m'.mem x = 0) ∧
      (∃ d, FrameInv d s m'.sta) ∧ freeFrames m'.sta = freeFrames m.sta \ {q} := by
  obtain ⟨d, hd⟩ := h.inv
  rw [Jokerix.allocFrame] at hok
  by_cases hne : (freeFrames m.sta).Nonempty
  · obtain ⟨q, sta, halloc, hleast, hd', _, hfree⟩ := hd.alloc_ok hne
    rw [halloc, Except.ok.injEq, Prod.mk.injEq] at hok
    obtain ⟨rfl, rfl⟩ := hok
    obtain ⟨h1, h2, h3⟩ := h.free q hleast.1
    have hlt : q < 0x87fff := h2
    have haddr : q * pageSize % 2 ^ 64 = q * pageSize := by
      rw [Nat.mod_eq_of_lt]
      simp only [pageSize]
      omega
    obtain ⟨hout, hin⟩ := fill_frame m.mem q 0
    refine ⟨q, haddr, h3, h1, h2, ?_, ?_, ⟨d, hd'⟩, hfree⟩
    · intro x hx
      simp only [haddr, accessVaViaPa_frame h2, hout x hx]
    · intro x hx
      simp only [haddr, accessVaViaPa_frame h2, hin x hx]
  · rw [hd.alloc_error (Set.not_nonempty_iff_eq_empty.mp hne)] at hok
    cases hok

lemma grows_update (hq : owner q = none) (R : Role) :
    ∀ p R', owner p = some R' → Function.update owner q (some R) p = some R' := by
  intro p R' hp
  rwa [Function.update_of_ne]
  rintro rfl
  rw [hq] at hp
  cases hp

/-- A new frame gets a role. -/
lemma Owned.adopt (h : Owned own s m owner) {R : Role} (hq : owner q = none) (hs : s ≤ q)
    (hlt : q < endPpn) (hout : ∀ x, ¬ InFrame q x → m'.mem x = m.mem x)
    (hin : ∀ x, InFrame q x → m'.mem x = 0) (hinv : ∃ d, FrameInv d s m'.sta)
    (hfree : freeFrames m'.sta = freeFrames m.sta \ {q})
    (hdepth : ∀ r path, R = .table r path → path.length ≤ 2) :
    Owned own s m' (Function.update owner q (some R)) := by
  have hgrow := grows_update hq R
  refine ⟨hinv, ?_, ?_, ?_, ?_⟩
  · intro p hp
    rw [hfree] at hp
    obtain ⟨h1, h2, h3⟩ := h.free p hp.1
    exact ⟨h1, h2, by rwa [Function.update_of_ne hp.2]⟩
  · intro p R' hp
    by_cases hpq : p = q
    · rw [hpq]
      exact ⟨hs, hlt⟩
    · rw [Function.update_of_ne hpq] at hp
      exact h.used p R' hp
  · intro p r path hp
    by_cases hpq : p = q
    · rw [hpq, Function.update_self] at hp
      exact hdepth r path (Option.some.inj hp)
    · rw [Function.update_of_ne hpq] at hp
      exact h.depth p r path hp
  · intro p r path i hp
    by_cases hpq : p = q
    · rw [hpq, pte_zero hin]
      exact .inl rfl
    · rw [Function.update_of_ne hpq] at hp
      rw [pte_congr fun x hx => hout x fun hx' => hpq (hx.unique hx')]
      exact (h.entry p r path i hp).mono hgrow

/-! ### `findEntry` -/

/-- After `createTable` the entry points to the table of its place. -/
lemma Owned.createTable (h : Owned own s m owner) (hp : owner p = some (.table r path))
    (hlen : path.length ≤ 1) (hok : createTable m (frameVa p + 8 * i) = .ok m') :
    ∃ owner' q, Owned own s m' owner' ∧ Extends s m owner m' owner' ∧
      owner' q = some (.table r (path ++ [i])) ∧ pte m'.mem p i = q * 2 ^ 10 + 1 := by
  have hlen' : (path ++ [i]).length ≤ 2 := by
    rw [List.length_append, List.length_singleton]
    omega
  rcases createTable_cases hok with ⟨hzero, rfl⟩ | ⟨hzero, a, m₁, halloc, rfl⟩
  · have hne : pte m.mem p i ≠ 0 := hzero
    rcases h.entry p r path i hp with he | ⟨_, q, he, hq⟩ | ⟨hthree, _⟩
    · exact absurd he hne
    · exact ⟨owner, q, h, Extends.refl s m owner, hq, he⟩
    · omega
  · obtain ⟨q, rfl, hq, hs, hlt, hout, hin, hinv, hfree⟩ := h.allocFrame halloc
    have hq' : q < 0x87fff := hlt
    have hpq : p ≠ q := by
      rintro rfl
      rw [hq] at hp
      cases hp
    have hval : q * pageSize / pageSize * 2 ^ 10 ||| flagValid = q * 2 ^ 10 + 1 := by
      rw [Nat.mul_div_cancel q (by decide)]
      exact or_flags (by decide)
    have hgrow := grows_update hq (.table r (path ++ [i]))
    have hadopt := h.adopt hq hs hlt hout hin hinv hfree (R := .table r (path ++ [i]))
      (by
        intro r' path' he
        rw [Role.table.injEq] at he
        rwa [← he.2])
    have hext : Extends s m owner m₁ (Function.update owner q (some (.table r (path ++ [i])))) :=
      extends_fresh hq hs hlt hgrow hout
    have hzero₁ : pte m₁.mem p i = 0 := by
      rw [pte_congr fun x hx => hout x fun hx' => hpq (hx.unique hx')]
      exact hzero
    refine ⟨_, q, hadopt.setEntry (hgrow _ _ hp) (hval ▸ by omega) ?_,
      hext.trans (hadopt.extends_setEntry (hgrow _ _ hp) hzero₁ _), Function.update_self _ _ _, ?_⟩
    · rw [hval]
      exact .inr (.inl ⟨hlen', q, rfl, Function.update_self _ _ _⟩)
    · simp only [hval]
      exact pte_storeLE_same (by omega)

/-- The address that `findEntry` goes on at. -/
lemma entryAddr_pointer (h : q < endPpn) (l : ℕ) :
    entryAddr (((q * 2 ^ 10 + 1) &&& pdeMask) * 4 % 2 ^ 64) l = frameVa q + 8 * l := by
  have h' : q < 0x87fff := h
  have haddr : ((q * 2 ^ 10 + 1) &&& pdeMask) * 4 % 2 ^ 64 = q * pageSize := by
    rw [and_pdeMask]
    simp only [pageSize]
    omega
  rw [haddr, entryAddr, accessVaViaPa_frame h]

/-- The entry at the end of the levels. -/
lemma Owned.findLevels (h : Owned own s m owner) (levels : Path) {path' : Path}
    {j : Fin 512} {a : ℕ}
    (hp : owner p = some (.table r path)) (hlevels : i :: levels = path' ++ [j])
    (hlen : path.length + levels.length ≤ 2)
    (hok : findLevels m (frameVa p + 8 * i) (levels.map Fin.val) = .ok (a, m')) :
    ∃ owner' n, Owned own s m' owner' ∧ Extends s m owner m' owner' ∧
      owner' n = some (.table r (path ++ path')) ∧ tableAt m'.mem p path' = some n ∧
      a = frameVa n + 8 * j := by
  induction levels generalizing m owner p path path' i with
  | nil =>
    rw [List.map_nil, Jokerix.findLevels, Except.ok.injEq, Prod.mk.injEq] at hok
    obtain ⟨rfl, rfl⟩ := hok
    obtain rfl : path' = [] := by
      have := congrArg List.length hlevels
      simp only [List.length_append, List.length_cons, List.length_nil] at this
      exact List.length_eq_zero_iff.mp (by omega)
    rw [List.nil_append, List.cons.injEq] at hlevels
    obtain ⟨rfl, _⟩ := hlevels
    exact ⟨owner, p, h, Extends.refl s m owner, by rwa [List.append_nil], rfl, rfl⟩
  | cons l levels ih =>
    rw [List.map_cons] at hok
    obtain ⟨m₁, hcreate, hok⟩ := findLevels_cases hok
    rw [List.length_cons] at hlen
    obtain ⟨owner₁, q, h₁, hext₁, hq, he⟩ := h.createTable hp (by omega) hcreate
    have haddr : entryAddr ((Bytes.loadLE 8 m₁.mem (frameVa p + 8 * i) &&& pdeMask) * 4 % 2 ^ 64)
        l = frameVa q + 8 * l := by
      rw [show Bytes.loadLE 8 m₁.mem (frameVa p + 8 * i) = q * 2 ^ 10 + 1 from he]
      exact entryAddr_pointer (h₁.used _ _ hq).2 l
    simp only [haddr] at hok
    cases path' with
    | nil =>
      rw [List.nil_append, List.cons.injEq] at hlevels
      cases hlevels.2
    | cons i' path'' =>
      rw [List.cons_append, List.cons.injEq] at hlevels
      obtain ⟨rfl, hlevels⟩ := hlevels
      obtain ⟨owner₂, n, h₂, hext₂, hn, htable, ha⟩ := ih h₁ hq hlevels
        (by rw [List.length_append, List.length_singleton]; omega) hok
      refine ⟨owner₂, n, h₂, hext₁.trans hext₂, by rwa [List.append_assoc] at hn, ?_, ha⟩
      have hnext : nextTable (pte m'.mem p i) = some q := by
        rw [hext₂.entry p r path i (hext₁.grows _ _ hp) (by omega), he]
        exact nextTable_pointer (h₁.used _ _ hq).2
      rw [tableAt, Radix.walk_cons, hnext]
      exact htable

end

/-- The indices of a virtual page number. -/
def vpnPath (vpn : ℕ) : Path :=
  [⟨vpn / 2 ^ 18 % 512, Nat.mod_lt _ (by decide)⟩, ⟨vpn / 2 ^ 9 % 512, Nat.mod_lt _ (by decide)⟩]

def vpnIndex (vpn : ℕ) : Fin 512 := ⟨vpn % 512, Nat.mod_lt _ (by decide)⟩

/-- The leaf entry of a virtual page, zero when it is not mapped. -/
def leafAt (mem : Bytes.Memory) (root vpn : ℕ) : ℕ :=
  ((tableAt mem root (vpnPath vpn)).map fun n => pte mem n (vpnIndex vpn)).getD 0

section
variable {own : ℕ → Prop} {s : ℕ} {m m' : Machine} {owner owner' : ℕ → Option Role} {r n vpn a : ℕ}

lemma findEntry_eq_findLevels (h : r < endPpn) (v : ℕ) : Jokerix.findEntry m r v =
    findLevels m (frameVa r + 8 * (⟨v / 2 ^ 18 % 512, Nat.mod_lt _ (by decide)⟩ : Fin 512))
      (List.map Fin.val [⟨v / 2 ^ 9 % 512, Nat.mod_lt _ (by decide)⟩, vpnIndex v]) := by
  have hlt : r < 0x87fff := h
  have hroot : r * pageSize % 2 ^ 64 = r * pageSize := by
    simp only [pageSize]
    omega
  have hfirst : entryAddr (r * pageSize % 2 ^ 64) (v / 2 ^ 18 % 512) =
      frameVa r + 8 * (v / 2 ^ 18 % 512) := by
    rw [hroot, entryAddr, accessVaViaPa_frame h]
  rw [findEntry]
  simp only [getVpnLevels, List.headD_cons, List.tail_cons, hfirst]
  rfl

/-- `findEntry` finds the entry at the end of the path of the page number. -/
theorem Owned.findEntry (h : Owned own s m owner) (hr : owner r = some (.table r []))
    (hok : findEntry m r vpn = .ok (a, m')) :
    ∃ owner' n, Owned own s m' owner' ∧ Extends s m owner m' owner' ∧
      owner' n = some (.table r (vpnPath vpn)) ∧ tableAt m'.mem r (vpnPath vpn) = some n ∧
      a = frameVa n + 8 * vpnIndex vpn := by
  rw [findEntry_eq_findLevels (h.used _ _ hr).2] at hok
  exact h.findLevels (i := ⟨vpn / 2 ^ 18 % 512, Nat.mod_lt _ (by decide)⟩)
    [⟨vpn / 2 ^ 9 % 512, Nat.mod_lt _ (by decide)⟩, vpnIndex vpn] hr rfl (by simp) hok

/-! ### Leaf entries -/

lemma leafAt_eq {mem : Bytes.Memory} (h : tableAt mem r (vpnPath vpn) = some n) :
    leafAt mem r vpn = pte mem n (vpnIndex vpn) := by
  rw [leafAt, h]
  rfl

/-- A page that is mapped is mapped to the same place later. -/
lemma Owned.leafAt_extends (h : Owned own s m owner) (hext : Extends s m owner m' owner')
    (hr : owner r = some (.table r [])) (hne : leafAt m.mem r vpn ≠ 0) :
    leafAt m'.mem r vpn = leafAt m.mem r vpn := by
  cases ht : tableAt m.mem r (vpnPath vpn) with
  | none => simp [leafAt, ht] at hne
  | some n =>
    have hn : owner n = some (.table r (vpnPath vpn)) :=
      h.tableAt_owner hr (by simp) ht
    rw [leafAt_eq ht] at hne
    rw [leafAt_eq ht, leafAt_eq (h.tableAt_extends hext hr (by simp [vpnPath]) ht)]
    exact hext.entry n r _ _ hn hne

lemma tableAt_congr {mem mem' : Bytes.Memory} {path : Path} (hlen : path.length ≤ 2)
    (h : ∀ path p, path.length ≤ 2 → tableAt mem r path = some p →
      ∀ x, InFrame p x → mem' x = mem x) : tableAt mem' r path = tableAt mem r path :=
  Radix.walk_congr fun path' n _ hlt hn => pte_congr fun x hx => h path' n (by omega) hn x hx

lemma leafAt_of_table {mem mem' : Bytes.Memory}
    (htable : tableAt mem' r (vpnPath vpn) = tableAt mem r (vpnPath vpn))
    (h : ∀ n, tableAt mem r (vpnPath vpn) = some n →
      pte mem' n (vpnIndex vpn) = pte mem n (vpnIndex vpn)) :
    leafAt mem' r vpn = leafAt mem r vpn := by
  cases hn : tableAt mem r (vpnPath vpn) with
  | none =>
    rw [hn] at htable
    rw [leafAt, leafAt, hn, htable, Option.map_none, Option.map_none]
  | some n =>
    rw [hn] at htable
    rw [leafAt_eq hn, leafAt_eq htable, h n hn]

lemma leafAt_congr {mem mem' : Bytes.Memory} {vpn : ℕ}
    (h : ∀ path p, path.length ≤ 2 → tableAt mem r path = some p →
      ∀ x, InFrame p x → mem' x = mem x) : leafAt mem' r vpn = leafAt mem r vpn :=
  leafAt_of_table (tableAt_congr (by simp [vpnPath]) h) fun n hn =>
    pte_congr fun x hx => h _ n (by simp [vpnPath]) hn x hx

/-- A new root table. -/
lemma Owned.newMapping (h : Owned own s m owner) {root : ℕ} (hok : newMapping m = .ok (root, m')) :
    owner root = none ∧ ∃ owner', Owned own s m' owner' ∧ Extends s m owner m' owner' ∧
      owner' root = some (.table root []) := by
  obtain ⟨a, halloc, rfl⟩ := newMapping_cases hok
  obtain ⟨q, rfl, hq, hs, hlt, hout, hin, hinv, hfree⟩ := h.allocFrame halloc
  rw [Nat.mul_div_cancel q (by decide)]
  refine ⟨hq, _, h.adopt hq hs hlt hout hin hinv hfree (R := .table q []) ?_,
    extends_fresh hq hs hlt (grows_update hq _) hout, Function.update_self _ _ _⟩
  intro r path he
  rw [Role.table.injEq] at he
  simp [← he.2]

end

end Jokerix
