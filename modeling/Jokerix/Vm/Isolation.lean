import Jokerix.Vm.Loading

/-!
# Isolation of address spaces

Over every run in which the kernel maps itself, starts threads from arbitrary ELF images and in
between leaves the page tables alone: a page that users may access lies in a frame of its own.
-/

namespace Jokerix

/-- The states with the roots of their address spaces: a new allocator, the address space of the
kernel, the address spaces of threads, and any other change of the memory outside the tables. -/
inductive Reach (L : Layout) : Machine → List ℕ → Prop
  | init {m : Machine} {sta : FrameTree}
      (h : newAllocator m.sta L.startPpn (memoryEndPaddr / pageSize) = .ok sta) :
      Reach L { m with sta } []
  | kernel {m m' : Machine} {roots : List ℕ} {root : ℕ} (h : Reach L m roots)
      (hok : mapKernel L m = .ok (root, m')) : Reach L m' (root :: roots)
  | thread {m m' : Machine} {roots : List ℕ} {root data : ℕ} (h : Reach L m roots)
      (hok : newUserThreadMapping L m data = .ok (root, m')) : Reach L m' (root :: roots)
  | change {m m' : Machine} {roots : List ℕ} (h : Reach L m roots) (hsta : m'.sta = m.sta)
      (hmem : ∀ r ∈ roots, ∀ path p, path.length ≤ 2 → tableAt m.mem r path = some p →
        ∀ x, InFrame p x → m'.mem x = m.mem x) : Reach L m' roots

section
variable {L : Layout} {s : ℕ} {m m' : Machine} {owner : ℕ → Option Role} {roots : List ℕ} {r : ℕ}

/-! ### The tables of the address spaces -/

/-- The owners without the tables that no address space reaches. -/
noncomputable def restrict (owner : ℕ → Option Role) (mem : Bytes.Memory) (roots : List ℕ) (p : ℕ) :
    Option Role :=
  open Classical in
  match owner p with
  | some (.table r path) =>
    if r ∈ roots ∧ tableAt mem r path = some p then some (.table r path) else none
  | R => R

lemma restrict_table {mem : Bytes.Memory} {p : ℕ} {path : Path} :
    restrict owner mem roots p = some (.table r path) ↔
      owner p = some (.table r path) ∧ r ∈ roots ∧ tableAt mem r path = some p := by
  unfold restrict
  split
  · rename_i r' path' h
    split_ifs with hreach
    · rw [h, Option.some.injEq, Role.table.injEq]
      constructor
      · rintro ⟨rfl, rfl⟩
        exact ⟨⟨rfl, rfl⟩, hreach⟩
      · exact fun h => h.1
    · rw [h, Option.some.injEq, Role.table.injEq]
      constructor
      · intro h
        cases h
      · rintro ⟨⟨rfl, rfl⟩, h⟩
        exact absurd h hreach
  · rename_i h
    constructor
    · exact fun h' => absurd h' (h r path)
    · exact fun h' => absurd h'.1 (h r path)

lemma restrict_le {mem : Bytes.Memory} {p : ℕ} {R : Role}
    (h : restrict owner mem roots p = some R) : owner p = some R := by
  cases R with
  | table r path => exact (restrict_table.mp h).1
  | page r path =>
    unfold restrict at h
    split at h
    · split_ifs at h
      cases h
    · exact h

lemma restrict_page {mem : Bytes.Memory} {p : ℕ} {path : Path}
    (h : owner p = some (.page r path)) :
    restrict owner mem roots p = some (.page r path) := by
  simp [restrict, h]

lemma Owned.restrict {own : ℕ → Prop} (h : Owned own s m owner) :
    Owned own s m (restrict owner m.mem roots) := by
  refine ⟨h.inv, ?_, ?_, ?_, ?_⟩
  · intro p hp
    obtain ⟨h1, h2, h3⟩ := h.free p hp
    refine ⟨h1, h2, ?_⟩
    cases hR : Jokerix.restrict owner m.mem roots p with
    | none => rfl
    | some R =>
      rw [restrict_le hR] at h3
      cases h3
  · exact fun p R hp => h.used p R (restrict_le hp)
  · exact fun p r path hp => h.depth p r path (restrict_le hp)
  · intro p r path i hp
    obtain ⟨hp, hr, hreach⟩ := restrict_table.mp hp
    rcases h.entry p r path i hp with he | ⟨hlen, q, he, hq⟩ | ⟨hlen, he, huser⟩
    · exact .inl he
    · refine .inr (.inl ⟨hlen, q, he, restrict_table.mpr ⟨hq, hr, ?_⟩⟩)
      rw [tableAt, Radix.walk_concat, ← tableAt, hreach, Option.bind_some, he,
        nextTable_pointer (h.used _ _ hq).2]
    · exact .inr (.inr ⟨hlen, he, fun hu => restrict_page (huser hu)⟩)

/-! ### The invariant -/

/-- All frames in use have an owner, and each address space has the kernel in it. -/
def SpacesInv (L : Layout) (m : Machine) (roots : List ℕ) : Prop :=
  ∃ owner, Owned UserEntry L.startPpn m owner ∧
    ∀ r ∈ roots, owner r = some (.table r []) ∧ KernelMapped L m.mem r

lemma SpacesInv.cons (h : ∀ r ∈ roots, owner r = some (.table r []) ∧ KernelMapped L m.mem r)
    (ho : Owned UserEntry L.startPpn m owner) {owner' : ℕ → Option Role} {root : ℕ}
    (ho' : Owned UserEntry L.startPpn m' owner') (hext : Extends L.startPpn m owner m' owner')
    (hroot : owner' root = some (.table root []) ∧ KernelMapped L m'.mem root) :
    SpacesInv L m' (root :: roots) := by
  refine ⟨owner', ho', ?_⟩
  intro r hr
  rcases List.mem_cons.mp hr with rfl | hr
  · exact hroot
  · obtain ⟨htable, hk⟩ := h r hr
    exact ⟨hext.grows _ _ htable, hk.extends ho htable hext⟩

lemma Layout.startPpn_le (L : Layout) : L.startPpn ≤ memoryEndPaddr / pageSize := by
  obtain ⟨htext, _⟩ := L.bounds
  have hroom := L.room
  simp only [Layout.startPpn, pageSize, memoryEndPaddr, kernelMapOffset, kernelBeginVaddr,
    kernelBeginPaddr] at *
  omega

/-- The frames lie behind the image of the kernel. -/
lemma Layout.kernelEnd_lt (L : Layout) : L.kernelEnd < frameVa L.startPpn := by
  obtain ⟨htext, hrodata, hdata, hbss, hend, _⟩ := L.bounds
  simp only [Layout.startPpn, frameVa, pageSize, kernelMapOffset, kernelBeginVaddr,
    kernelBeginPaddr] at *
  omega

lemma SpacesInv.init {sta : FrameTree}
    (h : newAllocator m.sta L.startPpn (memoryEndPaddr / pageSize) = .ok sta) :
    SpacesInv L { m with sta } [] :=
  ⟨fun _ => none, owned_newAllocator L.startPpn_le h, by simp⟩

theorem Owned.mapKernel (h : Owned UserEntry s m owner) {root : ℕ}
    (hok : mapKernel L m = .ok (root, m')) :
    ∃ owner', Owned UserEntry s m' owner' ∧ Extends s m owner m' owner' ∧
      owner' root = some (.table root []) ∧ KernelMapped L m'.mem root := by
  obtain ⟨m₁, h₁, h₂⟩ := mapKernel_cases hok
  obtain ⟨_, owner₁, ho₁, hext₁, hr₁, hk₁⟩ := h.newKernelMapping h₁
  obtain ⟨owner₂, ho₂, hext₂, _⟩ := ho₁.mapLinearSegments hr₁ extInterrupt_kernelFlags h₂
  exact ⟨owner₂, ho₂, hext₁.trans hext₂, hext₂.grows _ _ hr₁, hk₁.extends ho₁ hr₁ hext₂⟩

/-- The invariant holds in every run. -/
theorem Reach.inv (h : Reach L m roots) : SpacesInv L m roots := by
  induction h with
  | init h => exact .init h
  | kernel _ hok ih =>
    obtain ⟨owner, ho, hroots⟩ := ih
    obtain ⟨owner', ho', hext, hroot⟩ := ho.mapKernel hok
    exact .cons hroots ho ho' hext hroot
  | thread _ hok ih =>
    obtain ⟨owner, ho, hroots⟩ := ih
    obtain ⟨_, owner', ho', hext, hroot⟩ := ho.newUserThreadMapping hok
    exact .cons hroots ho ho' hext hroot
  | change _ hsta hmem ih =>
    rename_i m m' roots _
    obtain ⟨owner, ho, hroots⟩ := ih
    refine ⟨restrict owner m.mem roots, ho.restrict.congr hsta ?_, ?_⟩
    · intro p r path x hp hx
      obtain ⟨hp, hr, hreach⟩ := restrict_table.mp hp
      exact hmem r hr path p (ho.depth p r path hp) hreach x hx
    · intro r hr
      obtain ⟨htable, hk⟩ := hroots r hr
      refine ⟨restrict_table.mpr ⟨htable, hr, rfl⟩, ?_⟩
      intro vpn h1 h2
      obtain ⟨f, hf, hodd, hleaf⟩ := hk vpn h1 h2
      exact ⟨f, hf, hodd, (leafAt_congr (hmem r hr)).trans hleaf⟩

/-! ### Isolation -/

/-- The entry `i` of the table at the end of a path of an address space. -/
structure EntryAt (mem : Bytes.Memory) (roots : List ℕ) (r : ℕ) (path : Path) (i : Fin 512)
    (e : ℕ) : Prop where
  root : r ∈ roots
  depth : path.length ≤ 2
  entry : ∃ n, tableAt mem r path = some n ∧ pte mem n i = e

lemma SpacesInv.tableAt (ho : Owned UserEntry s m owner)
    (hroots : ∀ r ∈ roots, owner r = some (.table r []) ∧ KernelMapped L m.mem r) (hr : r ∈ roots)
    {path : Path} {n : ℕ} (hlen : path.length ≤ 2) (hn : tableAt m.mem r path = some n) :
    owner n = some (.table r path) := by
  have := ho.tableAt_owner (hroots r hr).1 (by simpa using hlen) hn
  rwa [List.nil_append] at this

lemma SpacesInv.userEntry (ho : Owned UserEntry s m owner)
    (hroots : ∀ r ∈ roots, owner r = some (.table r []) ∧ KernelMapped L m.mem r)
    {path : Path} {i : Fin 512} {e : ℕ} (he : EntryAt m.mem roots r path i e) (hu : UserEntry e) :
    path.length = 2 ∧ e % 2 = 1 ∧ owner (e / 2 ^ 10) = some (.page r (path ++ [i])) := by
  obtain ⟨hr, hlen, n, hn, rfl⟩ := he
  have hown := SpacesInv.tableAt ho hroots hr hlen hn
  rw [UserEntry] at hu
  rcases ho.entry n r path i hown with h | ⟨_, q, h, _⟩ | ⟨hthree, hodd, huser⟩
  · rw [h] at hu
    cases hu
  · rw [h, flagUser] at hu
    omega
  · rw [List.length_append, List.length_singleton] at hthree
    exact ⟨by omega, hodd, huser hu⟩

/-- What isolation says of an address space: each entry that lets users access a frame is a leaf of
the last level, the frame was free at first and is not any more, it lies behind the kernel, it is
no table, no other entry lets users access it, and the kernel's own pages stay closed to them. -/
structure Isolated (L : Layout) (m : Machine) (roots : List ℕ) (r : ℕ) : Prop where
  leaf : ∀ path i e, EntryAt m.mem roots r path i e → UserEntry e → path.length = 2 ∧ e % 2 = 1
  managed : ∀ path i e, EntryAt m.mem roots r path i e → UserEntry e →
    e / 2 ^ 10 ∈ Set.Ico L.startPpn endPpn ∧ e / 2 ^ 10 ∉ freeFrames m.sta ∧
      L.kernelEnd < frameVa (e / 2 ^ 10)
  notTable : ∀ path i e, EntryAt m.mem roots r path i e → UserEntry e →
    ∀ r' ∈ roots, ∀ path', path'.length ≤ 2 → tableAt m.mem r' path' ≠ some (e / 2 ^ 10)
  exclusive : ∀ path i e r' path' i' e', EntryAt m.mem roots r path i e →
    EntryAt m.mem roots r' path' i' e' → UserEntry e → UserEntry e' → e / 2 ^ 10 = e' / 2 ^ 10 →
    r' = r ∧ path' = path ∧ i' = i
  kernel : ∀ vpn, L.textStart / pageSize ≤ vpn → vpn < kernelEndVpn →
    leafAt m.mem r vpn % 2 = 1 ∧ ¬ UserEntry (leafAt m.mem r vpn)

/-- In every run, every address space is isolated. -/
theorem addressSpaces_isolated (L : Layout) (m : Machine) (roots : List ℕ) (h : Reach L m roots) :
    ∀ r ∈ roots, Isolated L m roots r := by
  obtain ⟨owner, ho, hroots⟩ := h.inv
  intro r hr
  constructor
  · intro path i e he hu
    obtain ⟨hlen, hodd, _⟩ := SpacesInv.userEntry ho hroots he hu
    exact ⟨hlen, hodd⟩
  · intro path i e he hu
    obtain ⟨_, _, hq⟩ := SpacesInv.userEntry ho hroots he hu
    obtain ⟨h1, h2⟩ := ho.used _ _ hq
    refine ⟨⟨h1, h2⟩, ?_, ?_⟩
    · intro hfree
      rw [(ho.free _ hfree).2.2] at hq
      cases hq
    · refine lt_of_lt_of_le L.kernelEnd_lt ?_
      simp only [frameVa, pageSize]
      omega
  · intro path i e he hu r' hr' path' hlen' hn
    obtain ⟨_, _, hq⟩ := SpacesInv.userEntry ho hroots he hu
    rw [SpacesInv.tableAt ho hroots hr' hlen' hn] at hq
    cases hq
  · intro path i e r' path' i' e' he he' hu hu' hsame
    obtain ⟨_, _, hq⟩ := SpacesInv.userEntry ho hroots he hu
    obtain ⟨_, _, hq'⟩ := SpacesInv.userEntry ho hroots he' hu'
    rw [hsame, hq', Option.some.injEq, Role.page.injEq] at hq
    obtain ⟨rfl, hpath⟩ := hq
    obtain ⟨rfl, hi⟩ := List.append_inj' hpath rfl
    exact ⟨rfl, rfl, List.singleton_inj.mp hi⟩
  · intro vpn h1 h2
    obtain ⟨f, hf, hodd, hleaf⟩ := (hroots r hr).2 vpn h1 h2
    rw [hleaf, UserEntry, flagUser]
    omega

/-- A new allocator, and two threads with one page of data each. -/
theorem addressSpaces_isolated_threads : ∃ m root root', Reach sampleLayout m [root', root] ∧
    root ≠ root' ∧ Isolated sampleLayout m [root', root] root ∧
    Isolated sampleLayout m [root', root] root' := by
  obtain ⟨sta, hnew, ho, hroom⟩ := sample_start
  have hframes : loadFrames (Machine.mem ⟨sampleMemory, sta⟩) sampleElf ≤ 300 := loadFrames_sample
  have hreach : Reach sampleLayout ⟨sampleMemory, sta⟩ [] :=
    .init (m := ⟨sampleMemory, fun _ => 0, 0, 0, 0⟩) hnew
  have hframes' : loadFrames sampleMemory sampleElf ≤ 300 := loadFrames_sample
  obtain ⟨root, m, hok, hroom₁⟩ := ho.newUserThreadMapping_ok sampleLayout loadable_sample
    (by omega)
  obtain ⟨_, owner, ho₁, hext, hroot, _⟩ := ho.newUserThreadMapping hok
  obtain ⟨hload, hframes₁⟩ := loadable_sample.congr fun x hx => hext.outside x hx
  obtain ⟨root', m', hok', _⟩ := ho₁.newUserThreadMapping_ok sampleLayout hload (by omega)
  obtain ⟨hnone, _⟩ := ho₁.newUserThreadMapping hok'
  have hthreads := (hreach.thread hok).thread hok'
  have hisolated := addressSpaces_isolated sampleLayout m' [root', root] hthreads
  refine ⟨m', root, root', hthreads, ?_, hisolated root (by simp), hisolated root' (by simp)⟩
  rintro rfl
  rw [hroot] at hnone
  cases hnone

end

end Jokerix
