import Jokerix.Vm.KernelMap
import Jokerix.Vm.ElfLoading
import Jokerix.Vm.OtherSpaces
import Jokerix.Lib.Paged

/-!
# Loads and stores in an address space

Where an access to a virtual address goes, with the root table that is active. The data of the
kernel is at its own address in every address space; a page of a program belongs to one address
space and is neither data of the kernel nor a table.
-/

namespace Jokerix

/-! ### Accesses -/

/-- The place of an address, if the flags of its page grant the access. -/
def access (grants : ℕ → Bool) (root : ℕ) : Paged.Translation := fun mem va =>
  (sv39Address mem root (va % 2 ^ 64)).bind fun (pa, f) =>
    if grants f then some (accessVaViaPa pa) else none

/-- Loads of the kernel; with `SUM` set it may use the pages of programs. -/
def readPlace : ℕ → Paged.Translation := access fun f => f / flagReadable % 2 = 1

/-- Stores of the kernel. -/
def writePlace : ℕ → Paged.Translation := access fun f => f / flagWritable % 2 = 1

/-- Stores of a program. -/
def userPlace : ℕ → Paged.Translation :=
  access fun f => f / flagWritable % 2 = 1 ∧ f / flagUser % 2 = 1

/-- The byte lies in a table of one of the address spaces. -/
def InTable (mem : Bytes.Memory) (roots : List ℕ) (x : ℕ) : Prop :=
  ∃ r ∈ roots, ∃ path p, path.length ≤ 2 ∧ tableAt mem r path = some p ∧ InFrame p x

section
variable {L : Layout} {s : ℕ} {m m' : Machine} {owner owner' : ℕ → Option Role} {roots : List ℕ}
  {r r' root va va' p : ℕ} {grants : ℕ → Bool}

/-- The leaf entry of the page of an address. -/
def pageEntry (mem : Bytes.Memory) (root va : ℕ) : ℕ := leafAt mem root (va % 2 ^ 64 / pageSize)

/-- The place of an address in the page of an entry. -/
def leafPlace (e va : ℕ) : ℕ :=
  accessVaViaPa (e / 2 ^ 10 % 2 ^ 44 * pageSize + va % 2 ^ 64 % pageSize)

/-- What an access needs of the leaf entry of its page. -/
lemma Owned.access_eq (h : Owned UserEntry s m owner) (hr : owner r = some (.table r [])) :
    access grants r m.mem va =
      if Canonical (va % 2 ^ 64) ∧ IsLeaf (pageEntry m.mem r va) ∧
          grants (pageEntry m.mem r va % 2 ^ 10) then
        some (leafPlace (pageEntry m.mem r va) va)
      else none := by
  rw [access, sv39Address, h.sv39_leaf hr, ← pageEntry]
  by_cases hc : Canonical (va % 2 ^ 64)
  · by_cases hleaf : IsLeaf (pageEntry m.mem r va)
    · simp only [hc, hleaf, if_true, Option.bind_some, pow_zero, Nat.mod_one, Nat.one_mul, true_and,
        leafPlace]
    · simp only [hc, hleaf, if_true, if_false, Option.bind_none, true_and, false_and]
  · simp only [hc, if_false, Option.bind_none, false_and]

/-- Accesses depend on the leaf entries only. -/
lemma Owned.access_congr (h : Owned UserEntry s m owner) (hr : owner r = some (.table r []))
    (h' : Owned UserEntry s m' owner') (hr' : owner' r = some (.table r []))
    (hleaf : ∀ v, leafAt m'.mem r v = leafAt m.mem r v) :
    access grants r m'.mem = access grants r m.mem := by
  funext va
  rw [h.access_eq hr, h'.access_eq hr', pageEntry, hleaf, pageEntry]

/-! ### Pages of programs -/

/-- A place where a program stores: the entry of its page. -/
lemma Owned.userPlace_entry (h : Owned UserEntry s m owner) (hr : owner r = some (.table r []))
    (hp : userPlace r m.mem va = some p) :
    Canonical (va % 2 ^ 64) ∧ IsLeaf (pageEntry m.mem r va) ∧
      pageEntry m.mem r va / flagWritable % 2 = 1 ∧ UserEntry (pageEntry m.mem r va) ∧
      p = leafPlace (pageEntry m.mem r va) va := by
  rw [userPlace, h.access_eq hr] at hp
  generalize pageEntry m.mem r va = e at *
  simp only [Bool.decide_and, Bool.and_eq_true, decide_eq_true_eq] at hp
  split_ifs at hp with hcond
  obtain ⟨hc, hleaf, hwrite, huser⟩ := hcond
  refine ⟨hc, hleaf, ?_, ?_, (Option.some.inj hp).symm⟩
  · simp only [flagWritable] at hwrite ⊢
    omega
  · simp only [UserEntry, flagUser] at huser ⊢
    omega

/-- The frame of a page of a program belongs to this page. -/
lemma SpacesInv.userPlace (ho : Owned UserEntry s m owner)
    (hroots : ∀ r ∈ roots, owner r = some (.table r []) ∧ KernelMapped L m.mem r) (hr : r ∈ roots)
    (hp : userPlace r m.mem va = some p) :
    ∃ q, owner q = some (.page r (pagePath (va % 2 ^ 64 / pageSize))) ∧
      p = frameVa q + va % 2 ^ 64 % pageSize ∧ Canonical (va % 2 ^ 64) := by
  obtain ⟨hc, hleaf, _, huser, hplace⟩ := ho.userPlace_entry (hroots r hr).1 hp
  cases ht : Jokerix.tableAt m.mem r (vpnPath (va % 2 ^ 64 / pageSize)) with
  | none =>
    rw [pageEntry, leafAt, ht] at hleaf
    exact absurd hleaf.1 (by simp)
  | some n =>
    obtain ⟨_, _, hq⟩ := SpacesInv.userEntry ho hroots
      ⟨hr, by simp [vpnPath], n, ht, (leafAt_eq ht).symm⟩ huser
    refine ⟨pageEntry m.mem r va / 2 ^ 10, hq, ?_, hc⟩
    have hlt : pageEntry m.mem r va / 2 ^ 10 < 0x87fff := (ho.used _ _ hq).2
    rw [hplace, leafPlace, Nat.mod_eq_of_lt (by omega)]
    simp only [accessVaViaPa, frameVa, pageSize, kernelMapOffset] at hlt ⊢
    omega

/-- A program that stores to a place finds it at one address only. -/
theorem Reach.userPlace_inj (h : Reach L m roots) (hr : r ∈ roots)
    (hp : userPlace r m.mem va = some p) (hp' : userPlace r m.mem va' = some p) :
    va % 2 ^ 64 = va' % 2 ^ 64 := by
  obtain ⟨owner, ho, hroots⟩ := h.inv
  obtain ⟨q, hq, rfl, hc⟩ := SpacesInv.userPlace ho hroots hr hp
  obtain ⟨q', hq', heq, hc'⟩ := SpacesInv.userPlace ho hroots hr hp'
  generalize va % 2 ^ 64 = v at *
  generalize va' % 2 ^ 64 = v' at *
  have hqq : q = q' ∧ v % pageSize = v' % pageSize := by
    simp only [frameVa, pageSize] at heq ⊢
    omega
  obtain ⟨rfl, hoff⟩ := hqq
  rw [hq, Option.some.injEq, Role.page.injEq] at hq'
  obtain ⟨hpath, hindex⟩ := List.append_inj' hq'.2 rfl
  have hvpn := vpn_eq_iff.mpr ⟨hpath.symm, (List.singleton_inj.mp hindex).symm⟩
  simp only [Canonical, pageSize] at *
  omega

/-- The place lies behind the data of the kernel and in no table. -/
theorem Reach.userPlace_apart (h : Reach L m roots) (hr : r ∈ roots)
    (hp : userPlace r m.mem va = some p) : L.kernelEnd ≤ p ∧ ¬ InTable m.mem roots p := by
  obtain ⟨owner, ho, hroots⟩ := h.inv
  obtain ⟨q, hq, rfl, _⟩ := SpacesInv.userPlace ho hroots hr hp
  obtain ⟨hs, hlt⟩ := ho.used _ _ hq
  have hin : InFrame q (frameVa q + va % 2 ^ 64 % pageSize) :=
    ⟨Nat.le_add_right _ _, Nat.add_lt_add_left (Nat.mod_lt _ (by decide)) _⟩
  constructor
  · by_contra hend
    exact kernelEnd_outside (not_le.mp hend) q hs hlt hin
  · rintro ⟨r', hr', path, n, hlen, hn, hin'⟩
    have htable := SpacesInv.tableAt ho hroots hr' hlen hn
    rw [hin'.unique hin, hq] at htable
    cases htable

lemma writePlace_of_userPlace (hp : userPlace r m.mem va = some p) :
    writePlace r m.mem va = some p := by
  rw [userPlace, access, Option.bind_eq_some_iff] at hp
  obtain ⟨⟨pa, f⟩, hsv, hp⟩ := hp
  rw [writePlace, access, hsv, Option.bind_some]
  simp only [Bool.decide_and, Bool.and_eq_true, decide_eq_true_eq] at hp ⊢
  split_ifs at hp with hcond
  rw [if_pos hcond.1, hp]

/-- What can be written can be read. -/
lemma Reach.readPlace_of_userPlace (h : Reach L m roots) (hr : r ∈ roots)
    (hp : userPlace r m.mem va = some p) : readPlace r m.mem va = some p := by
  obtain ⟨owner, ho, hroots⟩ := h.inv
  obtain ⟨hc, hleaf, hwrite, _, hplace⟩ := ho.userPlace_entry (hroots r hr).1 hp
  rw [hplace, readPlace, ho.access_eq (hroots r hr).1]
  refine if_pos ⟨hc, hleaf, ?_⟩
  rw [decide_eq_true_eq]
  generalize pageEntry m.mem r va = e at hleaf hwrite ⊢
  obtain ⟨_, hperm⟩ := hleaf
  simp only [flagReadable, flagWritable] at hperm hwrite ⊢
  omega

/-- A thread may store to its stack. -/
theorem Reach.newThread_stack (h : Reach L m roots) {data : ℕ}
    (hok : newUserThreadMapping L m data = .ok (root, m')) (h1 : userStackOffset ≤ va)
    (h2 : va < userStackOffset + userStackSize) : ∃ p, userPlace root m'.mem va = some p := by
  obtain ⟨owner, ho, _⟩ := h.inv
  obtain ⟨hpages, hstart, hflags⟩ := userStack_pages
  obtain ⟨m₁, h₁, h₂⟩ := newUserThreadMapping_cases hok
  obtain ⟨_, owner₁, ho₁, _, hr₁, _⟩ := ho.newUserMapping h₁
  obtain ⟨owner₂, ho₂, hext₂, hframed⟩ := ho₁.mapFramedSegment hr₁ hflags h₂
  simp only [userStackOffset, userStackSize] at h1 h2
  obtain ⟨q, hq, hleaf, _⟩ := hframed (va / pageSize - 0xffffffff00000) (by
    rw [hpages]
    simp only [pageSize]
    omega)
  have hvpn : va % 2 ^ 64 / pageSize =
      userStackSegment.startVpn + (va / pageSize - 0xffffffff00000) := by
    rw [hstart]
    simp only [pageSize]
    omega
  have hentry : pageEntry m'.mem root va = q * 2 ^ 10 + 23 := by
    rw [pageEntry, hvpn, hleaf]
    rfl
  refine ⟨_, (ho₂.access_eq (hext₂.grows _ _ hr₁)).trans (if_pos ?_)⟩
  rw [hentry]
  have hmod : (q * 2 ^ 10 + 23) % 2 ^ 10 = 23 := by omega
  refine ⟨.inr ⟨?_, ?_⟩, ⟨?_, ?_⟩, ?_⟩
  · omega
  · omega
  · omega
  · simp only [flagReadable, flagExecutable]
    omega
  · rw [hmod]
    rfl

/-! ### The data of the kernel -/

/-- From its data on the kernel is mapped for reading and writing. -/
def KernelData (L : Layout) (mem : Bytes.Memory) (r : ℕ) : Prop :=
  ∀ vpn, L.dataStart / pageSize ≤ vpn → vpn < kernelEndVpn →
    leafAt mem r vpn = (vpn - kernelPageOffset) * 2 ^ 10 + 7

lemma layout_covers_data (L : Layout) {vpn : ℕ} (h1 : L.dataStart / pageSize ≤ vpn)
    (h2 : vpn < kernelEndVpn) :
    ∃ seg ∈ L.segments, seg.flags = 7 ∧ ∃ k < seg.pages, vpn = seg.startVpn + k := by
  obtain ⟨htext, hrodata, hdata, hbss, hend, hlt⟩ := L.bounds
  simp only [Layout.segments, List.exists_mem_cons_iff]
  refine .inr (.inr ?_)
  by_cases h5 : vpn < L.bssStart / pageSize
  · exact .inl ⟨rfl, pages_of_aligned L.bss_aligned (by omega) (by omega) (by omega) h5⟩
  refine .inr ?_
  by_cases h6 : vpn < L.kernelEnd / pageSize
  · exact .inl ⟨rfl, pages_of_aligned L.end_aligned (by omega) (by omega) (by omega) h6⟩
  refine .inr (.inl ⟨rfl, ?_⟩)
  obtain ⟨haligned, hpos, hlt'⟩ := memoryEnd_aligned
  exact pages_of_aligned haligned hpos hlt' (by omega) h2

lemma kernelData_of_segments {mem : Bytes.Memory}
    (h : ∀ seg ∈ L.segments, ∀ k < seg.pages,
      leafAt mem r (seg.startVpn + k) = linearPte (seg.startVpn + k) seg.flags) :
    KernelData L mem r := by
  intro vpn h1 h2
  obtain ⟨seg, hseg, hflags, k, hk, rfl⟩ := layout_covers_data L h1 h2
  obtain ⟨htext, hrodata, hdata, _⟩ := L.bounds
  rw [h seg hseg k hk, hflags, linearPte_eq (by decide)]
  have hpage : (seg.startVpn + k + 2 ^ 64 - kernelPageOffset) % 2 ^ 54 =
      seg.startVpn + k - kernelPageOffset := by
    simp only [kernelEndVpn, memoryEndPaddr, kernelMapOffset, pageSize, kernelPageOffset] at *
    omega
  rw [hpage]
  rfl

/-- The segments of the kernel are mapped, each with its flags. -/
def KernelEntries (L : Layout) (mem : Bytes.Memory) (r : ℕ) : Prop :=
  ∀ seg ∈ L.segments, ∀ k < seg.pages,
    leafAt mem r (seg.startVpn + k) = linearPte (seg.startVpn + k) seg.flags

lemma KernelEntries.extends (hk : KernelEntries L m.mem r) (h : Owned UserEntry s m owner)
    (hr : owner r = some (.table r [])) (hext : Extends s m owner m' owner') :
    KernelEntries L m'.mem r := fun seg hseg k hlt =>
  h.linear_extends hr hext (layout_kernelFlags L seg hseg).1 (hk seg hseg k hlt)

lemma Owned.newKernelMapping_entries (h : Owned UserEntry s m owner)
    (hok : Jokerix.newKernelMapping L m = .ok (root, m')) : KernelEntries L m'.mem root := by
  obtain ⟨m₁, h₁, h₂⟩ := newKernelMapping_cases hok
  obtain ⟨_, owner₁, ho₁, _, hr₁⟩ := h.newMapping h₁
  obtain ⟨_, _, _, hpages⟩ := ho₁.mapLinearSegments hr₁ (layout_kernelFlags L) h₂
  exact hpages

lemma Owned.mapKernel_entries (h : Owned UserEntry s m owner)
    (hok : Jokerix.mapKernel L m = .ok (root, m')) : KernelEntries L m'.mem root := by
  obtain ⟨m₁, h₁, h₂⟩ := mapKernel_cases hok
  obtain ⟨_, owner₁, ho₁, _, hr₁, _⟩ := h.newKernelMapping h₁
  obtain ⟨_, _, hext₂, _⟩ := ho₁.mapLinearSegments hr₁ extInterrupt_kernelFlags h₂
  exact (h.newKernelMapping_entries h₁).extends ho₁ hr₁ hext₂

lemma Owned.newUserThreadMapping_entries {data : ℕ} (h : Owned UserEntry s m owner)
    (hok : Jokerix.newUserThreadMapping L m data = .ok (root, m')) :
    KernelEntries L m'.mem root := by
  obtain ⟨m₁, h₁, h₂⟩ := newUserThreadMapping_cases hok
  obtain ⟨_, owner₁, ho₁, _, hr₁, _⟩ := h.newUserMapping h₁
  obtain ⟨_, _, hext₂, _⟩ := ho₁.mapFramedSegment hr₁ (by decide) h₂
  refine KernelEntries.extends ?_ ho₁ hr₁ hext₂
  obtain ⟨m₃, h₃, _, h₄⟩ := newUserMapping_cases h₁
  obtain ⟨_, owner₃, ho₃, hext₃, hr₃, _⟩ := h.newKernelMapping h₃
  obtain ⟨_, _, hext₄, _⟩ := ho₃.mapProgHeaders hr₃ (fun x hx => hext₃.outside x hx) h₄
  exact (h.newKernelMapping_entries h₃).extends ho₃ hr₃ hext₄

/-- Every address space has the segments of the kernel. -/
theorem Reach.kernelEntries (h : Reach L m roots) : ∀ r ∈ roots, KernelEntries L m.mem r := by
  induction h with
  | init h => simp
  | kernel h hok ih =>
    obtain ⟨owner, ho, hroots⟩ := h.inv
    obtain ⟨_, _, hext, _⟩ := ho.mapKernel hok
    rw [List.forall_mem_cons]
    exact ⟨ho.mapKernel_entries hok, fun r hr => (ih r hr).extends ho (hroots r hr).1 hext⟩
  | thread h hok ih =>
    obtain ⟨owner, ho, hroots⟩ := h.inv
    obtain ⟨_, _, _, hext, _⟩ := ho.newUserThreadMapping hok
    rw [List.forall_mem_cons]
    exact ⟨ho.newUserThreadMapping_entries hok,
      fun r hr => (ih r hr).extends ho (hroots r hr).1 hext⟩
  | change _ _ hmem ih =>
    intro r hr seg hseg k hk
    rw [leafAt_congr (hmem r hr)]
    exact ih r hr seg hseg k hk

/-- Every address space has the data of the kernel. -/
theorem Reach.kernelData (h : Reach L m roots) : ∀ r ∈ roots, KernelData L m.mem r :=
  fun r hr => kernelData_of_segments (h.kernelEntries r hr)

/-- The kernel reads and writes its data at its own address, whichever address space is active. -/
theorem Reach.kernelPlace (h : Reach L m roots) (hr : r ∈ roots) (h1 : L.dataStart ≤ va)
    (h2 : va < L.kernelEnd) : readPlace r m.mem va = some va ∧ writePlace r m.mem va = some va := by
  obtain ⟨owner, ho, hroots⟩ := h.inv
  obtain ⟨htext, hrodata, hdata, hbss, hend, hlt⟩ := L.bounds
  have hroom := L.room
  have hleaf := h.kernelData r hr (va / pageSize) (Nat.div_le_div_right h1) (by
    rw [kernelEndVpn, Nat.div_lt_iff_lt_mul (by decide),
      Nat.div_mul_cancel memoryEnd_aligned.1]
    omega)
  have hhigh : kernelMapOffset ≤ va := by
    simp only [kernelMapOffset]
    omega
  have hsv := ho.sv39Address_linear (hroots r hr).1
    (.inr ⟨by omega, by omega⟩) hhigh (.inr (.inr rfl)) hleaf
  have hback : accessVaViaPa (va - kernelMapOffset) = va := by
    simp only [accessVaViaPa, kernelMapOffset] at hhigh ⊢
    omega
  rw [readPlace, writePlace, access, access, Nat.mod_eq_of_lt (by omega), hsv, Option.bind_some,
    Option.bind_some]
  simp only [hback]
  exact ⟨rfl, rfl⟩

/-! ### The address space of the kernel -/

/-- With the kernel's own tables an access goes to its address, where there is anything. -/
lemma KernelSpace.readPlace (hk : KernelSpace L m.mem root) (h : Reach L m roots)
    (hr : root ∈ roots)
    (hp : readPlace root m.mem va = some p) : p = va % 2 ^ 64 ∧ ∃ f, L.perm p = some f := by
  obtain ⟨owner, ho, hroots⟩ := h.inv
  rw [Jokerix.readPlace, access, hk.sv39Address ho (hroots root hr).1, Option.bind_eq_some_iff]
    at hp
  obtain ⟨⟨pa, f⟩, hsv, hp⟩ := hp
  obtain ⟨f', hperm, hpa⟩ := Option.map_eq_some_iff.mp hsv
  obtain ⟨rfl, rfl⟩ := Prod.mk.inj hpa
  obtain ⟨_, hhigh⟩ := canonical_of_perm hperm
  have hlt : va % 2 ^ 64 < 2 ^ 64 := Nat.mod_lt _ (by norm_num)
  have hback : accessVaViaPa (va % 2 ^ 64 - kernelMapOffset) = va % 2 ^ 64 := by
    simp only [accessVaViaPa, kernelMapOffset] at hhigh ⊢
    omega
  dsimp only at hp
  split_ifs at hp
  rw [hback, Option.some.injEq] at hp
  exact ⟨hp.symm, f', hp ▸ hperm⟩

/-- What a program stores in its pages, the kernel's own tables do not lead to. -/
theorem KernelSpace.readPlace_ne (hk : KernelSpace L m.mem root) (h : Reach L m roots)
    (hroot : root ∈ roots) (hr : r ∈ roots) (hp : userPlace r m.mem va = some p) :
    Jokerix.readPlace root m.mem va ≠ some p := by
  intro hread
  obtain ⟨heq, _⟩ := hk.readPlace h hroot hread
  obtain ⟨owner, ho, hroots⟩ := h.inv
  obtain ⟨_, _, _, huser, _⟩ := ho.userPlace_entry (hroots r hr).1 hp
  obtain ⟨q, hq, hplace, _⟩ := SpacesInv.userPlace ho hroots hr hp
  obtain ⟨hs, hlt⟩ := ho.used _ _ hq
  have hlt' : q < 0x87fff := hlt
  obtain ⟨htext, _⟩ := L.bounds
  -- the place is an address of the kernel, and these are closed to programs
  have hvpn : L.textStart / pageSize ≤ va % 2 ^ 64 / pageSize ∧
      va % 2 ^ 64 / pageSize < kernelEndVpn := by
    rw [heq] at hplace
    have hstart : 0x80200 ≤ L.startPpn := by
      have hends := L.bounds
      simp only [Layout.startPpn, kernelBeginVaddr, kernelBeginPaddr, pageSize]
      omega
    rw [htext]
    simp only [kernelEndVpn, memoryEndPaddr, kernelMapOffset, frameVa, pageSize] at *
    omega
  obtain ⟨f, hf, _, hleaf⟩ := (hroots r hr).2 _ hvpn.1 hvpn.2
  rw [pageEntry, hleaf, UserEntry, flagUser] at huser
  omega

/-! ### Changes -/

/-- The memory changes outside the tables. -/
theorem Reach.store (h : Reach L m roots) (mem : Bytes.Memory)
    (hmem : ∀ x, InTable m.mem roots x → mem x = m.mem x) :
    Reach L { m with mem } roots ∧ ∀ r ∈ roots, (∀ v, leafAt mem r v = leafAt m.mem r v) ∧
      ∀ grants, access grants r mem = access grants r m.mem := by
  have hsame : ∀ r ∈ roots, ∀ path p, path.length ≤ 2 → tableAt m.mem r path = some p →
      ∀ x, InFrame p x → mem x = m.mem x :=
    fun r hr path p hlen hp x hx => hmem x ⟨r, hr, path, p, hlen, hp, hx⟩
  have h' : Reach L { m with mem } roots := .change h rfl hsame
  refine ⟨h', fun r hr => ⟨fun v => leafAt_congr (hsame r hr), fun grants => ?_⟩⟩
  obtain ⟨owner, ho, hroots⟩ := h.inv
  obtain ⟨owner', ho', hroots'⟩ := h'.inv
  have hleaf : ∀ v, leafAt mem r v = leafAt m.mem r v := fun v => leafAt_congr (hsame r hr)
  funext va
  rw [show mem = ({ m with mem } : Machine).mem from rfl, ho'.access_eq (hroots' r hr).1,
    ho.access_eq (hroots r hr).1, pageEntry, hleaf, pageEntry]

/-- A new thread. -/
theorem Reach.newThread (h : Reach L m roots) {data : ℕ}
    (hok : newUserThreadMapping L m data = .ok (root, m')) :
    Reach L m' (root :: roots) ∧
    (∀ r ∈ roots, (∀ v, leafAt m'.mem r v = leafAt m.mem r v) ∧
      ∀ grants, access grants r m'.mem = access grants r m.mem) ∧
    (∀ r ∈ roots, ∀ va p, userPlace r m.mem va = some p → m'.mem p = m.mem p) ∧
    ∀ x < L.kernelEnd, m'.mem x = m.mem x := by
  have h' := h.thread hok
  obtain ⟨owner, ho, hroots⟩ := h.inv
  obtain ⟨owner', ho', hroots'⟩ := h'.inv
  obtain ⟨_, _, _, hext, _⟩ := ho.newUserThreadMapping hok
  have hleaf : ∀ r ∈ roots, ∀ v, leafAt m'.mem r v = leafAt m.mem r v := fun r hr v =>
    ho.newUserThreadMapping_others hok (hroots r hr).1 v
  refine ⟨h', fun r hr => ⟨hleaf r hr, fun grants => ?_⟩, ?_, ?_⟩
  · exact ho.access_congr (hroots r hr).1 ho' (hroots' r (List.mem_cons_of_mem _ hr)).1 (hleaf r hr)
  · intro r hr va p hp
    obtain ⟨q, hq, rfl, _⟩ := SpacesInv.userPlace ho hroots hr hp
    exact hext.page q _ _ _ hq
      ⟨Nat.le_add_right _ _, Nat.add_lt_add_left (Nat.mod_lt _ (by decide)) _⟩
  · exact fun x hx => hext.outside x (kernelEnd_outside hx)

end

end Jokerix
