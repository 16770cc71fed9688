import Jokerix.Vm.Accesses

/-!
# Accesses of programs

Loads and stores of a program go through entries that are open to users, so that they stay in the
pages of its own address space. Whatever kind of access it is, another address space does not lead
to the same place, and neither do the kernel's data and the tables lie there.
-/

namespace Jokerix

/-- Every page that the access may use is open to users. -/
def UserOnly (grants : ℕ → Bool) : Prop := ∀ f, grants f = true → f / flagUser % 2 = 1

/-- Loads of a program. -/
def loadPlace : ℕ → Paged.Translation :=
  access fun f => f / flagReadable % 2 = 1 ∧ f / flagUser % 2 = 1

section
variable {L : Layout} {s : ℕ} {m m' : Machine} {owner : ℕ → Option Role} {roots : List ℕ}
  {r r' root va va' p : ℕ} {grants grants' : ℕ → Bool}

lemma userOnly_load : UserOnly fun f => f / flagReadable % 2 = 1 ∧ f / flagUser % 2 = 1 :=
  fun _ h => (of_decide_eq_true h).2

lemma userOnly_store : UserOnly fun f => f / flagWritable % 2 = 1 ∧ f / flagUser % 2 = 1 :=
  fun _ h => (of_decide_eq_true h).2

/-- The frame of the page belongs to this page. -/
lemma SpacesInv.userAccess (ho : Owned UserEntry s m owner)
    (hroots : ∀ r ∈ roots, owner r = some (.table r []) ∧ KernelMapped L m.mem r) (hr : r ∈ roots)
    (hg : UserOnly grants) (hp : access grants r m.mem va = some p) :
    ∃ q, owner q = some (.page r (pagePath (va % 2 ^ 64 / pageSize))) ∧
      p = frameVa q + va % 2 ^ 64 % pageSize ∧ Canonical (va % 2 ^ 64) := by
  rw [ho.access_eq (hroots r hr).1] at hp
  split_ifs at hp with hcond
  obtain ⟨hc, hleaf, hgrants⟩ := hcond
  have huser : UserEntry (pageEntry m.mem r va) := by
    have hbit := hg _ hgrants
    simp only [UserEntry, flagUser] at hbit ⊢
    omega
  cases ht : Jokerix.tableAt m.mem r (vpnPath (va % 2 ^ 64 / pageSize)) with
  | none =>
    rw [pageEntry, leafAt, ht] at hleaf
    exact absurd hleaf.1 (by simp)
  | some n =>
    obtain ⟨_, _, hq⟩ := SpacesInv.userEntry ho hroots
      ⟨hr, by simp [vpnPath], n, ht, (leafAt_eq ht).symm⟩ huser
    refine ⟨pageEntry m.mem r va / 2 ^ 10, hq, ?_, hc⟩
    have hlt : pageEntry m.mem r va / 2 ^ 10 < 0x87fff := (ho.used _ _ hq).2
    rw [← Option.some.inj hp, leafPlace, Nat.mod_eq_of_lt (by omega)]
    simp only [accessVaViaPa, frameVa, pageSize, kernelMapOffset] at hlt ⊢
    omega

/-- A place belongs to one address of one address space. -/
theorem Reach.userAccess_inj (h : Reach L m roots) (hr : r ∈ roots) (hr' : r' ∈ roots)
    (hg : UserOnly grants) (hg' : UserOnly grants') (hp : access grants r m.mem va = some p)
    (hp' : access grants' r' m.mem va' = some p) : r = r' ∧ va % 2 ^ 64 = va' % 2 ^ 64 := by
  obtain ⟨owner, ho, hroots⟩ := h.inv
  obtain ⟨q, hq, rfl, hc⟩ := SpacesInv.userAccess ho hroots hr hg hp
  obtain ⟨q', hq', heq, hc'⟩ := SpacesInv.userAccess ho hroots hr' hg' hp'
  generalize va % 2 ^ 64 = v at *
  generalize va' % 2 ^ 64 = v' at *
  have hqq : q = q' ∧ v % pageSize = v' % pageSize := by
    simp only [frameVa, pageSize] at heq ⊢
    omega
  obtain ⟨rfl, hoff⟩ := hqq
  rw [hq, Option.some.injEq, Role.page.injEq] at hq'
  obtain ⟨hrr, hpagePath⟩ := hq'
  obtain ⟨hpath, hindex⟩ := List.append_inj' hpagePath rfl
  have hvpn := vpn_eq_iff.mpr ⟨hpath.symm, (List.singleton_inj.mp hindex).symm⟩
  refine ⟨hrr, ?_⟩
  simp only [Canonical, pageSize] at *
  omega

/-- The place lies behind the data of the kernel and in no table. -/
theorem Reach.userAccess_apart (h : Reach L m roots) (hr : r ∈ roots) (hg : UserOnly grants)
    (hp : access grants r m.mem va = some p) : L.kernelEnd ≤ p ∧ ¬ InTable m.mem roots p := by
  obtain ⟨owner, ho, hroots⟩ := h.inv
  obtain ⟨q, hq, rfl, _⟩ := SpacesInv.userAccess ho hroots hr hg hp
  obtain ⟨hs, hlt⟩ := ho.used _ _ hq
  have hin : InFrame q (frameVa q + va % 2 ^ 64 % pageSize) :=
    ⟨Nat.le_add_right _ _, Nat.add_lt_add_left (Nat.mod_lt _ (by decide)) _⟩
  constructor
  · by_contra hend
    exact kernelEnd_outside (not_le.mp hend) q hs hlt hin
  · rintro ⟨r', hr', path, n, hlen, hn, hin'⟩
    have htable := SpacesInv.tableAt ho hroots hr' hlen hn
    rw [hin'.unique hin, hq] at htable
    cases htable

/-- Where a program may store, it may load from the same place. -/
lemma Reach.loadPlace_of_userPlace (h : Reach L m roots) (hr : r ∈ roots)
    (hp : userPlace r m.mem va = some p) : loadPlace r m.mem va = some p := by
  have hread := h.readPlace_of_userPlace hr hp
  rw [readPlace, userPlace, access, Option.bind_eq_some_iff] at *
  obtain ⟨⟨pa, f⟩, hsv, hread⟩ := hread
  obtain ⟨_, hsv', hp⟩ := hp
  obtain rfl := Option.some.inj (hsv.symm.trans hsv')
  rw [loadPlace, access, hsv, Option.bind_some]
  simp only [Bool.decide_and, Bool.and_eq_true, decide_eq_true_eq] at hp hread ⊢
  split_ifs at hp hread with hstore hload
  rw [if_pos ⟨hload, hstore.2⟩, hread]

/-- A table lies behind the data of the kernel. -/
lemma Reach.inTable_apart (h : Reach L m roots) {x : ℕ} (hx : InTable m.mem roots x) :
    L.kernelEnd ≤ x := by
  obtain ⟨owner, ho, hroots⟩ := h.inv
  obtain ⟨r, hr, path, n, hlen, hn, hin⟩ := hx
  obtain ⟨hs, hlt⟩ := ho.used _ _ (SpacesInv.tableAt ho hroots hr hlen hn)
  by_contra hend
  exact kernelEnd_outside (not_le.mp hend) n hs hlt hin

/-- The data of the kernel may change. -/
lemma Reach.setData (h : Reach L m roots) (mem : Bytes.Memory)
    (hmem : ∀ x, L.kernelEnd ≤ x → mem x = m.mem x) :
    Reach L { m with mem } roots ∧ ∀ r ∈ roots, (∀ v, leafAt mem r v = leafAt m.mem r v) ∧
      ∀ grants, access grants r mem = access grants r m.mem :=
  h.store mem fun x hx => hmem x (h.inTable_apart hx)

/-- A new thread has a root table of its own, and the places of all others keep their bytes. -/
theorem Reach.newThread_others (h : Reach L m roots) {data : ℕ}
    (hok : newUserThreadMapping L m data = .ok (root, m')) :
    root ∉ roots ∧ ∀ r ∈ roots, ∀ grants, UserOnly grants → ∀ va p,
      access grants r m.mem va = some p → m'.mem p = m.mem p := by
  obtain ⟨owner, ho, hroots⟩ := h.inv
  obtain ⟨hnone, _, _, hext, _⟩ := ho.newUserThreadMapping hok
  refine ⟨fun hmem => ?_, fun r hr grants hg va p hp => ?_⟩
  · rw [(hroots root hmem).1] at hnone
    cases hnone
  · obtain ⟨q, hq, rfl, _⟩ := SpacesInv.userAccess ho hroots hr hg hp
    exact hext.page q _ _ _ hq
      ⟨Nat.le_add_right _ _, Nat.add_lt_add_left (Nat.mod_lt _ (by decide)) _⟩

end

end Jokerix
