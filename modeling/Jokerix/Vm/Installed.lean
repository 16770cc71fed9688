import Jokerix.Vm.PageMap
import Jokerix.Vm.MapPages

/-!
# What a completed mapping leaves

The loop that maps the pages of a segment completes only if none of them was mapped before. It then
has filled in the entry of every page, and of no other one.
-/

namespace Jokerix

section
variable {own : ℕ → Prop} {s : ℕ} {m m' : Machine} {owner owner' : ℕ → Option Role}
  {p q r n v a e vpn count : ℕ} {path : Path} {i : Fin 512}

/-! ### Frames that are not in use -/

/-- Fewer leaves are to be owned. -/
lemma Owned.weaken (h : Owned own s m owner) : Owned (fun _ => False) s m owner := by
  refine ⟨h.inv, h.free, h.used, h.depth, ?_⟩
  intro p r path i hp
  rcases h.entry p r path i hp with he | hpointer | ⟨hlen, hodd, _⟩
  · exact .inl he
  · exact .inr (.inl hpointer)
  · exact .inr (.inr ⟨hlen, hodd, fun hf => hf.elim⟩)

/-- The frames in use have the same bytes. -/
def SameInUse (owner : ℕ → Option Role) (mem mem' : Bytes.Memory) : Prop :=
  ∀ p R, owner p = some R → ∀ x, InFrame p x → mem' x = mem x

/-- Writing to a frame that nobody owns changes no frame in use. -/
lemma SameInUse.of_fresh {mem mem' : Bytes.Memory} (hq : owner q = none)
    (hmem : ∀ x, ¬ InFrame q x → mem' x = mem x) : SameInUse owner mem mem' := by
  intro p R hp x hx
  apply hmem
  intro hx'
  rw [hx.unique hx', hq] at hp
  cases hp

lemma Owned.tableAt_same (h : Owned own s m owner) (hr : owner r = some (.table r []))
    {mem' : Bytes.Memory} (hsame : SameInUse owner m.mem mem') (hlen : path.length ≤ 2) :
    tableAt mem' r path = tableAt m.mem r path :=
  tableAt_congr hlen fun _ p hlen hp =>
    hsame p _ (h.tableAt_owner hr (by simpa using hlen) hp)

lemma Owned.leafAt_same (h : Owned own s m owner) (hr : owner r = some (.table r []))
    {mem' : Bytes.Memory} (hsame : SameInUse owner m.mem mem') (v : ℕ) :
    leafAt mem' r v = leafAt m.mem r v :=
  leafAt_congr fun _ p hlen hp => hsame p _ (h.tableAt_owner hr (by simpa using hlen) hp)

/-- Nothing that is in use changes when a frame is allocated. -/
lemma Owned.allocFrame_same (h : Owned own s m owner) (hok : Jokerix.allocFrame m = .ok (a, m')) :
    ∃ q, a = q * pageSize ∧ owner q = none ∧ q < endPpn ∧ Owned own s m' owner ∧
      SameInUse owner m.mem m'.mem := by
  obtain ⟨q, rfl, hq, hs, hlt, hout, hin, hinv, hfree⟩ := h.allocFrame hok
  have hsame : SameInUse owner m.mem m'.mem := .of_fresh hq hout
  refine ⟨q, rfl, hq, hlt, ⟨hinv, ?_, h.used, h.depth, ?_⟩, hsame⟩
  · intro p hp
    rw [hfree] at hp
    exact h.free p hp.1
  · intro p r path i hp
    rw [pte_congr (hsame p _ hp)]
    exact h.entry p r path i hp

/-! ### One page -/

/-- The entry of a virtual page depends on the lower bits of its number only. -/
lemma leafAt_mod {mem : Bytes.Memory} {v v' : ℕ} (h : v % 2 ^ 27 = v' % 2 ^ 27) :
    leafAt mem r v = leafAt mem r v' := by
  obtain ⟨hpath, hindex⟩ := vpn_eq_iff.mp h
  rw [leafAt, leafAt, hpath, hindex]

/-- `install` fills in the entry of one page and leaves the entries of the other pages alone. -/
def FillsOne {σ : Type*} (s r : ℕ)
    (install : σ → Machine → ℕ → ℕ → Except Halt (σ × Machine)) : Prop :=
  ∀ st m owner vpn n st' m', Owned (fun _ => False) s m owner → owner r = some (.table r []) →
    tableAt m.mem r (vpnPath vpn) = some n →
    install st m (frameVa n + 8 * vpnIndex vpn) vpn = .ok (st', m') →
    Owned (fun _ => False) s m' owner ∧ leafAt m'.mem r vpn % 2 = 1 ∧
      ∀ v, v % 2 ^ 27 ≠ vpn % 2 ^ 27 → leafAt m'.mem r v = leafAt m.mem r v

/-- The table of the page is still there. -/
lemma FillsOne.table {σ : Type*} {install : σ → Machine → ℕ → ℕ → Except Halt (σ × Machine)}
    {st st' : σ} (hfills : FillsOne s r install) (h : Owned (fun _ => False) s m owner)
    (hr : owner r = some (.table r [])) (ht : tableAt m.mem r (vpnPath vpn) = some n)
    (hok : install st m (frameVa n + 8 * vpnIndex vpn) vpn = .ok (st', m')) :
    ∃ n', tableAt m'.mem r (vpnPath vpn) = some n' := by
  obtain ⟨_, hodd, _⟩ := hfills _ _ _ _ _ _ _ h hr ht hok
  cases ht' : tableAt m'.mem r (vpnPath vpn) with
  | none => simp [leafAt, ht'] at hodd
  | some n' => exact ⟨n', rfl⟩

/-- Storing a valid entry for a page. -/
lemma Owned.store_odd (h : Owned (fun _ => False) s m owner) (hr : owner r = some (.table r []))
    (ht : tableAt m.mem r (vpnPath vpn) = some n) (hlt : e < 2 ^ 64) (hodd : e % 2 = 1) :
    let mem' := Bytes.storeLE 8 m.mem (frameVa n + 8 * vpnIndex vpn) e
    Owned (fun _ => False) s { m with mem := mem' } owner ∧ leafAt mem' r vpn % 2 = 1 ∧
      ∀ v, v % 2 ^ 27 ≠ vpn % 2 ^ 27 → leafAt mem' r v = leafAt m.mem r v := by
  have hn : owner n = some (.table r (vpnPath vpn)) := h.tableAt_owner hr (by simp) ht
  refine ⟨h.setEntry hn hlt (.inr (.inr ⟨by simp [vpnPath], hodd, fun hf => hf.elim⟩)), ?_, ?_⟩
  · rw [h.leafAt_store hr ht hlt hr, if_pos ⟨rfl, rfl⟩]
    exact hodd
  · intro v hne
    rw [h.leafAt_store hr ht hlt hr, if_neg fun heq => hne heq.2]

lemma or_valid_odd (e : ℕ) : (e ||| flagValid) % 2 = 1 := Nat.or_mod_two_eq_one.mpr (.inr rfl)

lemma fillsOne_linear {f : ℕ} (hf : f < 2 ^ 64) : FillsOne s r (installLinear f) := by
  intro st m owner vpn n st' m' h hr ht hok
  rw [installLinear, Except.ok.injEq, Prod.mk.injEq] at hok
  obtain ⟨_, rfl⟩ := hok
  refine h.store_odd hr ht ?_ (or_valid_odd _)
  exact Nat.or_lt_two_pow (Nat.or_lt_two_pow (Nat.mod_lt _ (by norm_num)) hf) (by decide)

/-- A new frame behind an entry, whatever is then written to the frame. -/
lemma Owned.store_framed (h : Owned (fun _ => False) s m owner) (hr : owner r = some (.table r []))
    (ht : tableAt m.mem r (vpnPath vpn) = some n) {f : ℕ} (hf : f < 2 ^ 64) {m₁ : Machine}
    (halloc : Jokerix.allocFrame m = .ok (a, m₁)) :
    ∃ q, a = q * pageSize ∧ q < endPpn ∧ ∀ mem' : Bytes.Memory,
      (∀ x, ¬ InFrame q x → mem' x =
        Bytes.storeLE 8 m₁.mem (frameVa n + 8 * vpnIndex vpn) (framedPte a f) x) →
      Owned (fun _ => False) s { m₁ with mem := mem' } owner ∧ leafAt mem' r vpn % 2 = 1 ∧
        ∀ v, v % 2 ^ 27 ≠ vpn % 2 ^ 27 → leafAt mem' r v = leafAt m.mem r v := by
  obtain ⟨q, rfl, hq, hlt, h₁, hsame₁⟩ := h.allocFrame_same halloc
  have hlt' : q < 0x87fff := hlt
  have hpte : framedPte (q * pageSize) f < 2 ^ 64 := by
    refine Nat.or_lt_two_pow (Nat.or_lt_two_pow ?_ hf) (by decide)
    simp only [pageSize]
    omega
  have ht₁ : tableAt m₁.mem r (vpnPath vpn) = some n := by
    rw [h.tableAt_same hr hsame₁ (by simp [vpnPath]), ht]
  obtain ⟨h₂, hodd, hother⟩ := h₁.store_odd hr ht₁ hpte (or_valid_odd _)
  refine ⟨q, rfl, hlt, ?_⟩
  intro mem' hmem'
  have hsame : SameInUse owner _ mem' := .of_fresh hq hmem'
  refine ⟨h₂.congr rfl fun p r path x hp hx => hsame p _ hp x hx, ?_, ?_⟩
  · rw [h₂.leafAt_same hr hsame]
    exact hodd
  · intro v hne
    rw [h₂.leafAt_same hr hsame, hother v hne, h.leafAt_same hr hsame₁]

lemma fillsOne_framed {f : ℕ} (hf : f < 2 ^ 64) : FillsOne s r (installFramed f) := by
  intro st m owner vpn n st' m' h hr ht hok
  obtain ⟨a, m₁, halloc, rfl⟩ := installFramed_cases hok
  obtain ⟨q, rfl, _, hfills⟩ := h.store_framed hr ht hf halloc
  exact hfills _ fun _ _ => rfl

lemma fillsOne_copy {f : ℕ} (hf : f < 2 ^ 64) : FillsOne s r (installCopy f) := by
  intro st m owner vpn n st' m' h hr ht hok
  obtain ⟨a, m₁, halloc, _, rfl⟩ := installCopy_cases hok
  obtain ⟨q, rfl, hlt, hfills⟩ := h.store_framed hr ht hf halloc
  rw [accessVaViaPa_frame hlt]
  exact hfills _ fun x hx => copyPage_outside hx

/-! ### The loop -/

/-- The pages from `vpn` on have been mapped, and no other ones. -/
structure Filled (mem mem' : Bytes.Memory) (r vpn count : ℕ) : Prop where
  distinct : count ≤ 2 ^ 27
  vacant : ∀ k < count, leafAt mem r (vpn + k) = 0
  odd : ∀ k < count, leafAt mem' r (vpn + k) % 2 = 1
  other : ∀ v, (∀ k < count, v % 2 ^ 27 ≠ (vpn + k) % 2 ^ 27) → leafAt mem' r v = leafAt mem r v

variable {σ : Type*} {install : σ → Machine → ℕ → ℕ → Except Halt (σ × Machine)}

/-- The rule for completed loops. -/
theorem mapPages_filled {st : σ} (hfills : FillsOne s r install)
    (h : Owned (fun _ => False) s m owner) (hr : owner r = some (.table r []))
    (hok : mapPages install r st m vpn count = .ok m') :
    Filled m.mem m'.mem r vpn count ∧ ∃ owner', Owned (fun _ => False) s m' owner' ∧
      ∀ p R, owner p = some R → owner' p = some R := by
  induction count generalizing st m owner vpn with
  | zero =>
    obtain rfl := Except.ok.inj hok
    exact ⟨⟨by omega, by simp, by simp, fun _ _ => rfl⟩, owner, h, fun _ _ hp => hp⟩
  | succ count ih =>
    obtain ⟨a, m₁, st', m₂, hfind, hzero, hinst, hok⟩ := mapPages_cases hok
    obtain ⟨owner₁, n, h₁, hext₁, hn, ht₁, rfl⟩ := h.findEntry hr hfind
    have hkeeps := fun v => h.findEntry_keeps hr hfind r v hr
    have hzero : leafAt m₁.mem r vpn = 0 := (leafAt_eq ht₁).trans (hzero)
    have hr₁ := hext₁.grows _ _ hr
    obtain ⟨h₂, hodd₂, hother₂⟩ := hfills _ _ _ _ _ _ _ h₁ hr₁ ht₁ hinst
    obtain ⟨hf, owner', h', hgrow⟩ := ih h₂ hr₁ hok
    -- the rest of the loop found zero entries, so it does not come back to this page
    have hapart : ∀ k < count, (vpn + 1 + k) % 2 ^ 27 ≠ vpn % 2 ^ 27 := by
      intro k hk heq
      have hvac := hf.vacant k hk
      rw [leafAt_mod heq] at hvac
      omega
    have hcount : count + 1 ≤ 2 ^ 27 := by
      have hle := hf.distinct
      obtain ⟨k, hk⟩ : ∃ k, k + 1 = 2 ^ 27 := ⟨134217727, by norm_num⟩
      by_contra hlt
      exact hapart k (by omega) (by omega)
    have hkept : leafAt m'.mem r vpn = leafAt m₂.mem r vpn :=
      hf.other vpn fun k hk => (hapart k hk).symm
    refine ⟨⟨hcount, ?_, ?_, ?_⟩, owner', h', fun p R hp => hgrow p R (hext₁.grows p R hp)⟩
    · intro k hk
      cases k with
      | zero => rw [Nat.add_zero, ← hkeeps, hzero]
      | succ k =>
        have hvac := hf.vacant k (by omega)
        rw [hother₂ _ (hapart k (by omega)), hkeeps] at hvac
        rwa [show vpn + (k + 1) = vpn + 1 + k by omega]
    · intro k hk
      cases k with
      | zero =>
        rw [Nat.add_zero, hkept]
        exact hodd₂
      | succ k =>
        rw [show vpn + (k + 1) = vpn + 1 + k by omega]
        exact hf.odd k (by omega)
    · intro v hv
      rw [hf.other v fun k hk => ?_, hother₂ v (hv 0 (by omega)), hkeeps]
      have := hv (k + 1) (by omega)
      rwa [show vpn + (k + 1) = vpn + 1 + k by omega] at this

/-! ### How mapping fails -/

/-- What `alloc` reports when no frame is free. -/
def depleted : Halt := .panic "Physical memory depleted!\n"

lemma allocFrame_error {e : Halt} (h : allocFrame m = .error e) : e = depleted := by
  rw [allocFrame, alloc] at h
  split_ifs at h
  cases h
  rfl

lemma createTable_error {e : Halt} (h : createTable m a = .error e) : e = depleted := by
  rw [createTable] at h
  split_ifs at h
  · split at h
    · rename_i halloc
      cases h
      exact allocFrame_error halloc
    · cases h

lemma findLevels_error {e : Halt} {levels : List ℕ} (h : findLevels m a levels = .error e) :
    e = depleted := by
  induction levels generalizing m a with
  | nil => cases h
  | cons level levels ih =>
    rw [findLevels] at h
    split at h
    · rename_i hcreate
      cases h
      exact createTable_error hcreate
    · exact ih h

/-- Pages that are not mapped are never found to be mapped: the loop fails only without frames. -/
theorem mapPages_error {st : σ} {e : Halt} (hfills : FillsOne s r install)
    (hinstall : ∀ st m entry vpn e, install st m entry vpn = .error e → e = depleted)
    (h : Owned (fun _ => False) s m owner) (hr : owner r = some (.table r []))
    (hcount : count ≤ 2 ^ 27) (hvacant : ∀ k < count, leafAt m.mem r (vpn + k) = 0)
    (herr : mapPages install r st m vpn count = .error e) : e = depleted := by
  induction count generalizing st m owner vpn with
  | zero => cases herr
  | succ count ih =>
    rw [mapPages] at herr
    split at herr
    · rename_i hfind
      cases herr
      exact findLevels_error hfind
    · rename_i a m₁ hfind
      obtain ⟨owner₁, n, h₁, hext₁, hn, ht₁, rfl⟩ := h.findEntry hr hfind
      have hkeeps := fun v => h.findEntry_keeps hr hfind r v hr
      have hr₁ := hext₁.grows _ _ hr
      have hzero : pte m₁.mem n (vpnIndex vpn) = 0 := by
        rw [← leafAt_eq ht₁, hkeeps]
        exact hvacant 0 (by omega)
      rw [if_neg (not_not.mpr (by exact hzero))] at herr
      split at herr
      · rename_i hinst
        cases herr
        exact hinstall _ _ _ _ _ hinst
      · rename_i st' m₂ hinst
        obtain ⟨h₂, _, hother₂⟩ := hfills _ _ _ _ _ _ _ h₁ hr₁ ht₁ hinst
        refine ih h₂ hr₁ (by omega) (fun k hk => ?_) herr
        rw [hother₂ _ (by omega), hkeeps, Nat.add_assoc]
        exact hvacant (1 + k) (by omega)

end

end Jokerix
