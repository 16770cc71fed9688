import Jokerix.Vm.FindEntry

/-!
# Mapping pages

The rule for the loop that maps the pages of a segment, and what the three functions with that loop
put into the address space: pages at the fixed offset of the kernel, cleared pages, and pages with
a copy of given bytes.
-/

namespace Jokerix

/-- The place of a virtual page. -/
def pagePath (vpn : ℕ) : Path := vpnPath vpn ++ [vpnIndex vpn]

/-- The address is outside the managed frames. -/
def Outside (s x : ℕ) : Prop := ∀ p, s ≤ p → p < endPpn → ¬ InFrame p x

section
variable {s : ℕ} {m m' : Machine} {owner owner' : ℕ → Option Role} {r n vpn e : ℕ}

/-! ### One page -/

/-- What is known when the entry of a page was found and is zero. -/
structure Vacant (s : ℕ) (m : Machine) (owner : ℕ → Option Role) (r vpn n : ℕ) : Prop where
  owned : Owned UserEntry s m owner
  root : owner r = some (.table r [])
  table : owner n = some (.table r (vpnPath vpn))
  reached : tableAt m.mem r (vpnPath vpn) = some n
  zero : pte m.mem n (vpnIndex vpn) = 0

/-- The entry that is stored there is the leaf entry of the page. -/
lemma Vacant.leafAt (h : Vacant s m owner r vpn n) (hext : Extends s m owner m' owner') :
    leafAt m'.mem r vpn = pte m'.mem n (vpnIndex vpn) :=
  leafAt_eq (h.owned.tableAt_extends hext h.root (by simp [vpnPath]) h.reached)

/-- Filling in an entry that users cannot access. -/
lemma Vacant.setKernel (h : Vacant s m owner r vpn n) (hlt : e < 2 ^ 64) (hodd : e % 2 = 1)
    (huser : ¬ UserEntry e) :
    let m' := { m with mem := Bytes.storeLE 8 m.mem (frameVa n + 8 * vpnIndex vpn) e }
    Owned UserEntry s m' owner ∧ Extends s m owner m' owner ∧ Jokerix.leafAt m'.mem r vpn = e := by
  intro m'
  have hext := h.owned.extends_setEntry h.table h.zero e
  refine ⟨h.owned.setEntry h.table hlt ?_, hext, ?_⟩
  · exact .inr (.inr ⟨by simp [vpnPath], hodd, fun hu => absurd hu huser⟩)
  · exact (h.leafAt hext).trans (pte_storeLE_same hlt)

lemma or_valid_lt {f : ℕ} (h : f < 2 ^ 10) : f ||| flagValid < 2 ^ 10 :=
  Nat.or_lt_two_pow h (by decide)

lemma framedPte_eq {q f : ℕ} (h : f < 2 ^ 10) :
    framedPte (q * pageSize) f = q * 2 ^ 10 + (f ||| flagValid) := by
  rw [framedPte, show q * pageSize / 4 = q * 2 ^ 10 by simp only [pageSize]; omega, Nat.or_assoc,
    or_flags (or_valid_lt h)]

/-- A page in a frame of its own, with the given contents. -/
def FramedPage (m : Machine) (owner : ℕ → Option Role) (r vpn f : ℕ) (content : ℕ → UInt8) : Prop :=
  ∃ q, q < endPpn ∧ leafAt m.mem r vpn = q * 2 ^ 10 + f ∧ owner q = some (.page r (pagePath vpn)) ∧
    ∀ i < pageSize, m.mem (frameVa q + i) = content i

lemma FramedPage.extends {f : ℕ} {content : ℕ → UInt8} (h : Owned UserEntry s m owner)
    (hr : owner r = some (.table r [])) (hpage : FramedPage m owner r vpn f content) (hf : f ≠ 0)
    (hext : Extends s m owner m' owner') : FramedPage m' owner' r vpn f content := by
  obtain ⟨q, hlt, hleaf, hq, hcontent⟩ := hpage
  refine ⟨q, hlt, ?_, hext.grows _ _ hq, ?_⟩
  · rw [h.leafAt_extends hext hr (by omega), hleaf]
  · intro i hi
    rw [← hcontent i hi]
    exact hext.page q r _ _ hq ⟨Nat.le_add_right _ _, Nat.add_lt_add_left hi _⟩

/-- Filling in an entry for a new frame, and then writing to the frame. -/
lemma Vacant.setFramed (h : Vacant s m owner r vpn n) {f a : ℕ} {m₁ : Machine} (hf : f < 2 ^ 10)
    (halloc : allocFrame m = .ok (a, m₁)) :
    ∃ q, a = q * pageSize ∧ q < endPpn ∧ (∀ x, InFrame q x → ¬ Outside s x) ∧
      let mem₁ := Bytes.storeLE 8 m₁.mem (frameVa n + 8 * vpnIndex vpn) (framedPte a f)
      (∀ x, Outside s x → mem₁ x = m.mem x) ∧ (∀ x, InFrame q x → mem₁ x = 0) ∧
      ∀ mem', (∀ x, ¬ InFrame q x → mem' x = mem₁ x) →
        ∃ owner', Owned UserEntry s { m₁ with mem := mem' } owner' ∧
          Extends s m owner { m₁ with mem := mem' } owner' ∧
          FramedPage { m₁ with mem := mem' } owner' r vpn (f ||| flagValid)
            (fun i => mem' (frameVa q + i)) := by
  obtain ⟨q, rfl, hq, hs, hlt, hout, hin, hinv, hfree⟩ := h.owned.allocFrame halloc
  have hlt' : q < 0x87fff := hlt
  have hne : ∀ p R, owner p = some R → p ≠ q := by
    rintro p R hp rfl
    rw [hq] at hp
    cases hp
  have hnq := hne n _ h.table
  have hgrow := grows_update hq (.page r (pagePath vpn))
  have hvalid := or_valid_lt hf
  have hpte : framedPte (q * pageSize) f < 2 ^ 64 := by
    rw [framedPte_eq hf]
    omega
  set mem₁ : Bytes.Memory :=
    Bytes.storeLE 8 m₁.mem (frameVa n + 8 * vpnIndex vpn) (framedPte (q * pageSize) f) with hmem₁
  have hadopt := h.owned.adopt hq hs hlt hout hin hinv hfree (R := .page r (pagePath vpn))
    (fun _ _ he => by cases he)
  have hzero₁ : pte m₁.mem n (vpnIndex vpn) = 0 := by
    rw [pte_congr fun x hx => hout x fun hx' => hnq (hx.unique hx')]
    exact h.zero
  have hext₁ : Extends s m owner m₁ owner := extends_fresh hq hs hlt (fun _ _ hp => hp) hout
  have hset := hadopt.setEntry (i := vpnIndex vpn) (hgrow _ _ h.table) hpte (by
    rw [framedPte_eq hf]
    refine .inr (.inr ⟨by simp [vpnPath], ?_, ?_⟩)
    · have hodd : (f ||| flagValid) % 2 = 1 := Nat.or_mod_two_eq_one.mpr (.inr rfl)
      omega
    · intro _
      rw [show (q * 2 ^ 10 + (f ||| flagValid)) / 2 ^ 10 = q by omega]
      exact Function.update_self _ _ _)
  have hext₂ : Extends s m₁ owner { m₁ with mem := mem₁ } owner := by
    constructor
    · exact fun _ _ hp => hp
    · intro p r' path j hp hne'
      apply pte_storeLE_ne
      by_contra hcon
      push Not at hcon
      obtain ⟨rfl, rfl⟩ := hcon
      exact hne' hzero₁
    · intro p r' path x hp hx
      apply storeLE_outside
      intro hx'
      rw [hx.unique hx', h.table] at hp
      cases hp
    · intro x hx
      obtain ⟨h1, h2⟩ := h.owned.used _ _ h.table
      exact storeLE_outside (hx n h1 h2)
  refine ⟨q, rfl, hlt, fun x hx hx' => hx' q hs hlt hx, ?_, ?_, ?_⟩
  · intro x hx
    exact (hext₁.trans hext₂).outside x hx
  · intro x hx
    rw [hmem₁, storeLE_outside fun hx' => hnq (hx'.unique hx)]
    exact hin x hx
  · intro mem' hmem'
    have hext₃ : Extends s { m₁ with mem := mem₁ } owner { m₁ with mem := mem' }
        (Function.update owner q (some (.page r (pagePath vpn)))) :=
      extends_fresh hq hs hlt hgrow hmem'
    have hext := (hext₁.trans hext₂).trans hext₃
    refine ⟨_, hset.congr rfl ?_, hext, q, hlt, ?_, Function.update_self _ _ _, fun _ _ => rfl⟩
    · intro p r' path x hp hx
      apply hmem'
      intro hx'
      rw [hx.unique hx', Function.update_self] at hp
      cases hp
    · rw [h.leafAt hext, pte_congr fun x hx => hmem' x fun hx' => hnq (hx.unique hx'),
        pte_storeLE_same hpte, framedPte_eq hf]

/-! ### The loop -/

/-- `install` achieves `Page` for one page. The bytes outside the frames are those of `mem₀`. -/
def Installs {σ : Type*} (s r : ℕ) (mem₀ : Bytes.Memory) (next : σ → σ)
    (Page : σ → ℕ → Machine → (ℕ → Option Role) → Prop)
    (install : σ → Machine → ℕ → ℕ → Except Halt (σ × Machine)) : Prop :=
  ∀ st m owner vpn n st' m', Vacant s m owner r vpn n → (∀ x, Outside s x → m.mem x = mem₀ x) →
    install st m (frameVa n + 8 * vpnIndex vpn) vpn = .ok (st', m') → st' = next st ∧
      ∃ owner', Owned UserEntry s m' owner' ∧ Extends s m owner m' owner' ∧ Page st vpn m' owner'

/-- `Page` stays when more is mapped. -/
def Stable {σ : Type*} (s r : ℕ) (Page : σ → ℕ → Machine → (ℕ → Option Role) → Prop) : Prop :=
  ∀ st vpn m owner m' owner', Owned UserEntry s m owner → owner r = some (.table r []) →
    Extends s m owner m' owner' → Page st vpn m owner → Page st vpn m' owner'

/-- The rule for the loop. -/
theorem mapPages_spec {σ : Type*} {install : σ → Machine → ℕ → ℕ → Except Halt (σ × Machine)}
    {next : σ → σ} {mem₀ : Bytes.Memory} {Page : σ → ℕ → Machine → (ℕ → Option Role) → Prop}
    (hinstall : Installs s r mem₀ next Page install) (hstable : Stable s r Page)
    {st : σ} {count : ℕ} (h : Owned UserEntry s m owner) (hr : owner r = some (.table r []))
    (hmem : ∀ x, Outside s x → m.mem x = mem₀ x)
    (hok : mapPages install r st m vpn count = .ok m') :
    ∃ owner', Owned UserEntry s m' owner' ∧ Extends s m owner m' owner' ∧
      ∀ k < count, Page (next^[k] st) (vpn + k) m' owner' := by
  induction count generalizing st m owner vpn with
  | zero =>
    obtain rfl := Except.ok.inj hok
    exact ⟨owner, h, Extends.refl s m owner, fun k hk => absurd hk (Nat.not_lt_zero k)⟩
  | succ count ih =>
    obtain ⟨a, m₁, st', m₂, hfind, hzero, hinst, hok⟩ := mapPages_cases hok
    obtain ⟨owner₁, n, h₁, hext₁, hn, hreach, rfl⟩ := h.findEntry hr hfind
    have hr₁ := hext₁.grows _ _ hr
    have hvacant : Vacant s m₁ owner₁ r vpn n := ⟨h₁, hr₁, hn, hreach, hzero⟩
    have hmem₁ : ∀ x, Outside s x → m₁.mem x = mem₀ x :=
      fun x hx => (hext₁.outside x hx).trans (hmem x hx)
    obtain ⟨rfl, owner₂, h₂, hext₂, hpage⟩ := hinstall _ _ _ _ _ _ _ hvacant hmem₁ hinst
    obtain ⟨owner₃, h₃, hext₃, hpages⟩ := ih h₂ (hext₂.grows _ _ hr₁)
      (fun x hx => (hext₂.outside x hx).trans (hmem₁ x hx)) hok
    refine ⟨owner₃, h₃, hext₁.trans (hext₂.trans hext₃), ?_⟩
    intro k hk
    cases k with
    | zero => exact hstable _ _ _ _ _ _ h₂ (hext₂.grows _ _ hr₁) hext₃ hpage
    | succ k =>
      have := hpages k (by omega)
      rwa [show vpn + 1 + k = vpn + (k + 1) by omega, ← Function.iterate_succ_apply] at this

/-! ### Linear segments -/

/-- The number of pages of a segment. -/
def Segment.pages (seg : Segment) : ℕ := seg.endVpn - seg.startVpn

lemma linearPte_eq {f : ℕ} (h : f < 2 ^ 10) (vpn : ℕ) :
    linearPte vpn f = (vpn + 2 ^ 64 - kernelPageOffset) % 2 ^ 54 * 2 ^ 10 + (f ||| flagValid) := by
  have hshift : (vpn + 2 ^ 64 - kernelPageOffset) % 2 ^ 64 * 2 ^ 10 % 2 ^ 64 =
      (vpn + 2 ^ 64 - kernelPageOffset) % 2 ^ 54 * 2 ^ 10 := by
    generalize vpn + 2 ^ 64 - kernelPageOffset = a
    omega
  rw [linearPte, hshift, Nat.or_assoc, or_flags (or_valid_lt h)]

lemma installs_linear {f : ℕ} {mem₀ : Bytes.Memory} (hf : f < 2 ^ 10)
    (huser : (f ||| flagValid) / flagUser % 2 = 0) :
    Installs s r mem₀ id (fun _ vpn m _ => leafAt m.mem r vpn = linearPte vpn f)
      (installLinear f) := by
  intro st m owner vpn n st' m' hv _ hinst
  rw [installLinear, Except.ok.injEq, Prod.mk.injEq] at hinst
  obtain ⟨_, rfl⟩ := hinst
  have hlt := or_valid_lt hf
  have hodd : (f ||| flagValid) % 2 = 1 := Nat.or_mod_two_eq_one.mpr (.inr rfl)
  have heq := linearPte_eq hf vpn
  simp only [flagUser] at huser
  exact ⟨rfl, owner, hv.setKernel (by rw [heq]; omega) (by rw [heq]; omega)
    (by rw [heq, UserEntry, flagUser]; omega)⟩

/-- A linear page stays when more is mapped. -/
lemma Owned.linear_extends {f : ℕ} (h : Owned UserEntry s m owner)
    (hr : owner r = some (.table r []))
    (hext : Extends s m owner m' owner') (hf : f < 2 ^ 10)
    (hpage : leafAt m.mem r vpn = linearPte vpn f) : leafAt m'.mem r vpn = linearPte vpn f := by
  have hodd : (f ||| flagValid) % 2 = 1 := Nat.or_mod_two_eq_one.mpr (.inr rfl)
  have hne : linearPte vpn f ≠ 0 := by
    rw [linearPte_eq hf]
    omega
  rw [h.leafAt_extends hext hr (by rwa [hpage]), hpage]

lemma stable_linear {σ : Type*} {f : ℕ} (hf : f < 2 ^ 10) :
    Stable s r (fun (_ : σ) vpn m _ => leafAt m.mem r vpn = linearPte vpn f) :=
  fun _ _ _ _ _ _ h hr hext hpage => h.linear_extends hr hext hf hpage

/-- A linear segment without access for users: every page gets its fixed entry. -/
theorem Owned.mapLinearSegment {seg : Segment} (h : Owned UserEntry s m owner)
    (hr : owner r = some (.table r [])) (hflags : seg.flags < 2 ^ 10)
    (huser : (seg.flags ||| flagValid) / flagUser % 2 = 0)
    (hok : mapLinearSegment m r seg = .ok m') :
    ∃ owner', Owned UserEntry s m' owner' ∧ Extends s m owner m' owner' ∧ ∀ k < seg.pages,
      leafAt m'.mem r (seg.startVpn + k) = linearPte (seg.startVpn + k) seg.flags :=
  mapPages_spec (installs_linear hflags huser) (stable_linear hflags) h hr (fun _ _ => rfl) hok

/-! ### Segments in frames of their own -/

lemma stable_framed {σ : Type*} {f : ℕ} (hf : f ≠ 0) (content : σ → ℕ → UInt8) :
    Stable s r (fun st vpn m owner => FramedPage m owner r vpn f (content st)) :=
  fun _ _ _ _ _ _ h hr hext hpage => hpage.extends h hr hf hext

lemma or_valid_ne_zero (f : ℕ) : f ||| flagValid ≠ 0 := by
  have hodd : (f ||| flagValid) % 2 = 1 := Nat.or_mod_two_eq_one.mpr (.inr rfl)
  omega

lemma installs_framed {f : ℕ} {mem₀ : Bytes.Memory} (hf : f < 2 ^ 10) :
    Installs s r mem₀ id (fun _ vpn m owner => FramedPage m owner r vpn
      (f ||| flagValid) fun _ => 0)
      (installFramed f) := by
  intro st m owner vpn n st' m' hv _ hinst
  obtain ⟨a, m₁, halloc, rfl⟩ := installFramed_cases hinst
  obtain ⟨q, rfl, hlt, _, _, hzero, hinstall⟩ := hv.setFramed hf halloc
  obtain ⟨owner', h', hext, q', hlt', hleaf, hq', hcontent⟩ := hinstall _ fun _ _ => rfl
  refine ⟨rfl, owner', h', hext, q', hlt', hleaf, hq', ?_⟩
  intro i hi
  rw [hcontent i hi]
  exact hzero _ ⟨Nat.le_add_right _ _, Nat.add_lt_add_left hi _⟩

/-- Every page of the segment gets a cleared frame. -/
theorem Owned.mapFramedSegment {seg : Segment} (h : Owned UserEntry s m owner)
    (hr : owner r = some (.table r [])) (hflags : seg.flags < 2 ^ 10)
    (hok : mapFramedSegment m r seg = .ok m') :
    ∃ owner', Owned UserEntry s m' owner' ∧ Extends s m owner m' owner' ∧ ∀ k < seg.pages,
      FramedPage m' owner' r (seg.startVpn + k) (seg.flags ||| flagValid) fun _ => 0 :=
  mapPages_spec (installs_framed hflags) (stable_framed (or_valid_ne_zero _) fun _ _ => 0) h hr
    (fun _ _ => rfl) hok

lemma copyBytes_outside {mem : Bytes.Memory} {dst src n x : ℕ} (h : x < dst ∨ dst + n ≤ x) :
    copyBytes mem dst src n x = mem x := by
  induction n generalizing mem dst src with
  | zero => rfl
  | succ n ih =>
    rw [copyBytes, ih (by omega), Function.update_of_ne (by omega)]

/-- A copy from a range apart from its destination. -/
lemma copyBytes_inside {mem : Bytes.Memory} {dst src n i : ℕ} (hi : i < n)
    (hsrc : ∀ j < n, src + j < 2 ^ 64 ∧ (src + j < dst ∨ dst + n ≤ src + j)) :
    copyBytes mem dst src n (dst + i) = mem (src + i) := by
  induction n generalizing mem dst src i with
  | zero => omega
  | succ n ih =>
    rw [copyBytes]
    cases i with
    | zero =>
      have h0 := (hsrc 0 (by omega)).1
      rw [copyBytes_outside (by omega), Nat.add_zero, Function.update_self,
        Nat.mod_eq_of_lt (by omega), Nat.add_zero]
    | succ i =>
      have hi' := hsrc (i + 1) hi
      rw [show dst + (i + 1) = dst + 1 + i by omega, ih (by omega),
        Function.update_of_ne (by omega), show src + 1 + i = src + (i + 1) by omega]
      intro j hj
      have := hsrc (j + 1) (by omega)
      omega

lemma copyPage_outside {mem : Bytes.Memory} {q src l x : ℕ} (h : ¬ InFrame q x) :
    copyPage mem (frameVa q) src l x = mem x := by
  simp only [InFrame] at h
  unfold copyPage
  split_ifs with hl
  · exact copyBytes_outside (by omega)
  · rw [Bytes.fill_of_not_mem (by omega), copyBytes_outside (by omega)]

/-- The page has the `l` bytes, as far as they fit, and then zeros. -/
lemma copyPage_inside {mem : Bytes.Memory} {q src l i : ℕ} (hi : i < pageSize)
    (hsrc : ∀ j < pageSize, j < l → src + j < 2 ^ 64 ∧ ¬ InFrame q (src + j)) :
    copyPage mem (frameVa q) src l (frameVa q + i) = if i < l then mem (src + i) else 0 := by
  simp only [InFrame] at hsrc
  unfold copyPage
  split_ifs with hl hil hil
  · apply copyBytes_inside hi
    intro j hj
    have := hsrc j hj (by omega)
    omega
  · omega
  · rw [Bytes.fill_of_not_mem (by omega), copyBytes_inside hil]
    intro j hj
    have := hsrc j (by omega) hj
    omega
  · exact Bytes.fill_of_mem (by omega) (by omega)

/-- What is left of the data after a number of pages. -/
lemma iterate_nextPage (src l k : ℕ) (hs : src < 2 ^ 64) :
    nextPage^[k] (src, l) = ((src + k * pageSize) % 2 ^ 64, l - k * pageSize) := by
  induction k with
  | zero =>
    rw [Function.iterate_zero_apply, Nat.zero_mul, Nat.add_zero, Nat.mod_eq_of_lt hs, Nat.sub_zero]
  | succ k ih =>
    rw [Function.iterate_succ_apply', ih, nextPage, Prod.mk.injEq]
    constructor
    · rw [Nat.mod_add_mod, Nat.add_assoc, ← Nat.succ_mul]
    · simp only [Nat.succ_mul]
      split_ifs <;> omega

/-- The frame has a copy of the data, where that lies outside the frames, and zeros behind it. -/
def CopiedPage (s : ℕ) (mem₀ : Bytes.Memory) (r f : ℕ) (st : ℕ × ℕ) (vpn : ℕ) (m : Machine)
    (owner : ℕ → Option Role) : Prop :=
  ∃ content, FramedPage m owner r vpn f content ∧
    ((∀ j < pageSize, j < st.2 → st.1 + j < 2 ^ 64 ∧ Outside s (st.1 + j)) → ∀ i < pageSize,
      content i = if i < st.2 then mem₀ (st.1 + i) else 0)

lemma installs_copy {f : ℕ} {mem₀ : Bytes.Memory} (hf : f < 2 ^ 10) :
    Installs s r mem₀ nextPage (CopiedPage s mem₀ r (f ||| flagValid)) (installCopy f) := by
  intro st m owner vpn n st' m' hv hmem hinst
  obtain ⟨src, l⟩ := st
  obtain ⟨a, m₁, halloc, rfl, rfl⟩ := installCopy_cases hinst
  obtain ⟨q, rfl, hlt, hin, hout, _, hinstall⟩ := hv.setFramed hf halloc
  rw [accessVaViaPa_frame hlt]
  obtain ⟨owner', h', hext, hpage⟩ := hinstall _ fun x hx => copyPage_outside hx
  refine ⟨rfl, owner', h', hext, _, hpage, ?_⟩
  intro hsrc i hi
  rw [copyPage_inside hi]
  · split_ifs with hil
    · rw [hout _ (hsrc i hi hil).2, hmem _ (hsrc i hi hil).2]
    · rfl
  · intro j hj hjl
    obtain ⟨h1, h2⟩ := hsrc j hj hjl
    exact ⟨h1, fun hx => hin _ hx h2⟩

lemma stable_copied {f : ℕ} {mem₀ : Bytes.Memory} (hf : f ≠ 0) :
    Stable s r (CopiedPage s mem₀ r f) := by
  rintro st vpn m owner m' owner' h hr hext ⟨content, hpage, hcontent⟩
  exact ⟨content, hpage.extends h hr hf hext, hcontent⟩

/-- Every page of the segment gets a frame. Where the data lies outside the frames, the frame of the
page `k` holds the data from its byte `k * pageSize` on, and zeros behind it. -/
theorem Owned.mapFramedAndCopy {seg : Segment} {data length : ℕ} (h : Owned UserEntry s m owner)
    (hr : owner r = some (.table r [])) (hflags : seg.flags < 2 ^ 10) (hdata : data < 2 ^ 64)
    (hok : mapFramedAndCopy m r seg data length = .ok m') :
    ∃ owner', Owned UserEntry s m' owner' ∧ Extends s m owner m' owner' ∧
      ∀ k < seg.pages, ∃ content, FramedPage m' owner' r (seg.startVpn + k)
        (seg.flags ||| flagValid) content ∧
      ((∀ j < length, data + j < 2 ^ 64 ∧ Outside s (data + j)) → ∀ i < pageSize,
        content i =
          if k * pageSize + i < length then m.mem (data + (k * pageSize + i)) else 0) := by
  obtain ⟨owner', h', hext, hpages⟩ := mapPages_spec (installs_copy hflags)
    (stable_copied (or_valid_ne_zero _)) h hr (fun _ _ => rfl) hok
  refine ⟨owner', h', hext, ?_⟩
  intro k hk
  obtain ⟨content, hpage, hcontent⟩ := hpages k hk
  refine ⟨content, hpage, ?_⟩
  intro hsrc i hi
  rw [iterate_nextPage data length k hdata] at hcontent
  by_cases hk' : k * pageSize < length
  · have hwrap : (data + k * pageSize) % 2 ^ 64 = data + k * pageSize :=
      Nat.mod_eq_of_lt (hsrc _ hk').1
    simp only [hwrap, Nat.add_assoc] at hcontent
    rw [hcontent (fun j _ hjl => hsrc _ (by omega)) i hi]
    by_cases hlt : k * pageSize + i < length
    · rw [if_pos hlt, if_pos (by omega)]
    · rw [if_neg hlt, if_neg (by omega)]
  · rw [hcontent (by intro j _ hjl; simp only at hjl; omega) i hi, if_neg (by simp only; omega),
      if_neg (by omega)]

end

end Jokerix
