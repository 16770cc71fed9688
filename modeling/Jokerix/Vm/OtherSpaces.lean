import Jokerix.Vm.Spaces
import Jokerix.Vm.Progress

/-!
# The other address spaces

Mapping pages in one address space leaves the entries of every other one as they are, the zero
entries among them.
-/

namespace Jokerix

section
variable {s r r' a n vpn : ℕ} {m m' : Machine} {owner : ℕ → Option Role}

/-! ### One page -/

/-- `install` leaves the entries of the address spaces but `r` alone. -/
def KeepsOthers {σ : Type*} (s r : ℕ)
    (install : σ → Machine → ℕ → ℕ → Except Halt (σ × Machine)) : Prop :=
  ∀ st m owner vpn n st' m', Owned (fun _ => False) s m owner → owner r = some (.table r []) →
    tableAt m.mem r (vpnPath vpn) = some n →
    install st m (frameVa n + 8 * vpnIndex vpn) vpn = .ok (st', m') →
    ∀ r', r' ≠ r → owner r' = some (.table r' []) → ∀ v, leafAt m'.mem r' v = leafAt m.mem r' v

/-- Storing a valid entry for a page. -/
lemma Owned.store_others (h : Owned (fun _ => False) s m owner) (hr : owner r = some (.table r []))
    (ht : tableAt m.mem r (vpnPath vpn) = some n) {e : ℕ} (hlt : e < 2 ^ 64) (hne : r' ≠ r)
    (hr' : owner r' = some (.table r' [])) (v : ℕ) :
    leafAt (Bytes.storeLE 8 m.mem (frameVa n + 8 * vpnIndex vpn) e) r' v = leafAt m.mem r' v := by
  rw [h.leafAt_store hr ht hlt hr', if_neg fun heq => hne heq.1]

lemma keepsOthers_linear {f : ℕ} (hf : f < 2 ^ 64) : KeepsOthers s r (installLinear f) := by
  intro st m owner vpn n st' m' h hr ht hok r' hne hr' v
  rw [installLinear, Except.ok.injEq, Prod.mk.injEq] at hok
  obtain ⟨_, rfl⟩ := hok
  refine h.store_others hr ht ?_ hne hr' v
  exact Nat.or_lt_two_pow (Nat.or_lt_two_pow (Nat.mod_lt _ (by norm_num)) hf) (by decide)

/-- A new frame behind an entry, whatever is then written to the frame. -/
lemma Owned.framed_others (h : Owned (fun _ => False) s m owner) (hr : owner r = some (.table r []))
    (ht : tableAt m.mem r (vpnPath vpn) = some n) {f : ℕ} (hf : f < 2 ^ 64) {m₁ : Machine}
    (halloc : Jokerix.allocFrame m = .ok (a, m₁)) (hne : r' ≠ r)
    (hr' : owner r' = some (.table r' [])) :
    ∃ q, a = q * pageSize ∧ q < endPpn ∧ ∀ mem' : Bytes.Memory,
      (∀ x, ¬ InFrame q x → mem' x =
        Bytes.storeLE 8 m₁.mem (frameVa n + 8 * vpnIndex vpn) (framedPte a f) x) →
      ∀ v, leafAt mem' r' v = leafAt m.mem r' v := by
  obtain ⟨q, rfl, hq, hlt, h₁, hsame₁⟩ := h.allocFrame_same halloc
  have hlt' : q < 0x87fff := hlt
  have hpte : framedPte (q * pageSize) f < 2 ^ 64 := by
    refine Nat.or_lt_two_pow (Nat.or_lt_two_pow ?_ hf) (by decide)
    simp only [pageSize]
    omega
  have ht₁ : tableAt m₁.mem r (vpnPath vpn) = some n := by
    rw [h.tableAt_same hr hsame₁ (by simp [vpnPath]), ht]
  obtain ⟨h₂, _⟩ := h₁.store_odd hr ht₁ hpte (or_valid_odd _)
  refine ⟨q, rfl, hlt, fun mem' hmem' v => ?_⟩
  rw [h₂.leafAt_same hr' (.of_fresh hq hmem'), h₁.store_others hr ht₁ hpte hne hr',
    h.leafAt_same hr' hsame₁]

lemma keepsOthers_framed {f : ℕ} (hf : f < 2 ^ 64) : KeepsOthers s r (installFramed f) := by
  intro st m owner vpn n st' m' h hr ht hok r' hne hr'
  obtain ⟨a, m₁, halloc, rfl⟩ := installFramed_cases hok
  obtain ⟨q, rfl, _, hkeeps⟩ := h.framed_others hr ht hf halloc hne hr'
  exact hkeeps _ fun _ _ => rfl

lemma keepsOthers_copy {f : ℕ} (hf : f < 2 ^ 64) : KeepsOthers s r (installCopy f) := by
  intro st m owner vpn n st' m' h hr ht hok r' hne hr'
  obtain ⟨a, m₁, halloc, _, rfl⟩ := installCopy_cases hok
  obtain ⟨q, rfl, hlt, hkeeps⟩ := h.framed_others hr ht hf halloc hne hr'
  rw [accessVaViaPa_frame hlt]
  exact hkeeps _ fun x hx => copyPage_outside hx

/-! ### Segments -/

/-- The rule for the loop. -/
theorem mapPages_others {σ : Type*} {install : σ → Machine → ℕ → ℕ → Except Halt (σ × Machine)}
    {st : σ} {count : ℕ} (hfills : FillsOne s r install) (hkeeps : KeepsOthers s r install)
    (h : Owned (fun _ => False) s m owner) (hr : owner r = some (.table r []))
    (hok : mapPages install r st m vpn count = .ok m') (hne : r' ≠ r)
    (hr' : owner r' = some (.table r' [])) (v : ℕ) : leafAt m'.mem r' v = leafAt m.mem r' v := by
  induction count generalizing st m owner vpn with
  | zero =>
    obtain rfl := Except.ok.inj hok
    rfl
  | succ count ih =>
    obtain ⟨a, m₁, st', m₂, hfind, _, hinst, hok⟩ := mapPages_cases hok
    obtain ⟨owner₁, n, h₁, hext₁, hn, ht₁, rfl⟩ := h.findEntry hr hfind
    have hr₁ := hext₁.grows _ _ hr
    have hr'₁ := hext₁.grows _ _ hr'
    obtain ⟨h₂, _⟩ := hfills _ _ _ _ _ _ _ h₁ hr₁ ht₁ hinst
    rw [ih h₂ hr₁ hok hr'₁, hkeeps _ _ _ _ _ _ _ h₁ hr₁ ht₁ hinst r' hne hr'₁,
      h.findEntry_keeps hr hfind r' v hr']

lemma mapLinearSegments_others {segs : List Segment} (h : Owned (fun _ => False) s m owner)
    (hr : owner r = some (.table r [])) (hflags : ∀ seg ∈ segs, seg.flags < 2 ^ 64)
    (hok : mapLinearSegments m r segs = .ok m') (hne : r' ≠ r)
    (hr' : owner r' = some (.table r' []))
    (v : ℕ) : leafAt m'.mem r' v = leafAt m.mem r' v := by
  induction segs generalizing m owner with
  | nil =>
    cases hok
    rfl
  | cons seg segs ih =>
    rw [List.forall_mem_cons] at hflags
    rw [mapLinearSegments, List.foldlM_cons] at hok
    obtain ⟨m₁, h₁, hok⟩ := bind_eq_ok hok
    obtain ⟨_, owner₁, ho₁, hgrow⟩ := mapPages_filled (fillsOne_linear hflags.1) h hr h₁
    rw [ih ho₁ (hgrow _ _ hr) hflags.2 hok (hgrow _ _ hr')]
    exact mapPages_others (fillsOne_linear hflags.1) (keepsOthers_linear hflags.1) h hr h₁ hne hr' v

/-! ### Address spaces -/

lemma Owned.mapProgHeaders_others {elf table count : ℕ} (h : Owned UserEntry s m owner)
    (hr : owner r = some (.table r [])) (hok : Jokerix.mapProgHeaders m r elf table count = .ok m')
    (hne : r' ≠ r) (hr' : owner r' = some (.table r' [])) (v : ℕ) :
    leafAt m'.mem r' v = leafAt m.mem r' v := by
  induction count generalizing m owner table with
  | zero =>
    obtain rfl := Except.ok.inj hok
    rfl
  | succ count ih =>
    rw [Jokerix.mapProgHeaders] at hok
    obtain ⟨m₁, h₁, hok⟩ := bind_eq_ok hok
    obtain ⟨owner₁, ho₁, hext₁, _⟩ := h.mapProgHeader hr h₁
    rw [ih ho₁ (hext₁.grows _ _ hr) hok (hext₁.grows _ _ hr')]
    rw [Jokerix.mapProgHeader] at h₁
    split_ifs at h₁ with hload
    · obtain rfl := Except.ok.inj h₁
      rfl
    · have hflags := lt_trans (convertElfFlags_lt (readProgHeader m.mem table).flags)
        (show 2 ^ 10 < 2 ^ 64 by norm_num)
      exact mapPages_others (fillsOne_copy hflags) (keepsOthers_copy hflags) h.weaken
        hr h₁ hne hr' v

/-- A root is no table of another address space. -/
lemma ne_of_owner_none (hnone : owner r = none) (hr' : owner r' = some (.table r' [])) :
    r' ≠ r := by
  rintro rfl
  rw [hnone] at hr'
  cases hr'

/-- A new thread changes no translation of the address spaces there are. -/
theorem Owned.newUserThreadMapping_others {L : Layout} {data : ℕ} (h : Owned UserEntry s m owner)
    (hok : Jokerix.newUserThreadMapping L m data = .ok (r, m'))
    (hr' : owner r' = some (.table r' []))
    (v : ℕ) : leafAt m'.mem r' v = leafAt m.mem r' v := by
  obtain ⟨m₁, h₁, h₂⟩ := newUserThreadMapping_cases hok
  obtain ⟨m₃, h₃, _, h₄⟩ := newUserMapping_cases h₁
  obtain ⟨m₅, h₅, h₆⟩ := newKernelMapping_cases h₃
  obtain ⟨hnone, owner₁, ho₁, hext₁, hr₁, _⟩ := h.newUserMapping h₁
  have hne := ne_of_owner_none hnone hr'
  have hstack : userStackSegment.flags < 2 ^ 64 := by decide
  rw [mapPages_others (fillsOne_framed hstack) (keepsOthers_framed hstack) ho₁.weaken hr₁ h₂ hne
    (hext₁.grows _ _ hr')]
  obtain ⟨_, owner₃, ho₃, hext₃, hr₃, _⟩ := h.newKernelMapping h₃
  rw [ho₃.mapProgHeaders_others hr₃ h₄ hne (hext₃.grows _ _ hr')]
  obtain ⟨_, owner₅, ho₅, hext₅, hr₅⟩ := h.newMapping h₅
  rw [mapLinearSegments_others ho₅.weaken hr₅ (fun seg hseg =>
    lt_trans (layout_kernelFlags L seg hseg).1 (by norm_num)) h₆ hne (hext₅.grows _ _ hr')]
  exact (h.newMapping_leaves h₅).2 r' v hr'

end

end Jokerix
