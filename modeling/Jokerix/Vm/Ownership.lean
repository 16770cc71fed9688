import Jokerix.Vm.Mapping
import Jokerix.Lib.Radix
import Jokerix.Memory.FrameRuns

/-!
# Who owns the frames

Every frame in use is a table of one address space or a page of one, at one place. `Owned` is this
invariant over the memory and the frame allocator; it determines what every page-table entry can
be. `Extends` says what the kernel leaves alone when it maps more.
-/

namespace Jokerix

/-! ### Frames and entries -/

/-- The frames below this one, from the first managed one on, are the ones that `newAllocator` marks
free: it never hands out the last frame of the memory. -/
def endPpn : ℕ := memoryEndPaddr / pageSize - 1

/-- Where the kernel sees a frame. -/
def frameVa (p : ℕ) : ℕ := p * pageSize + kernelMapOffset

/-- The address lies in the frame. -/
def InFrame (p x : ℕ) : Prop := frameVa p ≤ x ∧ x < frameVa p + pageSize

/-- The entry of the table in a frame. -/
def pte (mem : Bytes.Memory) (p : ℕ) (i : Fin 512) : ℕ := Bytes.loadLE 8 mem (frameVa p + 8 * i)

/-- The table that an entry points to: the entry is valid and grants no access. -/
def nextTable (e : ℕ) : Option ℕ := if e % 16 = 1 then some (e / 2 ^ 10 % 2 ^ 44) else none

abbrev Path := List (Fin 512)

/-- The table at the end of a path. -/
def tableAt (mem : Bytes.Memory) (root : ℕ) (path : Path) : Option ℕ :=
  Radix.walk (pte mem) nextTable root path

section
variable {mem mem' : Bytes.Memory} {p q x : ℕ} {i j : Fin 512}

lemma InFrame.unique (h : InFrame p x) (h' : InFrame q x) : p = q := by
  simp only [InFrame, frameVa, pageSize] at h h'
  omega

lemma accessVaViaPa_frame (h : p < endPpn) : accessVaViaPa (p * pageSize) = frameVa p := by
  have h : p < 0x87fff := h
  simp only [accessVaViaPa, frameVa, pageSize, kernelMapOffset]
  omega

lemma entry_inFrame {k : ℕ} (h : frameVa p + 8 * i ≤ k) (h' : k < frameVa p + 8 * i + 8) :
    InFrame p k := by
  have hi := i.isLt
  simp only [InFrame, pageSize]
  omega

lemma pte_congr (h : ∀ x, InFrame p x → mem' x = mem x) : pte mem' p i = pte mem p i :=
  Bytes.loadLE_congr fun x h1 h2 => h x (entry_inFrame h1 h2)

lemma pte_storeLE_same {e : ℕ} (h : e < 2 ^ 64) :
    pte (Bytes.storeLE 8 mem (frameVa p + 8 * i) e) p i = e := by
  rw [pte, Bytes.loadLE_storeLE_same]
  exact Nat.mod_eq_of_lt (lt_of_lt_of_eq h (by norm_num))

lemma pte_storeLE_ne {e : ℕ} (h : q ≠ p ∨ j ≠ i) :
    pte (Bytes.storeLE 8 mem (frameVa p + 8 * i) e) q j = pte mem q j := by
  apply Bytes.loadLE_storeLE_of_disjoint
  have hi := i.isLt
  have hj := j.isLt
  rcases h with h | h
  · simp only [frameVa, pageSize]
    omega
  · have : (j : ℕ) ≠ i := fun he => h (Fin.ext he)
    by_cases hpq : q = p
    · subst hpq
      omega
    · simp only [frameVa, pageSize]
      omega

/-- Storing an entry changes no byte of another frame. -/
lemma storeLE_outside {e : ℕ} (h : ¬ InFrame p x) :
    Bytes.storeLE 8 mem (frameVa p + 8 * i) e x = mem x := by
  apply Bytes.storeLE_of_not_mem
  have hi := i.isLt
  simp only [InFrame, pageSize] at h
  omega

/-- A cleared frame, as seen byte by byte. -/
lemma fill_frame (mem : Bytes.Memory) (p : ℕ) (b : UInt8) :
    (∀ x, ¬ InFrame p x → Bytes.fill mem (frameVa p) pageSize b x = mem x) ∧
      ∀ x, InFrame p x → Bytes.fill mem (frameVa p) pageSize b x = b := by
  constructor
  · intro x hx
    apply Bytes.fill_of_not_mem
    simp only [InFrame] at hx
    omega
  · rintro x ⟨h1, h2⟩
    exact Bytes.fill_of_mem h1 h2

lemma pte_zero (h : ∀ x, InFrame p x → mem x = 0) : pte mem p i = 0 :=
  Bytes.loadLE_zero fun x h1 h2 => h x (entry_inFrame h1 h2)

lemma nextTable_pointer (h : q < endPpn) : nextTable (q * 2 ^ 10 + 1) = some q := by
  have h : q < 0x87fff := h
  rw [nextTable, if_pos (by omega)]
  congr 1
  omega

/-- Masking out `n` bits from the bit `k` on. -/
lemma and_mask (e n k : ℕ) : e &&& ((2 ^ n - 1) <<< k) = e / 2 ^ k % 2 ^ n * 2 ^ k := by
  have hmod : e / 2 ^ k % 2 ^ n = (e >>> k) &&& (2 ^ n - 1) := by
    rw [Nat.and_two_pow_sub_one_eq_mod, Nat.shiftRight_eq_div_pow]
  rw [hmod, ← Nat.shiftLeft_eq]
  apply Nat.eq_of_testBit_eq
  intro t
  simp only [Nat.testBit_and, Nat.testBit_shiftLeft, Nat.testBit_shiftRight]
  by_cases ht : k ≤ t
  · simp [ht, Nat.add_sub_cancel' ht]
  · simp [ht]

/-- The mask of the frame number. -/
lemma and_pdeMask (e : ℕ) : e &&& pdeMask = e / 2 ^ 10 % 2 ^ 44 * 2 ^ 10 := by
  have hmask : pdeMask = (2 ^ 44 - 1) <<< 10 := by decide
  exact hmask ▸ and_mask e 44 10

lemma or_flags {a f : ℕ} (h : f < 2 ^ 10) : a * 2 ^ 10 ||| f = a * 2 ^ 10 + f := by
  rw [← Nat.shiftLeft_eq, Nat.shiftLeft_add_eq_or_of_lt h]

end

/-! ### Ownership -/

/-- What a frame in use is for: the table or the page of an address space at the end of a path. -/
inductive Role where
  | table (root : ℕ) (path : Path)
  | page (root : ℕ) (path : Path)
  deriving DecidableEq

/-- The entry lets users access what it points to. -/
def UserEntry (e : ℕ) : Prop := e / flagUser % 2 = 1

/-- What an entry at the end of a path can be: zero, a pointer to the table at that place, or a
leaf. The frame of a leaf that is to be owned is the page of that place. -/
def EntryOk (own : ℕ → Prop) (owner : ℕ → Option Role) (r : ℕ) (path : Path) (e : ℕ) : Prop :=
  e = 0 ∨ (path.length ≤ 2 ∧ ∃ q, e = q * 2 ^ 10 + 1 ∧ owner q = some (.table r path)) ∨
    (path.length = 3 ∧ e % 2 = 1 ∧
      (own e → owner (e / 2 ^ 10) = some (.page r path)))

/-- The invariant. The frames from `s` on are managed by the allocator. -/
structure Owned (own : ℕ → Prop) (s : ℕ) (m : Machine) (owner : ℕ → Option Role) : Prop where
  inv : ∃ d, FrameInv d s m.sta
  free : ∀ p ∈ freeFrames m.sta, s ≤ p ∧ p < endPpn ∧ owner p = none
  used : ∀ p R, owner p = some R → s ≤ p ∧ p < endPpn
  depth : ∀ p r path, owner p = some (.table r path) → path.length ≤ 2
  entry : ∀ p r path i, owner p = some (.table r path) →
    EntryOk own owner r (path ++ [i]) (pte m.mem p i)

/-- What stays when the kernel maps more: the frames' owners, the entries that are not zero, the
bytes of all pages, and the bytes outside the frames. -/
structure Extends (s : ℕ) (m : Machine) (owner : ℕ → Option Role) (m' : Machine)
    (owner' : ℕ → Option Role) : Prop where
  grows : ∀ p R, owner p = some R → owner' p = some R
  entry : ∀ p r path i, owner p = some (.table r path) → pte m.mem p i ≠ 0 →
    pte m'.mem p i = pte m.mem p i
  page : ∀ p r path x, owner p = some (.page r path) → InFrame p x → m'.mem x = m.mem x
  outside : ∀ x, (∀ p, s ≤ p → p < endPpn → ¬ InFrame p x) → m'.mem x = m.mem x

section
variable {own : ℕ → Prop} {s : ℕ} {m m' m'' : Machine} {owner owner' owner'' : ℕ → Option Role}

lemma Extends.refl (s : ℕ) (m : Machine) (owner : ℕ → Option Role) : Extends s m owner m owner :=
  ⟨fun _ _ h => h, fun _ _ _ _ _ _ => rfl, fun _ _ _ _ _ _ => rfl, fun _ _ => rfl⟩

lemma Extends.trans (h : Extends s m owner m' owner') (h' : Extends s m' owner' m'' owner'') :
    Extends s m owner m'' owner'' := by
  constructor
  · exact fun p R hp => h'.grows p R (h.grows p R hp)
  · intro p r path i hp hne
    have he := h.entry p r path i hp hne
    have hne' : pte m'.mem p i ≠ 0 := by rwa [he]
    rw [h'.entry p r path i (h.grows p _ hp) hne', he]
  · intro p r path x hp hx
    rw [h'.page p r path x (h.grows p _ hp) hx, h.page p r path x hp hx]
  · intro x hx
    rw [h'.outside x hx, h.outside x hx]

lemma EntryOk.mono {r e : ℕ} {path : Path} (h : EntryOk own owner r path e)
    (hgrow : ∀ p R, owner p = some R → owner' p = some R) : EntryOk own owner' r path e := by
  rcases h with h | ⟨hlen, q, he, hq⟩ | ⟨hlen, he, huser⟩
  · exact .inl h
  · exact .inr (.inl ⟨hlen, q, he, hgrow _ _ hq⟩)
  · exact .inr (.inr ⟨hlen, he, fun hu => hgrow _ _ (huser hu)⟩)

/-- The place of a table. -/
def placeOf (owner : ℕ → Option Role) (p : ℕ) : Option (ℕ × Path) :=
  match owner p with
  | some (.table r path) => some (r, path)
  | _ => none

lemma placeOf_eq_some {p r : ℕ} {path : Path} :
    placeOf owner p = some (r, path) ↔ owner p = some (.table r path) := by
  unfold placeOf
  split
  · rename_i r' path' h
    simp [h]
  · rename_i h
    simp only [reduceCtorEq, false_iff]
    exact h r path

/-- A pointer leads to the table at its place. -/
lemma Owned.next_place (h : Owned own s m owner) {p r q : ℕ} {path : Path} {i : Fin 512}
    (hp : owner p = some (.table r path)) (hlen : path.length ≤ 1)
    (hq : nextTable (pte m.mem p i) = some q) :
    pte m.mem p i = q * 2 ^ 10 + 1 ∧ owner q = some (.table r (path ++ [i])) := by
  rcases h.entry p r path i hp with he | ⟨_, q', he, hq'⟩ | ⟨hlen', _⟩
  · rw [he] at hq
    cases hq
  · rw [he, nextTable_pointer (h.used _ _ hq').2] at hq
    obtain rfl := Option.some.inj hq
    exact ⟨he, hq'⟩
  · rw [List.length_append, List.length_singleton] at hlen'
    omega

lemma Owned.placed (h : Owned own s m owner) :
    Radix.Placed (pte m.mem) nextTable 3 (placeOf owner) := by
  intro p r path i q hp hlen hq
  rw [placeOf_eq_some] at hp ⊢
  exact (h.next_place hp (by omega) hq).2

/-- A walk ends at the table of its place. -/
lemma Owned.tableAt_owner (h : Owned own s m owner) {p q r : ℕ} {pre path : Path}
    (hp : owner p = some (.table r pre)) (hlen : pre.length + path.length ≤ 2)
    (hq : tableAt m.mem p path = some q) : owner q = some (.table r (pre ++ path)) :=
  placeOf_eq_some.mp (h.placed.walk_place (placeOf_eq_some.mpr hp) (by omega) hq)

/-- Walks stay when more is mapped. -/
lemma Owned.tableAt_extends (h : Owned own s m owner) (hext : Extends s m owner m' owner')
    {p q r : ℕ} {pre path : Path} (hp : owner p = some (.table r pre))
    (hlen : pre.length + path.length ≤ 2) (hq : tableAt m.mem p path = some q) :
    tableAt m'.mem p path = some q := by
  refine h.placed.walk_mono ?_ (placeOf_eq_some.mpr hp) (by omega) hq
  intro n r path i q hn hlen hq
  rw [placeOf_eq_some] at hn
  obtain ⟨he, _⟩ := h.next_place hn (by omega) hq
  rw [hext.entry n r path i hn (by omega)]
  exact hq

/-- With a new allocator no frame is in use. -/
lemma owned_newAllocator {own : ℕ → Prop} {s : ℕ} {m : Machine} {sta : FrameTree}
    (hle : s ≤ memoryEndPaddr / pageSize)
    (h : newAllocator m.sta s (memoryEndPaddr / pageSize) = .ok sta) :
    Owned own s { m with sta } fun _ => none := by
  obtain ⟨d, hinv, hfree⟩ := newAllocator_spec hle (by decide) h
  refine ⟨⟨d, hinv⟩, ?_, fun _ _ h => (by cases h), fun _ _ _ h => (by cases h),
    fun _ _ _ _ h => (by cases h)⟩
  intro p hp
  rw [hfree] at hp
  exact ⟨hp.1, hp.2, rfl⟩

end

end Jokerix
