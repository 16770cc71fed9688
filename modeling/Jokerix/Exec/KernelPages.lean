import Jokerix.Exec.Memory

/-!
# The pages of the kernel

From the first instruction on the kernel is where it is. The table that `entry.S` starts with leads
to it with every permission; the tables that the kernel builds lead there too, with those of its
sections.
-/

namespace Jokerix

/-! ### The table at the start -/

/-- The entries of `bootpagetable`. Two of them map a gigabyte each. -/
def bootEntry (i : ℕ) : ℕ := if i = 2 ∨ i = 510 then 0x80000 * 2 ^ 10 ||| 0xcf else 0

/-- The word that `_start` writes to `satp`. -/
def startSatp (bootpagetable : ℕ) : ℕ := (bootpagetable - kernelMapOffset) / 2 ^ 12 ||| 8 * 2 ^ 60

/-- The table in the data of the kernel. -/
structure BootTable (L : Layout) (mem : Bytes.Memory) (bootpagetable : ℕ) : Prop where
  aligned : pageSize ∣ bootpagetable
  low : L.dataStart ≤ bootpagetable
  high : bootpagetable + pageSize ≤ L.bssStart
  entries : ∀ i < 512, Bytes.loadLE 8 mem (bootpagetable + 8 * i) = bootEntry i

/-- The gigabyte of the kernel, where it is and at the offset of the kernel. -/
def bootPlace (va : ℕ) : Option (ℕ × ℕ) :=
  if 0x80000000 ≤ va ∧ va < 0xc0000000 then some (va, 0xcf)
  else if 0x80000000 + kernelMapOffset ≤ va ∧ va < 0xc0000000 + kernelMapOffset then
    some (va - kernelMapOffset, 0xcf)
  else none

section
variable {L : Layout} {m : Machine} {mem : Bytes.Memory} {roots : List ℕ} {r va b : ℕ}

lemma BootTable.bounds (h : BootTable L mem b) :
    0xffffffff80200000 ≤ b ∧ b + pageSize ≤ memoryEndPaddr + kernelMapOffset := by
  obtain ⟨htext, hrodata, hdata, hbss, hend, hlt⟩ := L.bounds
  have hlow := h.low
  have hhigh := h.high
  have hroom := L.room
  omega

/-- The root table in `satp` is the table. -/
lemma BootTable.root (h : BootTable L mem b) :
    startSatp b % 2 ^ 44 = (b - kernelMapOffset) / 2 ^ 12 := by
  obtain ⟨hlow, hhigh⟩ := h.bounds
  simp only [pageSize, memoryEndPaddr, kernelMapOffset] at hlow hhigh ⊢
  have hlt : (b - 0xffffffff00000000) / 2 ^ 12 < 2 ^ 44 := by omega
  have hmod := Exec.satpOf_mod hlt
  rwa [Nat.mod_mod_of_dvd _ (by norm_num)] at hmod

lemma BootTable.entry (h : BootTable L mem b) {i : ℕ} (hi : i < 512) :
    Bytes.loadLE 8 mem (accessVaViaPa (startSatp b % 2 ^ 44 * pageSize + 8 * i)) = bootEntry i := by
  obtain ⟨hlow, hhigh⟩ := h.bounds
  obtain ⟨c, hc⟩ := h.aligned
  have haddr : accessVaViaPa (startSatp b % 2 ^ 44 * pageSize + 8 * i) = b + 8 * i := by
    rw [h.root, accessVaViaPa]
    simp only [pageSize, memoryEndPaddr, kernelMapOffset] at *
    omega
  rw [haddr, h.entries i hi]

/-- The two entries are leaves. -/
lemma sv39Walk_bootEntry {i : ℕ} {vpns : List ℕ} (h : BootTable L mem b) (hi : i < 512) :
    sv39Walk mem (startSatp b % 2 ^ 44) (i :: vpns) =
      if i = 2 ∨ i = 510 then some (0x80000 * 2 ^ 10 ||| 0xcf, vpns.length) else none := by
  rw [sv39Walk, h.entry hi, bootEntry]
  split_ifs <;> simp_all [flagReadable, flagWritable, flagExecutable]

/-- An address in one of the two gigabytes, and every other one. -/
lemma BootTable.gigabyte (h : BootTable L mem b) (va : ℕ) :
    sv39Address mem (startSatp b % 2 ^ 44) va =
      if Canonical va ∧ (va / 2 ^ 30 % 512 = 2 ∨ va / 2 ^ 30 % 512 = 510) then
        some (0x80000000 + va % 2 ^ 30, 0xcf)
      else none := by
  have hppn : (0x80000 * 2 ^ 10 ||| 0xcf) / 2 ^ 10 % 2 ^ 44 = 0x80000 ∧
      (0x80000 * 2 ^ 10 ||| 0xcf) % 2 ^ 10 = 0xcf := by decide
  have hindex : va / pageSize / 2 ^ 18 % 512 = va / 2 ^ 30 % 512 := by
    rw [Nat.div_div_eq_div_mul]
    rfl
  rw [Jokerix.sv39Address, sv39, getVpnLevels, sv39Walk_bootEntry h (Nat.mod_lt _ (by decide)),
    hindex]
  by_cases hc : Canonical va
  · by_cases hi : va / 2 ^ 30 % 512 = 2 ∨ va / 2 ^ 30 % 512 = 510
    · rw [if_pos hc, if_pos hi, if_pos ⟨hc, hi⟩, Option.bind_some]
      simp only [hppn, List.length_cons, List.length_nil]
      exact if_pos (by norm_num)
    · rw [if_pos hc, if_neg hi, if_neg fun h => hi h.2, Option.bind_none]
  · rw [if_neg hc, if_neg fun h => hc h.1]

/-- What the hardware makes of the table. -/
theorem BootTable.sv39Address (h : BootTable L mem b) (va : ℕ) :
    sv39Address mem (startSatp b % 2 ^ 44) va = bootPlace va := by
  have hmem : Canonical va ∧ (va / 2 ^ 30 % 512 = 2 ∨ va / 2 ^ 30 % 512 = 510) ↔
      0x80000000 ≤ va ∧ va < 0xc0000000 ∨
        0x80000000 + kernelMapOffset ≤ va ∧ va < 0xc0000000 + kernelMapOffset := by
    simp only [Canonical, kernelMapOffset]
    omega
  rw [h.gigabyte, bootPlace]
  simp only [hmem]
  by_cases hlow : 0x80000000 ≤ va ∧ va < 0xc0000000
  · rw [if_pos (.inl hlow), if_pos hlow, show 0x80000000 + va % 2 ^ 30 = va by omega]
  by_cases hhigh : 0x80000000 + kernelMapOffset ≤ va ∧ va < 0xc0000000 + kernelMapOffset
  · rw [if_pos (.inr hhigh), if_neg hlow, if_pos hhigh]
    simp only [kernelMapOffset] at hhigh ⊢
    rw [show 0x80000000 + va % 2 ^ 30 = va - 0xffffffff00000000 by omega]
  · rw [if_neg (by rw [not_or]; exact ⟨hlow, hhigh⟩), if_neg hlow, if_neg hhigh]

/-- The kernel is there at its offset. -/
lemma BootTable.kernel (h : BootTable L mem b) (h1 : L.textStart ≤ va)
    (h2 : va < memoryEndPaddr + kernelMapOffset) :
    Jokerix.sv39Address mem (startSatp b % 2 ^ 44) va = some (va - kernelMapOffset, 0xcf) := by
  obtain ⟨htext, _⟩ := L.bounds
  simp only [memoryEndPaddr, kernelMapOffset] at h2
  rw [h.sv39Address, bootPlace, if_neg (by omega)]
  simp only [kernelMapOffset]
  exact if_pos ⟨by omega, by omega⟩

/-! ### The tables of the kernel -/

end

end Jokerix
