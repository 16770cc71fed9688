import Jokerix.Trap.Switch

/-!
# What the assembler code does

The pages of a program and the data of the kernel are windows in the memory of the hart. What is
saved there is loaded again.
-/

namespace Jokerix.Switch

open Exec (satpOf)

section
variable {L : Layout} {m : Machine} {roots : List ℕ} {r a n i : ℕ} {mem : Bytes.Memory}
  {satp : BitVec 64}

/-! ### Windows -/

/-- The addresses from the offset `i` to the offset `n`. -/
def span (a i n : ℕ) : Set ℕ := Set.Ico (a + i) (a + n)

/-- The program may store at these addresses. -/
def OwnPages (r : ℕ) (mem : Bytes.Memory) (a i n : ℕ) : Prop :=
  ∀ x ∈ span a i n, ∃ p, userPlace r mem x = some p

/-- The place of an address of the program. -/
def ownPlace (r : ℕ) (mem : Bytes.Memory) (x : ℕ) : ℕ := (userPlace r mem x).getD 0

lemma OwnPages.place (h : OwnPages r mem a i n) {x : ℕ} (hx : x ∈ span a i n) :
    userPlace r mem x = some (ownPlace r mem x) := by
  obtain ⟨p, hp⟩ := h x hx
  rw [ownPlace, hp, Option.getD_some]

/-- The tables lie behind the data of the kernel. -/
lemma inTable_kernelEnd (h : Reach L m roots) {x : ℕ} (hx : InTable m.mem roots x) :
    L.kernelEnd ≤ x := by
  obtain ⟨owner, ho, hroots⟩ := h.inv
  obtain ⟨r, hr, path, p, hlen, hp, hin⟩ := hx
  obtain ⟨hs, hlt⟩ := ho.used _ _ (SpacesInv.tableAt ho hroots hr hlen hp)
  by_contra hend
  exact kernelEnd_outside (not_le.mp hend) p hs hlt hin

/-- Stores in the pages of a program keep the tables. -/
lemma table_of_own (h : Reach L m roots) (hr : r ∈ roots)
    (hmem : ∀ p, mem p ≠ m.mem p → ∃ x, userPlace r m.mem x = some p) :
    ∀ p, InTable m.mem roots p → mem p = m.mem p := by
  intro p hp
  by_contra hne
  obtain ⟨x, hx⟩ := hmem p hne
  exact (h.userPlace_apart hr hx).2 hp

lemma access_of_own (h : Reach L m roots) (hr : r ∈ roots)
    (hmem : ∀ p, mem p ≠ m.mem p → ∃ x, userPlace r m.mem x = some p) :
    ∀ r' ∈ roots, ∀ grants, access grants r' mem = access grants r' m.mem :=
  fun r' hr' => ((h.store mem (table_of_own h hr hmem)).2 r' hr').2

/-- What changes with a window of the program lies in its pages. -/
lemma OwnPages.changed (hown : OwnPages r m.mem a i n)
    (hout : ∀ p, p ∉ ownPlace r m.mem '' span a i n → mem p = m.mem p) :
    ∀ p, mem p ≠ m.mem p → ∃ x, userPlace r m.mem x = some p := by
  intro p hp
  by_contra hnone
  refine hp (hout p fun hin => ?_)
  obtain ⟨x, hx, rfl⟩ := hin
  exact hnone ⟨x, hown.place hx⟩

/-- The pages of a program, for stores and for loads. -/
lemma OwnPages.window (hown : OwnPages r m.mem a i n) (h : Reach L m roots) (hr : r ∈ roots)
    (hn : n ≤ 2 ^ 64) :
    Paged.Window (writePlace r) m.mem (span a i n) (ownPlace r m.mem) ∧
      Paged.Window (readPlace r) m.mem (span a i n) (ownPlace r m.mem) := by
  have hinj : Set.InjOn (ownPlace r m.mem) (span a i n) := by
    intro x hx y hy heq
    have hxy := h.userPlace_inj hr (hown.place hx) (heq ▸ hown.place hy)
    simp only [span, Set.mem_Ico] at hx hy
    omega
  have hkeep : ∀ mem' : Bytes.Memory,
      (∀ p, p ∉ ownPlace r m.mem '' span a i n → mem' p = m.mem p) →
      ∀ grants, access grants r mem' = access grants r m.mem :=
    fun mem' hmem' => access_of_own h hr (hown.changed hmem') r hr
  constructor
  · refine ⟨hinj, fun mem' hmem' x hx => ?_⟩
    rw [writePlace, hkeep mem' hmem']
    exact writePlace_of_userPlace (hown.place hx)
  · refine ⟨hinj, fun mem' hmem' x hx => ?_⟩
    rw [readPlace, hkeep mem' hmem']
    exact h.readPlace_of_userPlace hr (hown.place hx)

/-- The data of the kernel. -/
lemma kernel_window (h : Reach L m roots) (hr : r ∈ roots) (h1 : L.dataStart ≤ a + i)
    (h2 : a + n ≤ L.kernelEnd) :
    Paged.Window (writePlace r) m.mem (span a i n) id ∧
      Paged.Window (readPlace r) m.mem (span a i n) id := by
  have hkeep : ∀ mem' : Bytes.Memory, (∀ p, p ∉ id '' span a i n → mem' p = m.mem p) →
      ∀ grants, access grants r mem' = access grants r m.mem := by
    intro mem' hmem'
    refine ((h.store mem' fun p hp => hmem' p ?_).2 r hr).2
    rw [Set.image_id]
    have := inTable_kernelEnd h hp
    simp only [span, Set.mem_Ico]
    omega
  constructor
  · refine ⟨Set.injOn_id _, fun mem' hmem' x hx => ?_⟩
    rw [writePlace, hkeep mem' hmem']
    exact (h.kernelPlace hr (h1.trans hx.1) (hx.2.trans_le h2)).2
  · refine ⟨Set.injOn_id _, fun mem' hmem' x hx => ?_⟩
    rw [readPlace, hkeep mem' hmem']
    exact (h.kernelPlace hr (h1.trans hx.1) (hx.2.trans_le h2)).1

/-! ### Words -/

lemma ld_eq {place : ℕ → ℕ}
    (h : ∀ x, a ≤ x → x < a + 8 → readPlace (rootOf satp) mem x = some (place x)) :
    ld satp mem a = some (BitVec.ofNat 64 (Bytes.loadLE 8 (fun x => mem (place x)) a)) := by
  rw [ld, Paged.loadLE_eq h, Option.map_some]

lemma ld_congr {mem' : Bytes.Memory} (h : ∀ x, a ≤ x → x < a + 8 →
      readPlace (rootOf satp) mem' x = readPlace (rootOf satp) mem x ∧
      ∀ p, readPlace (rootOf satp) mem x = some p → mem' p = mem p) :
    ld satp mem' a = ld satp mem a := by
  rw [ld, ld, Paged.loadLE_congr h]

/-- Words that are saved in a window: they are loaded again, and other words of the window stay. -/
lemma sdWords_window {F : Set ℕ} {place : ℕ → ℕ} {l : List (ℕ × BitVec 64)}
    (hw : Paged.Window (writePlace (rootOf satp)) mem F place)
    (hr : Paged.Window (readPlace (rootOf satp)) mem F place)
    (hF : ∀ kv ∈ l, ∀ x, a + 8 * kv.1 ≤ x → x < a + 8 * kv.1 + 8 → x ∈ F)
    (hnodup : (l.map Prod.fst).Nodup) :
    ∃ mem', sdWords satp mem a l = some mem' ∧ (∀ p, p ∉ place '' F → mem' p = mem p) ∧
      (∀ k v, (k, v) ∈ l → ld satp mem' (a + 8 * k) = some v) ∧
      ∀ k, (∀ x, a + 8 * k ≤ x → x < a + 8 * k + 8 → x ∈ F) → k ∉ l.map Prod.fst →
        ld satp mem' (a + 8 * k) = ld satp mem (a + 8 * k) := by
  obtain ⟨mem', hok, hout, hin⟩ := hw.storeWords (w := 8) (a := a)
    (l := l.map fun kv => (kv.1, kv.2.toNat)) (by
      intro kv hkv
      obtain ⟨kv', hkv', rfl⟩ := List.mem_map.mp hkv
      exact hF kv' hkv')
  have hfst : (l.map fun kv => (kv.1, kv.2.toNat)).map Prod.fst = l.map Prod.fst := by
    rw [List.map_map]
    rfl
  have hread : ∀ b, (∀ x, b ≤ x → x < b + 8 → x ∈ F) → ld satp mem' b = some (BitVec.ofNat 64
      (Bytes.loadLE 8 (Paged.putWords 8 (fun x => mem (place x)) a
        (l.map fun kv => (kv.1, kv.2.toNat))) b)) := by
    intro b hb
    rw [ld_eq fun x h1 h2 => hr.stable mem' hout x (hb x h1 h2)]
    exact congrArg (some ∘ BitVec.ofNat 64)
      (Bytes.loadLE_congr fun x h1 h2 => hin x (hb x h1 h2))
  refine ⟨mem', hok, hout, fun k v hkv => ?_, fun k hk hnot => ?_⟩
  · rw [hread _ (hF _ hkv), Paged.loadLE_putWords (v := v.toNat) (by rwa [hfst])
      (List.mem_map.mpr ⟨_, hkv, rfl⟩), Nat.mod_eq_of_lt (by simpa using v.isLt),
      BitVec.ofNat_toNat, BitVec.setWidth_eq]
  · rw [hread _ hk, ld_eq fun x h1 h2 => hr.apply (hk x h1 h2)]
    refine congrArg (some ∘ BitVec.ofNat 64) (Bytes.loadLE_congr fun x h1 h2 => ?_)
    refine Paged.putWords_of_not_mem fun kv hkv => ?_
    have hne : kv.1 ≠ k := by
      rintro rfl
      exact hnot (hfst ▸ List.mem_map_of_mem hkv)
    have := Paged.words_disjoint (a := a) (w := 8) hne
    omega

/-- Registers that are loaded. -/
lemma ldRegs_eq {l : List (ℕ × ℕ)} {x : Regs} (v : Regs)
    (h : ∀ ik ∈ l, ld satp mem (a + 8 * ik.2) = some (v ik.1)) :
    ldRegs satp mem a l x = some fun i => if i ∈ l.map Prod.fst then v i else x i := by
  induction l generalizing x with
  | nil => rfl
  | cons ik l ih =>
    rw [ldRegs, h ik List.mem_cons_self, Option.bind_some,
      ih fun ik' hik' => h ik' (List.mem_cons_of_mem _ hik')]
    congr 1
    funext i
    rw [List.map_cons]
    by_cases hi : i ∈ l.map Prod.fst
    · rw [if_pos hi, if_pos (List.mem_cons_of_mem _ hi)]
    · by_cases hik : i = ik.1
      · subst hik
        rw [if_neg hi, if_pos List.mem_cons_self, Function.update_self]
      · rw [if_neg hi, if_neg (by rw [List.mem_cons]; tauto), Function.update_of_ne hik]

end

/-! ### The words of a trap -/

/-- The word of a frame at an index. The `sepc` of a system call is already moved on. -/
def Trapped.word (t : Trapped) (i : ℕ) : BitVec 64 :=
  if i = 32 then t.sstatus
  else if i = 33 then t.pc + if t.cause = .ecall then 4 else 0
  else t.x i

/-- A word as `__interrupt` saves it. -/
def Trapped.saved (t : Trapped) (i : ℕ) : BitVec 64 :=
  if i = 32 then t.sstatus else if i = 33 then t.pc else t.x i

/-- The frame of a trap lies in the pages of the program and holds its words. -/
structure FrameHolds (w : ℕ → BitVec 64) (frame satp : BitVec 64) (mem : Bytes.Memory) : Prop where
  own : OwnPages (rootOf satp) mem frame.toNat 8 (34 * 8)
  words : ∀ i, 1 ≤ i → i < 34 → ld satp mem (frame.toNat + 8 * i) = some (w i)

lemma interruptWords_eq (x : Regs) (sstatus sepc : BitVec 64) :
    interruptWords x sstatus sepc = (List.range 33).map fun n =>
      (n + 1, if n + 1 = 32 then sstatus else if n + 1 = 33 then sepc else x (n + 1)) := by
  rw [interruptWords, BitVec.sub_add_cancel]
  rfl

lemma frame_span {a k x : ℕ} (h1 : 1 ≤ k) (h2 : k < 34) (hx : a + 8 * k ≤ x)
    (hx' : x < a + 8 * k + 8) : x ∈ span a 8 (34 * 8) :=
  ⟨by omega, by omega⟩

section
variable {L : Layout} {s s' : Cpu} {roots : List ℕ} {tid : ℕ}

/-- A store in the frame of a trap. -/
lemma FrameHolds.store {w : ℕ → BitVec 64} {frame satp : BitVec 64} {m : Machine}
    (hf : FrameHolds w frame satp m.mem) (h : Reach L m roots) (hr : rootOf satp ∈ roots) {k : ℕ}
    (h1 : 1 ≤ k) (h2 : k < 34) (v : BitVec 64) :
    ∃ mem, sdWords satp m.mem frame.toNat [(k, v)] = some mem ∧
      (∀ p, mem p ≠ m.mem p → ∃ x, userPlace (rootOf satp) m.mem x = some p) ∧
      FrameHolds (Function.update w k v) frame satp mem := by
  obtain ⟨hwrite, hread⟩ := hf.own.window h hr (by norm_num)
  obtain ⟨mem, hok, hout, hin, hother⟩ := sdWords_window hwrite hread (l := [(k, v)])
    (by
      intro kv hkv x hx hx'
      obtain rfl := List.mem_singleton.mp hkv
      exact frame_span h1 h2 hx hx') (by simp)
  have hown := hf.own.changed hout
  refine ⟨mem, hok, hown, fun x hx => ?_, fun i hi1 hi2 => ?_⟩
  · rw [userPlace, access_of_own h hr hown _ hr]
    exact hf.own x hx
  · by_cases hik : i = k
    · subst hik
      rw [Function.update_self]
      exact hin i v List.mem_cons_self
    · rw [Function.update_of_ne hik, hother i (fun x hx hx' => frame_span hi1 hi2 hx hx')
        (by simpa using hik)]
      exact hf.words i hi1 hi2

/-- `__interrupt` in the pages of the program. -/
lemma interrupt_spec (tid : ℕ) (h : Reach L s.m roots) (hr : rootOf s.satp ∈ roots)
    (hown : OwnPages (rootOf s.satp) s.m.mem (s.x 2 - 34 * 8).toNat 8 (34 * 8)) (cause : TrapCause)
    (scause stval restore : BitVec 64) :
    let t : Trapped := ⟨cause, s.x, s.pc, trapSstatus .user s.sstatus⟩
    ∃ mem, s.interrupt tid cause scause stval restore = some { s with
        m := { s.m with mem }
        x := interruptRegs s.x t.frame t.sstatus s.pc scause stval restore
        sstatus := t.sstatus
        mode := .handler tid t } ∧
      (∀ p, mem p ≠ s.m.mem p → ∃ a, userPlace (rootOf s.satp) s.m.mem a = some p) ∧
      FrameHolds t.saved t.frame s.satp mem := by
  intro t
  obtain ⟨hwrite, hread⟩ := hown.window h hr (by norm_num)
  have hwords := interruptWords_eq s.x t.sstatus s.pc
  obtain ⟨mem, hok, hout, hin, _⟩ := sdWords_window hwrite hread
    (l := interruptWords s.x t.sstatus s.pc)
    (by
      intro kv hkv x hx hx'
      rw [hwords, List.mem_map] at hkv
      obtain ⟨n, hn, rfl⟩ := hkv
      have := List.mem_range.mp hn
      exact frame_span (by dsimp only; omega) (by dsimp only; omega) hx hx')
    (by
      rw [hwords, List.map_map]
      exact List.nodup_range.map fun _ _ h => Nat.succ.inj h)
  have hown' := hown.changed hout
  refine ⟨mem, ?_, hown', fun x hx => ?_, fun i hi1 hi2 => ?_⟩
  · rw [Cpu.interrupt]
    exact congrArg (Option.map _) hok
  · rw [userPlace, access_of_own h hr hown' _ hr]
    exact hown x hx
  · refine hin i _ ?_
    rw [hwords, List.mem_map]
    refine ⟨i - 1, List.mem_range.mpr (by omega), ?_⟩
    rw [Nat.sub_add_cancel hi1]
    rfl

/-! ### Traps -/

/-- Besides the registers and the mode, only pages of the running program change. -/
structure Touches (s s' : Cpu) : Prop where
  sta : s'.m.sta = s.m.sta
  mem : ∀ p, s'.m.mem p ≠ s.m.mem p → ∃ x, userPlace (rootOf s.satp) s.m.mem x = some p
  roots : s'.roots = s.roots
  idle : s'.idle = s.idle
  threads : s'.threads = s.threads

lemma Touches.trans {s'' : Cpu} (h : Touches s s') (h' : Touches s' s'') (hsatp : s'.satp = s.satp)
    (hplace : userPlace (rootOf s.satp) s'.m.mem = userPlace (rootOf s.satp) s.m.mem) :
    Touches s s'' := by
  refine ⟨h'.sta.trans h.sta, fun p hp => ?_, h'.roots.trans h.roots, h'.idle.trans h.idle,
    h'.threads.trans h.threads⟩
  by_cases hp' : s''.m.mem p = s'.m.mem p
  · exact h.mem p (hp' ▸ hp)
  · have := h'.mem p hp'
    rwa [hsatp, hplace] at this

lemma Trapped.word_ecall {t : Trapped} (h : t.cause = .ecall) :
    Function.update t.saved 33 (t.pc + 4) = t.word := by
  funext i
  by_cases hi : i = 33
  · subst hi
    rw [Function.update_self, word, if_neg (by decide), if_pos rfl, if_pos h]
  · rw [Function.update_of_ne hi, saved, word, if_neg hi, if_neg hi]

lemma Trapped.word_other {t : Trapped} (h : t.cause ≠ .ecall) : t.saved = t.word := by
  funext i
  rw [saved, word, if_neg h]
  exact congrArg (ite _ _) (congrArg (ite _ · _) (BitVec.add_zero t.pc).symm)

/-- The traps but for system calls go to their handlers at once. -/
lemma trap_other {cause : TrapCause} (hcause : cause ≠ .ecall) (tid : ℕ)
    (scause stval restore : BitVec 64) :
    s.trap tid cause scause stval restore = s.interrupt tid cause scause stval restore := by
  cases cause with
  | timer => rfl
  | external => rfl
  | ecall => exact absurd rfl hcause

/-- A trap of a program whose stack pointer is in its pages. -/
theorem trap_spec (h : Reach L s.m s.roots) (hr : rootOf s.satp ∈ s.roots)
    (hown : OwnPages (rootOf s.satp) s.m.mem (s.x 2 - 34 * 8).toNat 8 (34 * 8)) (tid : ℕ)
    (cause : TrapCause) (scause stval restore : BitVec 64) :
    let t : Trapped := ⟨cause, s.x, s.pc, trapSstatus .user s.sstatus⟩
    ∃ s', s.trap tid cause scause stval restore = some s' ∧ Touches s s' ∧ s'.satp = s.satp ∧
      s'.mode = .handler tid t ∧ FrameHolds t.word t.frame s.satp s'.m.mem := by
  intro t
  obtain ⟨mem, hok, hmem, hf⟩ := interrupt_spec tid h hr hown cause scause stval restore
  set s₁ : Cpu := { s with
    m := { s.m with mem }
    x := interruptRegs s.x t.frame t.sstatus s.pc scause stval restore
    sstatus := t.sstatus
    mode := .handler tid t } with hs₁
  have htouch : Touches s s₁ := ⟨rfl, hmem, rfl, rfl, rfl⟩
  by_cases hcause : cause = .ecall
  · subst hcause
    have hplaces := access_of_own h hr hmem _ hr
    have hreach : Reach L s₁.m s.roots := (h.store mem (table_of_own h hr hmem)).1
    obtain ⟨mem', hok', hmem', hf'⟩ :=
      FrameHolds.store (m := s₁.m) hf hreach hr (k := 33) (by norm_num) (by norm_num) (t.pc + 4)
    refine ⟨{ s₁ with m := { s₁.m with mem := mem' } }, ?_,
      htouch.trans ⟨rfl, hmem', rfl, rfl, rfl⟩ rfl (hplaces _), rfl, rfl, ?_⟩
    · rw [Cpu.trap, hok, Option.bind_some, Cpu.skipEcall]
      rw [show ld s₁.satp s₁.m.mem ((s.x 2 - 34 * 8).toNat + 8 * 33) = some t.pc from
        hf.words 33 (by norm_num) (by norm_num), Option.bind_some]
      exact congrArg (Option.map _) hok'
    · rw [← Trapped.word_ecall (t := t) rfl]
      exact hf'
  · rw [Trapped.word_other (t := t) hcause] at hf
    exact ⟨s₁, (trap_other hcause tid scause stval restore).trans hok, htouch, rfl, rfl, hf⟩

/-! ### Returns -/

/-- `__restore` touches the registers only. -/
lemma restore_cases {sp : BitVec 64} (h : s.restore tid sp = some s') :
    ∃ x pc sstatus, s' = { s with x, pc, sstatus, mode := .user tid } := by
  rw [Cpu.restore, Option.bind_eq_some_iff] at h
  obtain ⟨sstatus, _, h⟩ := h
  rw [Option.bind_eq_some_iff] at h
  obtain ⟨sepc, _, h⟩ := h
  rw [Option.bind_eq_some_iff] at h
  obtain ⟨x, _, h⟩ := h
  split_ifs at h
  exact ⟨_, _, _, (Option.some.inj h).symm⟩

lemma of_mem_restoreRegs : ∀ ik ∈ restoreRegs, ik.2 = ik.1 ∧ 1 ≤ ik.1 ∧ ik.1 < 32 := by decide

lemma mem_restoreRegs : ∀ i < 32, 1 ≤ i → i ∈ restoreRegs.map Prod.fst := by decide

/-- `__restore` loads the words of a frame. -/
lemma restore_spec (s : Cpu) (tid : ℕ) (sp : BitVec 64) {w : ℕ → BitVec 64}
    (hw : ∀ i, 1 ≤ i → i < 34 → ld s.satp s.m.mem (sp.toNat + 8 * i) = some (w i)) :
    ∃ x : Regs, (∀ i, 1 ≤ i → i < 32 → x i = w i) ∧ s.restore tid sp =
      if sretPriv (w 32) = .user then
        some { s with x, pc := w 33, sstatus := sretSstatus (w 32), mode := .user tid }
      else none := by
  let x₀ := Function.update (Function.update s.x 9 (w 32)) 18 (w 33)
  let x : Regs := fun i => if i ∈ restoreRegs.map Prod.fst then w i else x₀ i
  have hregs : ldRegs s.satp s.m.mem sp.toNat restoreRegs x₀ = some x := by
    refine ldRegs_eq w fun ik hik => ?_
    obtain ⟨heq, h1, h2⟩ := of_mem_restoreRegs ik hik
    rw [heq]
    exact hw ik.1 h1 (by omega)
  refine ⟨x, fun i h1 h2 => if_pos (mem_restoreRegs i h2 h1), ?_⟩
  rw [Cpu.restore, hw 32 (by norm_num) (by norm_num), Option.bind_some,
    hw 33 (by norm_num) (by norm_num), Option.bind_some]
  simp only [x₀, hregs, Option.bind_some]

/-- A handler that returns to its program. -/
theorem finish_spec {t : Trapped} (h : Reach L s.m s.roots) (hr : rootOf s.satp ∈ s.roots)
    (hf : FrameHolds t.word t.frame s.satp s.m.mem) {value : BitVec 64}
    (hok : s.finish tid t value = some s') :
    Touches s s' ∧ s'.satp = s.satp ∧ s'.mode = .user tid ∧ t.Same s' := by
  by_cases hcause : t.cause = .ecall
  · obtain ⟨mem, hstore, hmem, hf'⟩ := hf.store h hr (k := 10) (by norm_num) (by norm_num) value
    obtain ⟨x, hx, hrestore⟩ := restore_spec { s with m := { s.m with mem } } tid t.frame hf'.words
    simp only [Cpu.finish, hcause, hstore, Option.bind_some] at hok
    rw [hrestore] at hok
    split_ifs at hok
    obtain rfl := Option.some.inj hok
    refine ⟨⟨rfl, hmem, rfl, rfl, rfl⟩, rfl, rfl, fun i h1 h2 hne => ?_, ?_⟩
    · dsimp only
      rw [hx i h1 h2, Function.update_of_ne (hne hcause), Trapped.word, if_neg (by omega),
        if_neg (by omega)]
    · dsimp only
      rw [Function.update_of_ne (by norm_num), Trapped.word, if_neg (by norm_num), if_pos rfl]
  · obtain ⟨x, hx, hrestore⟩ := restore_spec s tid t.frame hf.words
    have hfinish : s.finish tid t value = s.restore tid t.frame := by
      rw [Cpu.finish]
      split
      · rename_i he
        exact absurd he hcause
      · rfl
    rw [hfinish, hrestore] at hok
    split_ifs at hok
    obtain rfl := Option.some.inj hok
    refine ⟨⟨rfl, fun p hp => absurd rfl hp, rfl, rfl, rfl⟩, rfl, rfl, fun i h1 h2 _ => ?_, ?_⟩
    · dsimp only
      rw [hx i h1 h2, Trapped.word, if_neg (by omega), if_neg (by omega)]
    · dsimp only
      rw [Trapped.word, if_neg (by norm_num), if_pos rfl]

/-! ### Switches -/

/-- The loads of a switch. -/
lemma loadContext_cases {mem : Bytes.Memory} {target : BitVec 64}
    (h : s.loadContext mem target = some s') :
    ∃ satp x pc, ld s.satp mem (target.toNat + 8) = some satp ∧ s' = { s with
      m := { s.m with mem }, x := Function.update x 2 (target + 8 * 14), pc, satp } := by
  rw [Cpu.loadContext, Option.bind_eq_some_iff] at h
  obtain ⟨satp, hsatp, h⟩ := h
  rw [Option.map_eq_some_iff] at h
  obtain ⟨x, _, rfl⟩ := h
  exact ⟨satp, x, x 1, hsatp, rfl⟩

lemma switchWords_lt : ∀ kv ∈ s.switchWords, kv.1 < 14 := by
  simp [Cpu.switchWords, switchRegs]

lemma switchWords_nodup : (s.switchWords.map Prod.fst).Nodup := by
  simp [Cpu.switchWords, switchRegs]

/-- The stores of a switch in a window around the stack pointer. -/
lemma saveContext_window {place : ℕ → ℕ}
    (hw : Paged.Window (writePlace (rootOf s.satp)) s.m.mem (span s.contextAddr.toNat 0 (8 * 14))
      place)
    (hr : Paged.Window (readPlace (rootOf s.satp)) s.m.mem (span s.contextAddr.toNat 0 (8 * 14))
      place) :
    ∃ mem, s.saveContext = some mem ∧
      (∀ p, p ∉ place '' span s.contextAddr.toNat 0 (8 * 14) → mem p = s.m.mem p) ∧
      ld s.satp mem (s.contextAddr.toNat + 8) = some s.satp := by
  obtain ⟨mem, hok, hout, hin, _⟩ := sdWords_window (a := s.contextAddr.toNat)
    (l := s.switchWords) hw hr
    (by
      intro kv hkv x h1 h2
      have := switchWords_lt kv hkv
      exact ⟨by omega, by omega⟩) switchWords_nodup
  exact ⟨mem, hok, hout, hin 1 s.satp (by simp [Cpu.switchWords])⟩

/-- A switch away from a program whose stack pointer is in its pages. -/
lemma saveContext_own (h : Reach L s.m s.roots) (hr : rootOf s.satp ∈ s.roots)
    (hown : OwnPages (rootOf s.satp) s.m.mem s.contextAddr.toNat 0 (8 * 14)) :
    ∃ mem, s.saveContext = some mem ∧
      ∀ p, mem p ≠ s.m.mem p → ∃ x, userPlace (rootOf s.satp) s.m.mem x = some p := by
  obtain ⟨hwrite, hread⟩ := hown.window h hr (by norm_num)
  obtain ⟨mem, hok, hout, _⟩ := saveContext_window hwrite hread
  exact ⟨mem, hok, hown.changed hout⟩

/-- A switch away from a stack in the data of the kernel. -/
lemma saveContext_kernel (h : Reach L s.m s.roots) (hr : rootOf s.satp ∈ s.roots)
    (h1 : L.dataStart ≤ s.contextAddr.toNat) (h2 : s.contextAddr.toNat + 8 * 14 ≤ L.kernelEnd) :
    ∃ mem, s.saveContext = some mem ∧
      (∀ p, p ∉ span s.contextAddr.toNat 0 (8 * 14) → mem p = s.m.mem p) ∧
      Bytes.loadLE 8 mem (s.contextAddr.toNat + 8) = s.satp.toNat := by
  obtain ⟨hwrite, hread⟩ := kernel_window h hr (i := 0) (n := 8 * 14) h1 h2
  obtain ⟨mem, hok, hout, hword⟩ := saveContext_window hwrite hread
  refine ⟨mem, hok, by simpa using hout, ?_⟩
  have hplace : ∀ x, s.contextAddr.toNat + 8 ≤ x → x < s.contextAddr.toNat + 8 + 8 →
      readPlace (rootOf s.satp) mem x = some (id x) := by
    intro x hx hx'
    have hspan : x ∈ span s.contextAddr.toNat 0 (8 * 14) := ⟨by omega, by omega⟩
    exact hread.stable mem hout x hspan
  rw [ld_eq hplace] at hword
  have := congrArg BitVec.toNat (Option.some.inj hword)
  rwa [BitVec.toNat_ofNat, Nat.mod_eq_of_lt (lt_of_lt_of_eq (Bytes.loadLE_lt 8 _ _) (by norm_num))]
    at this

end

end Jokerix.Switch
