import Jokerix.Trap.SwitchSpecs

/-!
# Contexts over runs

The invariant of the runs in which no thread comes back from a switch that it made in a trap, and
what it says of the loads of `switchContext` and of the registers that `__restore` restores.
-/

namespace Jokerix.Switch

open Exec (satpOf)

/-! ### The condition -/

/-- The condition on a step. What a trap or a switch saves of a program lies in its pages; a
character is read neither over a saved context or a table nor over what the kernel's course depends
on; and a thread is dispatched only if it was not switched out before. -/
def Meets {L : Layout} (K : Image L) (s : Cpu) : Event → Prop
  | .trap _ => OwnPages (rootOf s.satp) s.m.mem (s.x 2 - 34 * 8).toNat 8 (34 * 8)
  | .out | .exit => OwnPages (rootOf s.satp) s.m.mem s.contextAddr.toNat 0 (8 * 14)
  | .read base => ∀ p, writePlace (rootOf s.satp) s.m.mem base.toNat = some p →
      ¬ s.Guarded p ∧ ¬ s.Course K p
  | .dispatch tid => ∀ c, s.threads tid = some c → c.left = none
  | _ => True

/-- A run whose steps all meet the condition. -/
def MeetingRun {L : Layout} (K : Image L) : Cpu → Cpu → Prop :=
  Relation.ReflTransGen fun s s' => ∃ e, Meets K s e ∧ Step K s e s'

/-! ### The invariant -/

/-- A context in the data of the kernel. -/
structure KernelContext (L : Layout) (mem : Bytes.Memory) (c : Context) : Prop where
  data_le : L.dataStart ≤ c.addr.toNat
  le_end : c.addr.toNat + c.size ≤ L.kernelEnd
  size : 16 ≤ c.size
  places : ∀ j < c.size, c.places j = some (c.addr.toNat + j)
  word : Bytes.loadLE 8 mem (c.addr.toNat + 8) = c.satp.toNat

/-- A context that was built and waits for its first dispatch. -/
structure BuiltHeld {L : Layout} (K : Image L) (s : Cpu) (c : Context) : Prop where
  kernel : KernelContext L s.m.mem c
  root : rootOf c.satp ∈ s.roots
  apart : c.addr.toNat + c.size ≤ K.idleStack ∨ K.idleStack + kernelStackSize ≤ c.addr.toNat

/-- A context that was left in the pages of its program. -/
def LeftHeld (s : Cpu) (c : Context) : Prop :=
  ∃ r ∈ s.roots, ∃ p, userPlace r s.m.mem (c.addr.toNat + 8) = some p ∧ c.places 8 = some p

/-- The context of idle while a thread runs. -/
structure IdleHeld {L : Layout} (K : Image L) (root : ℕ) (s : Cpu) : Prop where
  kernel : KernelContext L s.m.mem s.idle
  root : rootOf s.idle.satp = root
  bottom : K.idleStack ≤ s.idle.addr.toNat
  top : s.idle.addr.toNat + 8 * 14 ≤ K.idleStack + kernelStackSize

/-- What does not depend on who runs. -/
structure SpacesHeld {L : Layout} (K : Image L) (root : ℕ) (s : Cpu) : Prop where
  reach : Reach L s.m s.roots
  mem_roots : root ∈ s.roots
  kernel : KernelSpace L s.m.mem root
  built : ∀ tid c, s.threads tid = some c → c.left = none → BuiltHeld K s c
  left : ∀ tid c, s.threads tid = some c → c.left ≠ none → LeftHeld s c

/-- What holds of the context that runs. -/
def ModeHeld {L : Layout} (K : Image L) (root : ℕ) (s : Cpu) : Mode → Prop
  | .boot => rootOf s.satp = root
  | .idle => rootOf s.satp = root ∧ SpOk K (s.x 2) .idle
  | .launch _ | .user _ => rootOf s.satp ∈ s.roots ∧ IdleHeld K root s
  | .handler _ t => (rootOf s.satp ∈ s.roots ∧ IdleHeld K root s) ∧
      FrameHolds t.word t.frame s.satp s.m.mem

structure Inv {L : Layout} (K : Image L) (root : ℕ) (s : Cpu) : Prop where
  spaces : SpacesHeld K root s
  mode : ModeHeld K root s s.mode

section
variable {L : Layout} {K : Image L} {s s' : Cpu} {root : ℕ} {mem : Bytes.Memory} {c : Context}

lemma Inv.held (h : Inv K root s) {mode : Mode} (hmode : s.mode = mode) : ModeHeld K root s mode :=
  hmode ▸ h.mode

/-! ### Contexts in the data of the kernel -/

lemma KernelContext.congr {mem' : Bytes.Memory} (h : KernelContext L mem c)
    (hmem : ∀ p, c.addr.toNat ≤ p → p < c.addr.toNat + c.size → mem' p = mem p) :
    KernelContext L mem' c := by
  refine ⟨h.data_le, h.le_end, h.size, h.places, ?_⟩
  have := h.size
  rw [Bytes.loadLE_congr fun p h1 h2 => hmem p (by omega) (by omega), h.word]

/-- From every address space it is reached. -/
lemma KernelContext.reaches (h : KernelContext L mem c) {m : Machine} {roots : List ℕ}
    (hreach : Reach L m roots) (hm : m.mem = mem) (hr : rootOf s.satp ∈ roots) :
    s.Reaches mem c := by
  have hplace : ∀ x, L.dataStart ≤ x → x < L.kernelEnd →
      readPlace (rootOf s.satp) mem x = some (id x) := by
    intro x h1 h2
    rw [← hm]
    exact (hreach.kernelPlace hr h1 h2).1
  have h1 := h.data_le
  have h2 := h.le_end
  have h3 := h.size
  constructor
  · rw [ld_eq fun x hx hx' => hplace x (by omega) (by omega)]
    simp only [id]
    rw [h.word, BitVec.ofNat_toNat, BitVec.setWidth_eq]
  · intro j hj hj'
    exact ⟨c.addr.toNat + j, h.places j (by omega), hplace _ (by omega) (by omega)⟩

/-! ### Changes of the memory -/

lemma SpacesHeld.setMem (h : SpacesHeld K root s) (hm : s'.m = { s.m with mem })
    (hroots : s'.roots = s.roots) (hthreads : s'.threads = s.threads)
    (htable : ∀ p, InTable s.m.mem s.roots p → mem p = s.m.mem p)
    (hbuilt : ∀ tid c, s.threads tid = some c → c.left = none →
      ∀ p, c.addr.toNat ≤ p → p < c.addr.toNat + c.size → mem p = s.m.mem p) :
    SpacesHeld K root s' := by
  obtain ⟨hreach, hkeep⟩ := h.reach.store mem htable
  refine ⟨?_, ?_, ?_, ?_, ?_⟩
  · rw [hm, hroots]
    exact hreach
  · rw [hroots]
    exact h.mem_roots
  · rw [hm]
    intro va hc
    rw [(hkeep root h.mem_roots).1]
    exact h.kernel va hc
  · intro tid c hc hleft
    rw [hthreads] at hc
    obtain ⟨hk, hr, hapart⟩ := h.built tid c hc hleft
    refine ⟨?_, ?_, hapart⟩
    · rw [hm]
      exact hk.congr (hbuilt tid c hc hleft)
    · rwa [hroots]
  · intro tid c hc hleft
    rw [hthreads] at hc
    obtain ⟨r, hr, p, hp, hplace⟩ := h.left tid c hc hleft
    refine ⟨r, ?_, p, ?_, hplace⟩
    · rwa [hroots]
    · rw [hm, userPlace, (hkeep r hr).2]
      exact hp

lemma IdleHeld.setMem (h : IdleHeld K root s) (hidle : s'.idle = s.idle)
    (hmem : ∀ p, s.idle.addr.toNat ≤ p → p < s.idle.addr.toNat + s.idle.size →
      s'.m.mem p = s.m.mem p) : IdleHeld K root s' := by
  obtain ⟨hk, hr, hbottom, htop⟩ := h
  refine ⟨?_, ?_, ?_, ?_⟩
  · rw [hidle]
    exact hk.congr hmem
  · rwa [hidle]
  · rwa [hidle]
  · rwa [hidle]

/-- Stores in the pages of a program change no data of the kernel. -/
lemma Touches.kernel (ht : Touches s s') (h : Reach L s.m s.roots) (hr : rootOf s.satp ∈ s.roots)
    {p : ℕ} (hp : p < L.kernelEnd) : s'.m.mem p = s.m.mem p := by
  by_contra hne
  obtain ⟨x, hx⟩ := ht.mem p hne
  exact absurd (h.userPlace_apart hr hx).1 (not_le.mpr hp)

lemma Touches.spaces (ht : Touches s s') (h : SpacesHeld K root s) (hr : rootOf s.satp ∈ s.roots) :
    SpacesHeld K root s' := by
  have hm : s'.m = { s.m with mem := s'.m.mem } := congrArg (Machine.mk s'.m.mem) ht.sta
  refine h.setMem hm ht.roots ht.threads (table_of_own h.reach hr ht.mem) ?_
  intro tid c hc hleft p hp1 hp2
  exact ht.kernel h.reach hr (hp2.trans_le (h.built tid c hc hleft).kernel.le_end)

lemma Touches.idleHeld (ht : Touches s s') (h : IdleHeld K root s) (hreach : Reach L s.m s.roots)
    (hr : rootOf s.satp ∈ s.roots) : IdleHeld K root s' :=
  h.setMem ht.idle fun _ _ hp2 => ht.kernel hreach hr (hp2.trans_le h.kernel.le_end)

/-- The bytes of a context in the data of the kernel are guarded. -/
lemma KernelContext.guarded (h : KernelContext L mem c) (hc : s.Holds c) {p : ℕ}
    (h1 : c.addr.toNat ≤ p) (h2 : p < c.addr.toNat + c.size) : s.Guarded p := by
  refine .inr (.inl ⟨c, hc, p - c.addr.toNat, by omega, ?_⟩)
  rw [h.places _ (by omega)]
  congr 1
  omega

/-- The frame of a trap stays when its bytes and the translation stay. -/
lemma FrameHolds.congr {w : ℕ → BitVec 64} {frame satp : BitVec 64} {mem' : Bytes.Memory}
    (hf : FrameHolds w frame satp mem)
    (haccess : ∀ grants, access grants (rootOf satp) mem' = access grants (rootOf satp) mem)
    (hmem : ∀ j, 8 ≤ j → j < 34 * 8 → ∀ p, readPlace (rootOf satp) mem (frame.toNat + j) = some p →
      mem' p = mem p) : FrameHolds w frame satp mem' := by
  constructor
  · intro x hx
    rw [userPlace, haccess]
    exact hf.own x hx
  · intro i h1 h2
    rw [← hf.words i h1 h2]
    refine ld_congr fun x hx hx' => ⟨by rw [readPlace, haccess], fun p hp => ?_⟩
    refine hmem (x - frame.toNat) (by omega) (by omega) p ?_
    rwa [Nat.add_sub_cancel' (by omega)]

/-- The kernel changes nothing that is guarded. -/
lemma Inv.setMem (h : Inv K root s) (hkernel : s.mode.Kernel)
    (hmem : ∀ p, s.Guarded p → mem p = s.m.mem p) (x : Regs)
    (hsp : s.mode = .idle → SpOk K (x 2) .idle) :
    Inv K root { s with m := { s.m with mem }, x } := by
  have htable : ∀ p, InTable s.m.mem s.roots p → mem p = s.m.mem p := fun p hp => hmem p (.inl hp)
  have hidle : s.mode ≠ .boot → s.mode ≠ .idle → IdleHeld K root s →
      IdleHeld K root { s with m := { s.m with mem }, x } := by
    intro h1 h2 hi
    exact hi.setMem rfl fun p hp1 hp2 => hmem p (hi.kernel.guarded (.inl ⟨rfl, h1, h2⟩) hp1 hp2)
  refine ⟨h.spaces.setMem rfl rfl rfl htable ?_, ?_⟩
  · intro tid c hc hleft p hp1 hp2
    exact hmem p ((h.spaces.built tid c hc hleft).kernel.guarded (.inr ⟨tid, hc⟩) hp1 hp2)
  · have hmode := h.mode
    cases hcase : s.mode with
    | boot =>
      rw [hcase] at hmode
      exact hmode
    | idle =>
      rw [hcase] at hmode
      exact ⟨hmode.1, hsp hcase⟩
    | launch tid =>
      rw [hcase] at hkernel
      exact hkernel.elim
    | user tid =>
      rw [hcase] at hkernel
      exact hkernel.elim
    | handler tid t =>
      rw [hcase] at hmode hidle
      obtain ⟨⟨hr, hi⟩, hf⟩ := hmode
      refine ⟨⟨hr, hidle (by simp) (by simp) hi⟩, hf.congr ?_ fun j h1 h2 p hp => ?_⟩
      · exact ((h.spaces.reach.store mem htable).2 _ hr).2
      · exact hmem p (.inr (.inr ⟨tid, t, hcase, j, h1, h2, hp⟩))

/-! ### New threads -/

lemma rootOf_satpOf {r : ℕ} (h : r < endPpn) : rootOf (BitVec.ofNat 64 (satpOf r)) = r := by
  have h' : r < 2 ^ 44 := lt_trans h (by decide)
  have hor : satpOf r = r + 8 * 2 ^ 60 := by
    rw [satpOf, Nat.or_comm, show 8 * 2 ^ 60 = 2 ^ 63 * 1 by norm_num,
      ← Nat.two_pow_add_eq_or_of_lt (lt_trans h' (by norm_num))]
    omega
  rw [rootOf, BitVec.toNat_ofNat, hor]
  omega

lemma Reach.root_lt {m : Machine} {roots : List ℕ} (h : Reach L m roots) {r : ℕ} (hr : r ∈ roots) :
    r < endPpn := by
  obtain ⟨owner, ho, hroots⟩ := h.inv
  exact (ho.used _ _ (hroots r hr).1).2

/-- The words of a built context lie on its stack. -/
lemma storeContext_of_not_mem {a x : ℕ} {tc : Exec.ThreadContext}
    (h : x < a ∨ a + sizeofThreadContext ≤ x) : Exec.storeContext mem a tc x = mem x := by
  simp only [sizeofThreadContext] at h
  simp only [Exec.storeContext]
  rw [Bytes.storeLE_of_not_mem (by omega), Bytes.storeLE_of_not_mem (by omega),
    Bytes.storeArray_of_not_mem (by omega), Bytes.storeArray_of_not_mem (by omega),
    Bytes.storeLE_of_not_mem (by omega), Bytes.storeLE_of_not_mem (by omega)]

lemma storeContext_satp {a : ℕ} {tc : Exec.ThreadContext} :
    Bytes.loadLE 8 (Exec.storeContext mem a tc) (a + 8) = tc.satp % 2 ^ 64 := by
  simp only [Exec.storeContext]
  rw [Bytes.loadLE_storeLE_of_disjoint (by omega), Bytes.loadLE_storeLE_of_disjoint (by omega),
    show 2 ^ 64 = 256 ^ 8 by norm_num,
    ← Bytes.loadLE_storeLE_same 8 (Bytes.storeLE 8 mem a tc.ra) (a + 8) tc.satp]
  refine Bytes.loadLE_congr fun x h1 h2 => ?_
  rw [Bytes.storeArray_of_not_mem (by omega), Bytes.storeArray_of_not_mem (by omega)]

/-- What a new thread changes: bytes in frames that were free, and on its stack. -/
structure Creates (K : Image L) (s : Cpu) (kstack : ℕ) (s' : Cpu) : Prop where
  reach : Reach L s'.m s'.roots
  roots : ∀ r ∈ s.roots, r ∈ s'.roots ∧ (∀ v, leafAt s'.m.mem r v = leafAt s.m.mem r v) ∧
    ∀ grants, access grants r s'.m.mem = access grants r s.m.mem
  own : ∀ r ∈ s.roots, ∀ va p, userPlace r s.m.mem va = some p → s'.m.mem p = s.m.mem p
  kernel : ∀ p < L.kernelEnd, (p < kstack ∨ kstack + kernelStackSize ≤ p) → s'.m.mem p = s.m.mem p

/-- The words that `newUserThread` stores lie on the new stack; the tables stay. -/
lemma newUserThread_keeps (e : Exec.Surroundings) (tid data : ℕ) {m : Machine} {root' kstack : ℕ}
    (hreach : Reach L m (root' :: s.roots)) (hstack : FreshStack K s kstack) :
    let s' := s.newUserThread e m data root' kstack tid
    (∀ x, x < kstack + kernelStackSize - sizeofThreadContext ∨ kstack + kernelStackSize ≤ x →
      s'.m.mem x = m.mem x) ∧
    Reach L s'.m s'.roots ∧ ∀ r ∈ root' :: s.roots, (∀ v, leafAt s'.m.mem r v = leafAt m.mem r v) ∧
      ∀ grants, access grants r s'.m.mem = access grants r m.mem := by
  intro s'
  have hend := hstack.le_end
  have hout : ∀ x, x < kstack + kernelStackSize - sizeofThreadContext ∨
    kstack + kernelStackSize ≤ x →
      s'.m.mem x = m.mem x := by
    intro x hx
    refine storeContext_of_not_mem (hx.imp_right fun h => ?_)
    simp only [kernelStackSize, sizeofThreadContext] at h ⊢
    omega
  refine ⟨hout, hreach.store s'.m.mem fun x hx => hout x (.inr ?_)⟩
  have := inTable_kernelEnd hreach hx
  omega

lemma FreshStack.addr {kstack : ℕ} (h : FreshStack K s kstack) (root : ℕ) :
    (builtContext kstack root).addr.toNat = kstack + kernelStackSize - sizeofThreadContext := by
  have hend := h.le_end
  have hbounds := L.bounds
  rw [builtContext]
  dsimp only
  rw [BitVec.toNat_ofNat, Nat.mod_eq_of_lt (by omega)]

lemma newUserThread_creates (e : Exec.Surroundings) (tid : ℕ) (h : Reach L s.m s.roots)
    {m : Machine} {data root' kstack : ℕ} (hmap : newUserThreadMapping L s.m data = .ok (root', m))
    (hstack : FreshStack K s kstack) :
    Creates K s kstack (s.newUserThread e m data root' kstack tid) ∧
      BuiltHeld K (s.newUserThread e m data root' kstack tid) (builtContext kstack root') := by
  obtain ⟨hreach, hkeep, hown, hkernel⟩ := h.newThread hmap
  obtain ⟨hout, hreach', hkeep'⟩ :=
    newUserThread_keeps e tid data hreach hstack
  have hend := hstack.le_end
  have hdata := hstack.data_le
  have haddr := hstack.addr root'
  set a := kstack + kernelStackSize - sizeofThreadContext with ha
  set s' := s.newUserThread e m data root' kstack tid with hs'
  obtain ⟨tc, htc, hmem⟩ : ∃ tc : Exec.ThreadContext, tc.satp = satpOf root' ∧
      s'.m.mem = Exec.storeContext m.mem a tc := ⟨_, rfl, rfl⟩
  simp only [kernelStackSize, sizeofThreadContext] at ha hend
  refine ⟨⟨hreach', fun r hr => ⟨List.mem_cons_of_mem _ hr, fun v => ?_, fun grants => ?_⟩, ?_, ?_⟩,
    ⟨?_, ?_, ?_, ?_, ?_⟩, ?_, ?_⟩
  · rw [(hkeep' r (List.mem_cons_of_mem _ hr)).1, (hkeep r hr).1]
  · rw [(hkeep' r (List.mem_cons_of_mem _ hr)).2, (hkeep r hr).2]
  · intro r hr va p hp
    have := (h.userPlace_apart hr hp).1
    rw [hout p (.inr (by simp only [kernelStackSize]; omega)), hown r hr va p hp]
  · intro p hp hp'
    rw [hout p (by simp only [kernelStackSize] at hp' ⊢; omega), hkernel p hp]
  · rw [haddr]
    omega
  · rw [haddr]
    simp only [builtContext, sizeofThreadContext]
    omega
  · simp only [builtContext, sizeofThreadContext]
    norm_num
  · intro j _
    rw [haddr]
    rfl
  · rw [haddr, hmem, storeContext_satp, htc]
    exact (BitVec.toNat_ofNat _ _).symm
  · rw [show (builtContext kstack root').satp = BitVec.ofNat 64 (satpOf root') from rfl,
      rootOf_satpOf (Reach.root_lt hreach List.mem_cons_self)]
    exact List.mem_cons_self
  · rw [haddr]
    have := hstack.apart
    simp only [builtContext, kernelStackSize, sizeofThreadContext] at this ⊢
    omega

/-- The bytes of a saved context are not on a new stack. -/
lemma Creates.context {kstack : ℕ} (hc : Creates K s kstack s') (hstack : FreshStack K s kstack)
    (hk : KernelContext L s.m.mem c) (hheld : s.Holds c) :
    ∀ p, c.addr.toNat ≤ p → p < c.addr.toNat + c.size → s'.m.mem p = s.m.mem p := by
  intro p h1 h2
  refine hc.kernel p (h2.trans_le hk.le_end) ?_
  by_contra hin
  push Not at hin
  exact hstack.fresh p hin.1 hin.2 (hk.guarded hheld h1 h2)

/-- A new thread keeps the invariant. -/
lemma Inv.create (h : Inv K root s) {e : Exec.Surroundings} {m : Machine}
    {data root' kstack tid : ℕ}
    (hcreates : s.mode.Creates) (hmap : newUserThreadMapping L s.m data = .ok (root', m))
    (hstack : FreshStack K s kstack) : Inv K root (s.newUserThread e m data root' kstack tid) := by
  obtain ⟨hc, hbuilt⟩ := newUserThread_creates e tid h.spaces.reach hmap hstack
  set s' := s.newUserThread e m data root' kstack tid with hs'
  have hthreads : s'.threads = Function.update s.threads tid (some (builtContext kstack root')) :=
    rfl
  have hplace : ∀ r ∈ s.roots, userPlace r s'.m.mem = userPlace r s.m.mem :=
    fun r hr => (hc.roots r hr).2.2 _
  refine ⟨⟨hc.reach, (hc.roots root h.spaces.mem_roots).1, ?_, ?_, ?_⟩, ?_⟩
  · intro va hva
    rw [(hc.roots root h.spaces.mem_roots).2.1]
    exact h.spaces.kernel va hva
  · intro tid' c hthread hleft
    rw [hthreads, Function.update_apply] at hthread
    split_ifs at hthread
    · rw [← Option.some.inj hthread]
      exact hbuilt
    · obtain ⟨hk, hr, hapart⟩ := h.spaces.built tid' c hthread hleft
      exact ⟨hk.congr (hc.context hstack hk (.inr ⟨tid', hthread⟩)), (hc.roots _ hr).1, hapart⟩
  · intro tid' c hthread hleft
    rw [hthreads, Function.update_apply] at hthread
    split_ifs at hthread
    · rw [← Option.some.inj hthread] at hleft
      exact absurd rfl hleft
    · obtain ⟨r, hr, p, hp, hplace'⟩ := h.spaces.left tid' c hthread hleft
      exact ⟨r, (hc.roots r hr).1, p, by rwa [hplace r hr], hplace'⟩
  · have hmode := h.mode
    rw [show s'.mode = s.mode from rfl]
    cases hcase : s.mode with
    | boot =>
      rw [hcase] at hmode
      exact hmode
    | handler tid' t =>
      rw [hcase] at hmode
      obtain ⟨⟨hr, hi⟩, hf⟩ := hmode
      refine ⟨⟨(hc.roots _ hr).1, hi.setMem rfl (hc.context hstack hi.kernel ?_)⟩, ?_⟩
      · exact .inl ⟨rfl, by simp [hcase], by simp [hcase]⟩
      · refine hf.congr (hc.roots _ hr).2.2 fun j h1 h2 p hp => ?_
        obtain ⟨q, hq⟩ := hf.own (t.frame.toNat + j) ⟨by omega, by omega⟩
        rw [h.spaces.reach.readPlace_of_userPlace hr hq, Option.some.injEq] at hp
        exact hc.own _ hr _ p (hp ▸ hq)
    | idle =>
      rw [hcase] at hcreates
      exact hcreates.elim
    | launch tid' =>
      rw [hcase] at hcreates
      exact hcreates.elim
    | user tid' =>
      rw [hcase] at hcreates
      exact hcreates.elim

/-! ### Switches -/

lemma contextAddr_toNat (h : 8 * 14 ≤ (s.x 2).toNat) :
    s.contextAddr.toNat = (s.x 2).toNat - 8 * 14 := by
  have hle : (8 * 14 : BitVec 64) ≤ s.x 2 := by
    rw [BitVec.le_def]
    exact h
  rw [Cpu.contextAddr, BitVec.toNat_sub_of_le hle]
  rfl

/-- Behind the words of a context. -/
lemma toNat_add_context {a : BitVec 64} (h : a.toNat + 8 * 14 < 2 ^ 64) :
    (a + 8 * 14).toNat = a.toNat + 8 * 14 := by
  have h14 : (8 * 14 : BitVec 64).toNat = 8 * 14 := rfl
  rw [BitVec.toNat_add, h14, Nat.mod_eq_of_lt h]

/-- What idle saves on its stack. -/
lemma Inv.saveIdle (h : Inv K root s) (hmode : s.mode = .idle) :
    K.idleStack ≤ s.contextAddr.toNat ∧
    s.contextAddr.toNat + 8 * 14 ≤ K.idleStack + kernelStackSize ∧ ∃ mem, s.saveContext = some mem ∧
      (∀ p, p < K.idleStack ∨ K.idleStack + kernelStackSize ≤ p → mem p = s.m.mem p) ∧
      Bytes.loadLE 8 mem (s.contextAddr.toNat + 8) = s.satp.toNat := by
  obtain ⟨hroot, hbottom, htop⟩ := h.held hmode
  have hdata := K.data_le
  have hend := K.le_end
  have haddr := contextAddr_toNat (s := s) (by omega)
  have hr : rootOf s.satp ∈ s.roots := hroot ▸ h.spaces.mem_roots
  obtain ⟨mem, hsave, hout, hword⟩ :=
    saveContext_kernel h.spaces.reach hr (by omega) (by omega)
  refine ⟨by omega, by omega, mem, hsave, fun p hp => hout p ?_, hword⟩
  simp only [span, Set.mem_Ico]
  omega

/-- The state when idle has saved its context. -/
lemma Inv.idleSaved (h : Inv K root s) (hmode : s.mode = .idle) (hsave : s.saveContext = some mem) :
    SpacesHeld K root { s with m := { s.m with mem } } := by
  obtain ⟨_, _, mem', hsave', hout, _⟩ := h.saveIdle hmode
  obtain rfl := Option.some.inj (hsave'.symm.trans hsave)
  have hend := K.le_end
  refine h.spaces.setMem rfl rfl rfl (fun p hp => hout p (.inr ?_)) ?_
  · have := inTable_kernelEnd h.spaces.reach hp
    omega
  · intro tid c hc hleft p h1 h2
    have := (h.spaces.built tid c hc hleft).apart
    exact hout p (by omega)

/-- A thread is reached from idle if and only if its context was built. -/
theorem Inv.dispatch_reaches (h : Inv K root s) (hmode : s.mode = .idle) {tid : ℕ}
    (hc : s.threads tid = some c) :
    (∀ mem, s.saveContext = some mem → s.Reaches mem c) ↔ c.left = none := by
  have hroot : rootOf s.satp = root := (h.held hmode).1
  constructor
  · intro hreaches
    by_contra hleft
    obtain ⟨_, _, mem, hsave, _⟩ := h.saveIdle hmode
    have hspaces := h.idleSaved hmode hsave
    obtain ⟨r, hr, p, hp, hplace⟩ := hspaces.left tid c hc hleft
    obtain ⟨_, hbytes⟩ := hreaches mem hsave
    obtain ⟨p', hplace', hread⟩ := hbytes 8 le_rfl (by norm_num)
    obtain rfl := Option.some.inj (hplace.symm.trans hplace')
    rw [hroot] at hread
    exact hspaces.kernel.readPlace_ne hspaces.reach hspaces.mem_roots hr hp hread
  · intro hleft mem hsave
    have hspaces := h.idleSaved hmode hsave
    exact (hspaces.built tid c hc hleft).kernel.reaches hspaces.reach rfl
      (hroot ▸ hspaces.mem_roots)

/-- A dispatch of a new thread keeps the invariant. -/
lemma Inv.dispatch (h : Inv K root s) {tid : ℕ} (hmode : s.mode = .idle)
    (hc : s.threads tid = some c)
    (hleft : c.left = none) (hsave : s.saveContext = some mem)
    (hload : s.loadContext mem c.addr = some s') :
    Inv K root { s' with
      idle := s.leftBehind (K.idleStack + kernelStackSize - s.contextAddr.toNat) none
      threads := Function.update s.threads tid none
      mode := match c.left with
        | none => .launch tid
        | some t => .handler tid t } := by
  have hspaces := h.idleSaved hmode hsave
  have hreaches := (h.dispatch_reaches hmode hc).mpr hleft mem hsave
  obtain ⟨hbottom, htop, mem', hsave', hout, hword⟩ := h.saveIdle hmode
  obtain rfl := Option.some.inj (hsave'.symm.trans hsave)
  obtain ⟨satp, x, pc, hsatp, rfl⟩ := loadContext_cases hload
  obtain rfl : c.satp = satp := Option.some.inj (hreaches.1.symm.trans hsatp)
  obtain ⟨hroot, _⟩ := h.held hmode
  have hr : rootOf s.satp ∈ s.roots := hroot ▸ h.spaces.mem_roots
  have hdata := K.data_le
  have hend := K.le_end
  refine ⟨⟨hspaces.reach, hspaces.mem_roots, hspaces.kernel, ?_, ?_⟩, ?_⟩
  · intro tid' c' hc' hleft'
    dsimp only at hc'
    rw [Function.update_apply] at hc'
    split_ifs at hc'
    exact ⟨(hspaces.built tid' c' hc' hleft').kernel, (hspaces.built tid' c' hc' hleft').root,
      (hspaces.built tid' c' hc' hleft').apart⟩
  · intro tid' c' hc' hleft'
    dsimp only at hc'
    rw [Function.update_apply] at hc'
    split_ifs at hc'
    exact hspaces.left tid' c' hc' hleft'
  · dsimp only
    rw [hleft]
    refine ⟨(hspaces.built tid c hc hleft).root, ⟨?_, ?_, ?_, ?_, ?_⟩, hroot, hbottom, htop⟩
    · exact hdata.trans hbottom
    · simp only [Cpu.leftBehind]
      omega
    · simp only [Cpu.leftBehind]
      omega
    · intro j hj
      simp only [Cpu.leftBehind] at hj ⊢
      exact (h.spaces.reach.kernelPlace hr (by omega) (by omega)).2
    · exact hword

/-- What a thread saves on its own stack touches its pages only, and idle is reached behind it. -/
lemma Inv.saveThread (h : Inv K root s) {tid : ℕ} {t : Trapped} (hmode : s.mode = .handler tid t)
    (hown : OwnPages (rootOf s.satp) s.m.mem s.contextAddr.toNat 0 (8 * 14))
    (hsave : s.saveContext = some mem) :
    rootOf s.satp ∈ s.roots ∧ Touches s { s with m := { s.m with mem } } ∧
    s.Reaches mem s.idle := by
  obtain ⟨⟨hr, hi⟩, _⟩ := h.held hmode
  obtain ⟨mem', hsave', hmem⟩ := saveContext_own h.spaces.reach hr hown
  obtain rfl := Option.some.inj (hsave'.symm.trans hsave)
  have ht : Touches s { s with m := { s.m with mem := mem' } } := ⟨rfl, hmem, rfl, rfl, rfl⟩
  exact ⟨hr, ht, (ht.idleHeld hi h.spaces.reach hr).kernel.reaches
    (ht.spaces h.spaces hr).reach rfl hr⟩

/-- A switch to idle keeps the invariant; it may leave a context behind. -/
lemma Inv.toIdle (h : Inv K root s) {tid n : ℕ} {t : Trapped} (hmode : s.mode = .handler tid t)
    (hown : OwnPages (rootOf s.satp) s.m.mem s.contextAddr.toNat 0 (8 * 14))
    (hsave : s.saveContext = some mem) (hload : s.loadContext mem s.idle.addr = some s')
    (threads : ℕ → Option Context) (hthreads : ∀ tid' c, threads tid' = some c →
      s.threads tid' = some c ∨ c = s.leftBehind n (some t)) :
    Inv K root { s' with threads, mode := .idle } := by
  obtain ⟨hr, ht, hreaches⟩ := h.saveThread hmode hown hsave
  obtain ⟨satp, x, pc, hsatp, rfl⟩ := loadContext_cases hload
  obtain rfl : s.idle.satp = satp := Option.some.inj (hreaches.1.symm.trans hsatp)
  have hspaces := ht.spaces h.spaces hr
  obtain ⟨⟨_, hi⟩, _⟩ := h.held hmode
  refine ⟨⟨hspaces.reach, hspaces.mem_roots, hspaces.kernel, ?_, ?_⟩, hi.root, ?_⟩
  · intro tid' c hc hleft
    rcases hthreads tid' c hc with hc | rfl
    · exact ⟨(hspaces.built tid' c hc hleft).kernel, (hspaces.built tid' c hc hleft).root,
        (hspaces.built tid' c hc hleft).apart⟩
    · cases hleft
  · intro tid' c hc hleft
    rcases hthreads tid' c hc with hc | rfl
    · exact hspaces.left tid' c hc hleft
    · obtain ⟨p, hp⟩ := hown (s.contextAddr.toNat + 8) ⟨by omega, by omega⟩
      refine ⟨rootOf s.satp, hr, p, ?_, writePlace_of_userPlace hp⟩
      rw [userPlace, access_of_own h.spaces.reach hr ht.mem _ hr]
      exact hp
  · have hbottom := hi.bottom
    have htop := hi.top
    have hend := K.le_end
    have hlt := L.bounds.2.2.2.2.2
    have haddr := toNat_add_context (a := s.idle.addr) (by omega)
    simp only [SpOk, Function.update_self]
    omega

/-! ### Steps and runs -/

/-- Step lemma: a step that meets the condition keeps the invariant. -/
theorem Inv.step (h : Inv K root s) {e : Event} (hmeets : Meets K s e) (hstep : Step K s e s') :
    Inv K root s' := by
  cases hstep with
  | user tid mem x pc hmode hmem =>
    obtain ⟨hr, hi⟩ := h.held hmode
    have ht : Touches s { s with m := { s.m with mem }, x, pc } := ⟨rfl, hmem, rfl, rfl, rfl⟩
    have hnew : ModeHeld K root { s with m := { s.m with mem }, x, pc } (.user tid) :=
      ⟨hr, ht.idleHeld hi h.spaces.reach hr⟩
    exact ⟨ht.spaces h.spaces hr, hmode ▸ hnew⟩
  | trap s₁ tid cause scause stval restore hmode hok =>
    obtain ⟨hr, hi⟩ := h.held hmode
    obtain ⟨s₁, hok₁, ht, hsatp, hmode₁, hf⟩ :=
      trap_spec h.spaces.reach hr hmeets tid cause scause stval restore
    obtain rfl := Option.some.inj (hok₁.symm.trans hok)
    refine ⟨ht.spaces h.spaces hr, ?_⟩
    rw [hmode₁]
    refine ⟨⟨?_, ht.idleHeld hi h.spaces.reach hr⟩, hsatp ▸ hf⟩
    rwa [hsatp, ht.roots]
  | kernel mem x hkernel hmem hsp => exact h.setMem hkernel hmem x fun hidle => hidle ▸ hsp
  | read tid t base ch p hmode hcause hp hcourse =>
    refine h.setMem (by rw [hmode]; trivial) (fun q hq => ?_) s.x fun hidle => ?_
    · rcases eq_or_ne q p with rfl | hne
      · exact absurd hq (hmeets q hp).1
      · exact Function.update_of_ne hne _ _
    · rw [hmode] at hidle
      cases hidle
  | astray s₁ tid t base p hmode hcause hp hcourse => exact absurd hcourse (hmeets p hp).2
  | create e m data root' kstack tid hcreates hthread htid hmap hstack =>
    exact h.create hcreates hmap hstack
  | start x pc hmode hsp =>
    have hheld := h.held hmode
    exact ⟨h.spaces.setMem rfl rfl rfl (fun _ _ => rfl) fun _ _ _ _ _ _ _ => rfl, hheld, hsp⟩
  | dispatch s₁ tid c mem hmode hc hsave hload =>
    exact h.dispatch hmode hc (hmeets c hc) hsave hload
  | launch s₁ tid hmode hok =>
    obtain ⟨hr, hi⟩ := h.held hmode
    obtain ⟨x, pc, sstatus, rfl⟩ := restore_cases hok
    exact ⟨h.spaces.setMem rfl rfl rfl (fun _ _ => rfl) fun _ _ _ _ _ _ _ => rfl, hr,
      hi.setMem rfl fun _ _ _ => rfl⟩
  | out s₁ tid t mem hmode hcause hsave hload =>
    refine h.toIdle (n := (t.x 2 - s.contextAddr).toNat) hmode hmeets hsave hload _
      fun tid' c hc => ?_
    rw [Function.update_apply] at hc
    split_ifs at hc
    · exact .inr (Option.some.inj hc).symm
    · exact .inl hc
  | exit s₁ tid t mem hmode hcause hsave hload =>
    have hthreads : s₁.threads = s.threads := by
      obtain ⟨_, _, _, _, rfl⟩ := loadContext_cases hload
      rfl
    have := h.toIdle (n := 0) hmode hmeets hsave hload s₁.threads fun tid' c hc =>
      .inl (hthreads ▸ hc)
    exact this
  | ret s₁ tid t value hmode hok =>
    obtain ⟨⟨hr, hi⟩, hf⟩ := h.held hmode
    obtain ⟨ht, hsatp, hmode', _⟩ := finish_spec h.spaces.reach hr hf hok
    refine ⟨ht.spaces h.spaces hr, ?_⟩
    rw [hmode']
    refine ⟨?_, ht.idleHeld hi h.spaces.reach hr⟩
    rwa [hsatp, ht.roots]

/-- The invariant holds at boot. -/
lemma Booted.inv (h : Booted L root s) (K : Image L) : Inv K root s := by
  obtain ⟨m, hreach, hmap⟩ := h.tables
  obtain ⟨owner, ho, hroots⟩ := hreach.inv
  have hreach' : Reach L s.m s.roots := h.roots ▸ hreach.kernel hmap
  have hmem : root ∈ s.roots := h.roots ▸ List.mem_cons_self
  refine ⟨⟨hreach', hmem, (ho.mapKernel_leaf hmap).2, ?_, ?_⟩, ?_⟩
  · intro tid c hc
    rw [h.threads] at hc
    cases hc
  · intro tid c hc
    rw [h.threads] at hc
    cases hc
  · rw [h.mode]
    change rootOf s.satp = root
    rw [h.satp, rootOf_satpOf (Reach.root_lt hreach' hmem)]

/-- Run lemma. -/
theorem Inv.run {s₀ : Cpu} (h : Inv K root s₀) (hrun : MeetingRun K s₀ s) : Inv K root s := by
  induction hrun with
  | refl => exact h
  | tail _ hstep ih =>
    obtain ⟨e, hmeets, hstep⟩ := hstep
    exact ih.step hmeets hstep

/-- What the invariant says of a step that meets the condition. -/
lemma Inv.resumes (h : Inv K root s) {e : Event} (hmeets : Meets K s e) : Resumes K s e := by
  cases e with
  | dispatch tid => exact fun hmode c hc => (h.dispatch_reaches hmode hc).mpr (hmeets c hc)
  | out => exact fun tid t hmode mem hsave => (h.saveThread hmode hmeets hsave).2.2
  | exit => exact fun tid t hmode mem hsave => (h.saveThread hmode hmeets hsave).2.2
  | ret value =>
    intro tid t hmode s' hstep
    cases hstep with
    | ret _ tid' t' _ hmode' hok =>
      obtain ⟨rfl, rfl⟩ := Mode.handler.inj (hmode'.symm.trans hmode)
      obtain ⟨⟨hr, _⟩, hf⟩ := h.held hmode
      exact (finish_spec h.spaces.reach hr hf hok).2.2.2
  | user => trivial
  | trap cause => trivial
  | kernel => trivial
  | read base => trivial
  | create tid => trivial
  | start => trivial
  | launch => trivial

end

end Jokerix.Switch
