import Jokerix.Trap.SwitchRuns

/-!
# Preempted threads

A new thread is dispatched, launched and preempted by the timer. Every step meets the condition, and
the thread is not reached again.
-/

namespace Jokerix.Switch

open Exec (satpOf)

section
variable {L : Layout} {K : Image L} {s s' : Cpu} {root tid : ℕ} {mem : Bytes.Memory} {c : Context}

/-! ### Loads from the data of the kernel -/

lemma ld_kernel {m : Machine} {roots : List ℕ} {satp : BitVec 64} {a : ℕ} (h : Reach L m roots)
    (hr : rootOf satp ∈ roots) (h1 : L.dataStart ≤ a) (h2 : a + 8 ≤ L.kernelEnd) :
    ld satp m.mem a = some (BitVec.ofNat 64 (Bytes.loadLE 8 m.mem a)) := by
  have hplace : ∀ x, a ≤ x → x < a + 8 → readPlace (rootOf satp) m.mem x = some (id x) :=
    fun x hx hx' => (h.kernelPlace hr (by omega) (by omega)).1
  exact ld_eq hplace

lemma ldRegs_some (satp : BitVec 64) {a : ℕ} {l : List (ℕ × ℕ)}
    (h : ∀ ik ∈ l, ∃ v, ld satp mem (a + 8 * ik.2) = some v) (x : Regs) :
    ∃ x', ldRegs satp mem a l x = some x' := by
  induction l generalizing x with
  | nil => exact ⟨x, rfl⟩
  | cons ik l ih =>
    obtain ⟨v, hv⟩ := h ik List.mem_cons_self
    rw [ldRegs, hv, Option.bind_some]
    exact ih (fun ik' hik' => h ik' (List.mem_cons_of_mem _ hik')) _

lemma switchRegs_lt : ∀ ik ∈ switchRegs, ik.2 < 14 := by decide

/-- A switch to a context in the data of the kernel goes through. -/
lemma KernelContext.load (h : KernelContext L mem c) (htop : c.addr.toNat + 8 * 14 ≤ L.kernelEnd)
    (hreach : Reach L { s.m with mem } s.roots) (hr : rootOf s.satp ∈ s.roots)
    (hr' : rootOf c.satp ∈ s.roots) :
    ∃ x pc, s.loadContext mem c.addr = some { s with
      m := { s.m with mem }, x := Function.update x 2 (c.addr + 8 * 14), pc, satp := c.satp } := by
  have hdata := h.data_le
  have hsatp : ld s.satp mem (c.addr.toNat + 8 * 1) = some c.satp := (h.reaches hreach rfl hr).1
  obtain ⟨x, hx⟩ := ldRegs_some c.satp (a := c.addr.toNat) (l := switchRegs)
    (fun ik hik => by
      have := switchRegs_lt ik hik
      exact ⟨_, ld_kernel hreach hr' (by omega) (by omega)⟩) (Function.update s.x 27 c.satp)
  refine ⟨x, x 1, ?_⟩
  rw [Cpu.loadContext, hsatp, Option.bind_some, hx, Option.map_some]

/-! ### The first dispatch -/

/-- The program with this `satp` may store to its stack. -/
def HasStack (s : Cpu) (satp : BitVec 64) : Prop :=
  ∀ va, userStackOffset ≤ va → va < userStackOffset + userStackSize →
    ∃ p, userPlace (rootOf satp) s.m.mem va = some p

/-- A trap frame in the data of the kernel that leads to U-mode. -/
structure KernelFrame (L : Layout) (mem : Bytes.Memory) (sp : ℕ) : Prop where
  data_le : L.dataStart ≤ sp
  le_end : sp + 34 * 8 ≤ L.kernelEnd
  user : sretPriv (BitVec.ofNat 64 (Bytes.loadLE 8 mem (sp + 8 * 32))) = .user

/-- A context that was built is dispatched. -/
lemma Inv.dispatch_ok (h : Inv K root s) (hmode : s.mode = .idle) (hc : s.threads tid = some c)
    (hleft : c.left = none) (hsize : c.size = sizeofThreadContext) (hstack : HasStack s c.satp)
    (hframe : KernelFrame L s.m.mem (c.addr.toNat + 8 * 14)) :
    ∃ s', Meets K s (.dispatch tid) ∧ Step K s (.dispatch tid) s' ∧ s'.mode = .launch tid ∧
      HasStack s' s'.satp ∧ KernelFrame L s'.m.mem (s'.x 2).toNat := by
  have hmeets : Meets K s (.dispatch tid) := by
    intro c' hc'
    rw [hc, Option.some.injEq] at hc'
    rwa [← hc']
  obtain ⟨hbottom, htop, mem, hsave, hout, _⟩ := h.saveIdle hmode
  have hspaces := h.idleSaved hmode hsave
  obtain ⟨hk, hr, hapart⟩ := hspaces.built tid c hc hleft
  have hroot := h.held hmode
  have hend := hk.le_end
  rw [hsize] at hend hapart
  simp only [sizeofThreadContext] at hend hapart
  obtain ⟨x, pc, hload⟩ :=
    hk.load (s := s) (by omega) hspaces.reach (hroot.1 ▸ hspaces.mem_roots) hr
  refine ⟨_, hmeets, .dispatch s _ tid c mem hmode hc hsave hload, ?_, ?_, ?_⟩
  · dsimp only
    rw [hleft]
  · intro va h1 h2
    obtain ⟨p, hp⟩ := hstack va h1 h2
    refine ⟨p, ?_⟩
    have hkeep := (h.spaces.reach.store mem fun p hp => hout p (.inr ?_)).2 _ hr
    · rw [userPlace, hkeep.2]
      exact hp
    · have := inTable_kernelEnd h.spaces.reach hp
      have := K.le_end
      omega
  · have hlt := L.bounds.2.2.2.2.2
    dsimp only
    rw [Function.update_self, toNat_add_context (by omega)]
    refine ⟨hframe.data_le, hframe.le_end, ?_⟩
    rw [Bytes.loadLE_congr fun x h1 h2 => hout x (by omega)]
    exact hframe.user

/-- It is launched. -/
lemma Inv.launch_ok (h : Inv K root s) (hmode : s.mode = .launch tid) (hstack : HasStack s s.satp)
    (hframe : KernelFrame L s.m.mem (s.x 2).toNat) :
    ∃ s', Step K s .launch s' ∧ s'.mode = .user tid ∧ HasStack s' s'.satp := by
  have hheld := h.held hmode
  have hdata := hframe.data_le
  have hend := hframe.le_end
  obtain ⟨x, _, hok⟩ := restore_spec s tid (s.x 2) fun i h1 h2 =>
    ld_kernel h.spaces.reach hheld.1 (by omega) (by omega)
  rw [if_pos hframe.user] at hok
  exact ⟨_, .launch s _ tid hmode hok, rfl, hstack⟩

/-! ### The timer -/

lemma OwnPages.of_stack {a i n : ℕ} (h : HasStack s s.satp) (h1 : userStackOffset ≤ a + i)
    (h2 : a + n ≤ userStackOffset + userStackSize) : OwnPages (rootOf s.satp) s.m.mem a i n :=
  fun x hx => h x (h1.trans hx.1) (hx.2.trans_le h2)

/-- The stack pointer of an empty stack. -/
def stackTop : BitVec 64 := BitVec.ofNat 64 (userStackOffset + userStackSize)

/-- A tick while the stack of the program is empty. -/
lemma Inv.timer_ok (h : Inv K root s) (hmode : s.mode = .user tid) (hsp : s.x 2 = stackTop)
    (hstack : HasStack s s.satp) :
    ∃ s' t, Meets K s (.trap .timer) ∧ Step K s (.trap .timer) s' ∧ s'.mode = .handler tid t ∧
      t.cause = .timer ∧ s'.x 2 = stackTop - 34 * 8 ∧ HasStack s' s'.satp := by
  have hheld := h.held hmode
  have hmeets : Meets K s (.trap .timer) := by
    rw [Meets, hsp]
    exact OwnPages.of_stack hstack (by decide) (by decide)
  obtain ⟨mem, hok, hmem, _⟩ := interrupt_spec tid h.spaces.reach hheld.1 hmeets .timer 0 0 0
  refine ⟨_, _, hmeets, .trap s _ tid .timer 0 0 0 hmode hok, rfl, rfl, ?_, ?_⟩
  · rw [← hsp]
    rfl
  · intro va h1 h2
    obtain ⟨p, hp⟩ := hstack va h1 h2
    refine ⟨p, ?_⟩
    rw [userPlace, access_of_own h.spaces.reach hheld.1 hmem _ hheld.1]
    exact hp

/-- The handler switches to idle. -/
lemma Inv.out_ok (h : Inv K root s) {t : Trapped} (hmode : s.mode = .handler tid t)
    (hcause : t.cause ≠ .external)
    (hown : OwnPages (rootOf s.satp) s.m.mem s.contextAddr.toNat 0 (8 * 14)) :
    ∃ s', Step K s .out s' ∧ s'.mode = .idle ∧ ∃ c, s'.threads tid = some c ∧ c.left ≠ none := by
  obtain ⟨⟨hr, hi⟩, _⟩ := h.held hmode
  obtain ⟨mem, hsave, _⟩ := saveContext_own h.spaces.reach hr hown
  obtain ⟨_, ht, _⟩ := h.saveThread hmode hown hsave
  have hkernel : KernelContext L mem s.idle := (ht.idleHeld hi h.spaces.reach hr).kernel
  have hspaces := ht.spaces h.spaces hr
  have htop := hi.top
  have hend := K.le_end
  obtain ⟨x, pc, hload⟩ := hkernel.load (s := s) (by omega) hspaces.reach hr
    (hi.root ▸ hspaces.mem_roots)
  refine ⟨_, .out s _ tid t mem hmode hcause hsave hload, rfl, _, Function.update_self _ _ _, ?_⟩
  simp [Cpu.leftBehind]

/-- A thread that was created comes to run, and is preempted. -/
theorem Inv.preempt (h : Inv K root s) (hmode : s.mode = .idle) (hc : s.threads tid = some c)
    (hleft : c.left = none) (hsize : c.size = sizeofThreadContext) (hstack : HasStack s c.satp)
    (hframe : KernelFrame L s.m.mem (c.addr.toNat + 8 * 14)) :
    ∃ s', MeetingRun K s s' ∧ s'.mode = .idle ∧ ∃ c, s'.threads tid = some c ∧ c.left ≠ none := by
  obtain ⟨s₁, hmeets₁, hstep₁, hmode₁, hstack₁, hframe₁⟩ :=
    h.dispatch_ok hmode hc hleft hsize hstack hframe
  have h₁ := h.step hmeets₁ hstep₁
  obtain ⟨s₂, hstep₂, hmode₂, hstack₂⟩ := h₁.launch_ok hmode₁ hstack₁ hframe₁
  have h₂ := h₁.step (e := .launch) trivial hstep₂
  -- the program sets its stack pointer
  have hstep₃ := Step.user (K := K) s₂ tid s₂.m.mem (fun _ => stackTop) 0 hmode₂
    fun p hp => absurd rfl hp
  have h₃ := h₂.step (e := .user) trivial hstep₃
  obtain ⟨s₄, t, hmeets₄, hstep₄, hmode₄, hcause₄, hsp₄, hstack₄⟩ :=
    h₃.timer_ok hmode₂ rfl hstack₂
  have h₄ := h₃.step hmeets₄ hstep₄
  have hown : OwnPages (rootOf s₄.satp) s₄.m.mem s₄.contextAddr.toNat 0 (8 * 14) := by
    rw [Cpu.contextAddr, hsp₄]
    exact OwnPages.of_stack hstack₄ (by decide) (by decide)
  obtain ⟨s₅, hstep₅, hmode₅, hleft₅⟩ := h₄.out_ok hmode₄ (by simp [hcause₄]) hown
  refine ⟨s₅, ?_, hmode₅, hleft₅⟩
  exact .tail (.tail (.tail (.tail (.tail .refl ⟨_, hmeets₁, hstep₁⟩) ⟨.launch, trivial, hstep₂⟩)
    ⟨.user, trivial, hstep₃⟩) ⟨_, hmeets₄, hstep₄⟩) ⟨.out, hown, hstep₅⟩

/-! ### At boot -/

lemma storeContext_sstatus {a : ℕ} {tc : Exec.ThreadContext} :
    Bytes.loadLE 8 (Exec.storeContext mem a tc) (a + 368) = tc.ic.sstatus.toNat := by
  simp only [Exec.storeContext]
  rw [Bytes.loadLE_storeLE_of_disjoint (by omega), Bytes.loadLE_storeLE_same]
  exact Nat.mod_eq_of_lt (lt_of_lt_of_eq tc.ic.sstatus.isLt (by norm_num))

/-- A thread is created at boot, and idle runs. -/
lemma Booted.create_ok {s₀ : Cpu} (h : Booted L root s₀) (tid : ℕ) (e : Exec.Surroundings)
    {m : Machine} {data root' kstack : ℕ} (hmap : newUserThreadMapping L s₀.m data = .ok (root', m))
    (hstack : FreshStack K s₀ kstack) :
    ∃ s c, MeetingRun K s₀ s ∧ s.mode = .idle ∧ s.threads tid = some c ∧ c.left = none ∧
      c.size = sizeofThreadContext ∧ HasStack s c.satp ∧
      KernelFrame L s.m.mem (c.addr.toNat + 8 * 14) := by
  have hreach := (h.inv K).spaces.reach
  have hthread := (hreach.newThread hmap).1
  obtain ⟨_, _, hkeep⟩ := newUserThread_keeps e tid data hthread hstack
  have haddr := hstack.addr root'
  have hdata := hstack.data_le
  have hend := hstack.le_end
  simp only [kernelStackSize, sizeofThreadContext] at haddr hend
  have hcreate : Step K s₀ (.create tid) (s₀.newUserThread e m data root' kstack tid) :=
    .create s₀ e m data root' kstack tid (by rw [h.mode]; trivial) (h.threads tid)
      (by rw [h.mode]; simp [Mode.tid]) hmap hstack
  let sp : BitVec 64 := BitVec.ofNat 64 (K.idleStack + kernelStackSize)
  have hsp : SpOk K sp .idle := by
    have hlt := L.bounds.2.2.2.2.2
    have := K.le_end
    simp only [SpOk, sp, kernelStackSize] at *
    rw [BitVec.toNat_ofNat, Nat.mod_eq_of_lt (by omega)]
    omega
  refine ⟨_, builtContext kstack root', .tail (.tail .refl ⟨.create tid, trivial, hcreate⟩)
    ⟨.start, trivial, .start _ (fun _ => sp) 0 h.mode hsp⟩, rfl, Function.update_self _ _ _, rfl,
    rfl, ?_, ?_, ?_, ?_⟩
  · intro va h1 h2
    obtain ⟨p, hp⟩ := hreach.newThread_stack hmap h1 h2
    refine ⟨p, ?_⟩
    rw [show rootOf (builtContext kstack root').satp = root' from
      rootOf_satpOf (Reach.root_lt hthread List.mem_cons_self)]
    exact (congrFun ((hkeep root' List.mem_cons_self).2 _) va).trans hp
  · omega
  · omega
  · obtain ⟨tc, htc, hmem⟩ : ∃ tc : Exec.ThreadContext,
        tc.ic.sstatus = newUserThreadSstatus e.sstatus ∧
        (s₀.newUserThread e m data root' kstack tid).m.mem =
          Exec.storeContext m.mem (kstack + kernelStackSize - sizeofThreadContext) tc :=
            ⟨_, rfl, rfl⟩
    dsimp only
    rw [hmem, haddr]
    simp only [kernelStackSize, sizeofThreadContext]
    rw [show kstack + 0x80000 - 384 + 8 * 14 + 8 * 32 = kstack + 0x80000 - 384 + 368 by omega,
      storeContext_sstatus, htc, BitVec.ofNat_toNat, BitVec.setWidth_eq, sretPriv,
      hasSpp_newUserThreadSstatus]
    rfl

end

/-- A small image. -/
def sampleImage : Image sampleLayout where
  idleStack := 0xffffffff80400000
  data_le := by decide
  le_end := by decide
  vars := Set.Ico sampleLayout.dataStart sampleLayout.bssStart

/-- It boots, and there is a program. -/
lemma sample_booted : ∃ root s₀ root' m, Booted sampleLayout root s₀ ∧
    newUserThreadMapping sampleLayout s₀.m sampleElf = .ok (root', m) ∧
    FreshStack sampleImage s₀ 0xffffffff80500000 := by
  obtain ⟨sta, hnew, ho, hroom⟩ := sample_start
  have hreach : Reach sampleLayout ⟨sampleMemory, sta⟩ [] :=
    .init (m := ⟨sampleMemory, fun _ => 0, 0, 0, 0⟩) hnew
  obtain ⟨root, m, hmap, hroom₁⟩ := ho.mapKernel_ok sampleLayout (le_trans (by norm_num) hroom)
  obtain ⟨owner, ho₁, hext, _⟩ := ho.mapKernel hmap
  obtain ⟨hload, hframes⟩ := loadable_sample.congr fun x hx => hext.outside x hx
  obtain ⟨root', m', hthread, _⟩ := ho₁.newUserThreadMapping_ok sampleLayout hload (by
    have := loadFrames_sample
    omega)
  let s₀ : Cpu :=
    { m := m
      roots := [root]
      x := fun _ => 0
      pc := 0
      sstatus := 0
      satp := BitVec.ofNat 64 (satpOf root)
      mode := .boot
      idle := ⟨0, 0, fun _ => none, 0, none⟩
      threads := fun _ => none }
  have hreach₁ : Reach sampleLayout m [root] := hreach.kernel hmap
  refine ⟨root, s₀, root', m', ⟨⟨_, hreach, hmap⟩, rfl, rfl, rfl, fun _ => rfl⟩, hthread,
    ?_, ?_, ?_, ?_⟩
  · decide
  · decide
  · rintro p _ hlt (hp | ⟨c, ⟨_, hmode, _⟩ | ⟨tid, hc⟩, _⟩ | ⟨tid, t, hmode, _⟩)
    · have hle := inTable_kernelEnd hreach₁ hp
      have hend : 0xffffffff80500000 + kernelStackSize ≤ sampleLayout.kernelEnd := by decide
      omega
    · exact hmode rfl
    · cases hc
    · cases hmode
  · decide

/-- It runs a thread and preempts it. -/
lemma sample_preempted : ∃ root s₀ s, Booted sampleLayout root s₀ ∧ MeetingRun sampleImage s₀ s ∧
    s.mode = .idle ∧ ∃ c, s.threads 0 = some c ∧ c.left ≠ none := by
  obtain ⟨root, s₀, root', m, hboot, hmap, hstack⟩ := sample_booted
  let e : Exec.Surroundings := ⟨⟨0, 0, fun _ => 0, ⟨fun _ => 0, 0, 0⟩⟩, 0, 0, fun _ => none⟩
  obtain ⟨s₁, c, hrun, hmode, hc, hleft, hsize, hheld, hframe⟩ := hboot.create_ok 0 e hmap hstack
  obtain ⟨s, hrun', hidle, hlost⟩ :=
    ((hboot.inv sampleImage).run hrun).preempt hmode hc hleft hsize hheld hframe
  exact ⟨root, s₀, s, hboot, hrun.trans hrun', hidle, hlost⟩

/-! ### Contexts over runs -/

/-- In every run whose steps all meet the condition, every further step that meets it finds what it
loads: a switch reaches the word that was saved, through a translation that is mapped where it was
stored, and a return restores the registers of the trap. From idle exactly the threads that were not
switched out before are reached. -/
theorem contexts_kept (L : Layout) (K : Image L) (root : ℕ) (s₀ s : Cpu) (hboot : Booted L root s₀)
    (hrun : MeetingRun K s₀ s) :
    (∀ e, Meets K s e → Resumes K s e) ∧
    ∀ tid, s.mode = .idle → (Resumes K s (.dispatch tid) ↔ Meets K s (.dispatch tid)) := by
  have h := (hboot.inv K).run hrun
  refine ⟨fun e hmeets => h.resumes hmeets, fun tid hmode => ⟨?_, fun hmeets => h.resumes hmeets⟩⟩
  intro hresumes c hc
  exact (h.dispatch_reaches hmode hc).mp (hresumes hmode c hc)

/-- In a run up to the first preemption. -/
theorem contexts_kept_preempted : ∃ root s₀ s, Booted sampleLayout root s₀ ∧
    MeetingRun sampleImage s₀ s ∧ s.mode = .idle ∧ (∃ c, s.threads 0 = some c ∧ c.left ≠ none) ∧
    (∀ e, Meets sampleImage s e → Resumes sampleImage s e) ∧
    ∀ tid, s.mode = .idle →
      (Resumes sampleImage s (.dispatch tid) ↔ Meets sampleImage s (.dispatch tid)) := by
  obtain ⟨root, s₀, s, hboot, hrun, hmode, hlost⟩ := sample_preempted
  exact ⟨root, s₀, s, hboot, hrun, hmode, hlost,
    contexts_kept sampleLayout sampleImage root s₀ s hboot hrun⟩

/-- After it the thread is not reached again. -/
theorem not_contextsKept : ∃ root s₀, Booted sampleLayout root s₀ ∧
    ¬ ContextsKept sampleImage s₀ := by
  obtain ⟨root, s₀, s, hboot, hrun, hmode, c, hc, hleft⟩ := sample_preempted
  refine ⟨root, s₀, hboot, fun hkept => hleft ?_⟩
  have hrun' : Relation.ReflTransGen (fun s s' => ∃ e, Step sampleImage s e s') s₀ s :=
    Relation.ReflTransGen.mono (fun _ _ ⟨e, _, hstep⟩ => ⟨e, hstep⟩) _ _ hrun
  have hresumes : Resumes sampleImage s (.dispatch 0) := hkept s hrun' (.dispatch 0)
  exact (((hboot.inv sampleImage).run hrun).dispatch_reaches hmode hc).mp (hresumes hmode c hc)

end Jokerix.Switch
