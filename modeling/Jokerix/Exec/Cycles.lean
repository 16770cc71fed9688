import Jokerix.Exec.Outcome
import Jokerix.Sched.ExecWait
import Jokerix.Vm.FramesTaken

/-!
# Commands one after the other

A thread executes one file after the other and waits for each child to exit. The kernel stack of the
child is freed when it is put back in the pool; the frames of its address space stay allocated.
-/

namespace Jokerix.Exec

/-! ### Commands -/

/-- `sysExec` of the running thread. -/
def sysExec (L : Layout) (e : Surroundings) (st : System) (path : List UInt8) :
    Except Halt System := do
  let (res, st') ← executeCPU L e st path st.kernel.current.tid
  if res then
    let kernel ← yieldCPU st'.kernel (.sysExec st.kernel.nextUid)
    .ok { st' with kernel }
  else .ok st'

/-- None of the events is a call of `sys_exec`. -/
def WithoutExec (es : List Event) : Prop := ∀ res, .syscall (.exec res) ∉ es

/-- A command of the running thread: it does not find its file, or the child that it starts exits
before the thread runs again. Any other thread and the keyboard may come in between. -/
inductive Command (L : Layout) (path : List UInt8) (st : System) : System → Prop
  | notFound {e st'} (hrunning : st.kernel.occupied = true)
      (hres : lookup st.fs st.mem 0 path = 0) (hexec : sysExec L e st path = .ok st') :
      Command L path st st'
  | exits {e st₁ es₁ k₁ k₂ es₂ k₃} (hrunning : st.kernel.occupied = true)
      (hres : lookup st.fs st.mem 0 path ≠ 0) (hexec : sysExec L e st path = .ok st₁)
      (hbefore : WithoutExec es₁) (hrun : run st₁.kernel es₁ = .ok k₁)
      (hchild : k₁.occupied = true ∧ k₁.current.thread.uid = st.kernel.nextUid)
      (hexit : exitFromCPU k₁ = .ok k₂)
      (hafter : WithoutExec es₂) (hrun' : run k₂ es₂ = .ok k₃)
      (hparent : k₃.occupied = true ∧ k₃.current.thread.uid = st.kernel.current.thread.uid) :
      Command L path st { st₁ with kernel := k₃ }

/-- A command, with the states before and after it. -/
structure Cycle where
  before : System
  path : List UInt8
  after : System

/-- The file of the command is found. -/
def Cycle.Found (c : Cycle) : Prop := lookup c.before.fs c.before.mem 0 c.path ≠ 0

instance : DecidablePred Cycle.Found := fun _ => inferInstanceAs (Decidable (_ ≠ _))

/-- Commands one after the other, with other events in between. -/
inductive Session (L : Layout) : System → List Cycle → System → Prop
  | nil {st} : Session L st [] st
  | command {st path st₁ cs st'} (hcommand : Command L path st st₁) (hrest : Session L st₁ cs st') :
      Session L st (⟨st, path, st₁⟩ :: cs) st'
  | between {st es kernel cs st'} (hevents : WithoutExec es) (hrun : run st.kernel es = .ok kernel)
      (hrest : Session L { st with kernel } cs st') : Session L st cs st'

/-- The blocks of the heap and the free frames are the same before and after the command. -/
structure Cycle.Conserves (c : Cycle) : Prop where
  blocks : ∀ blocks, Holds c.after.kernel.heap blocks ↔ Holds c.before.kernel.heap blocks
  frames : freeFrames c.after.sta = freeFrames c.before.sta

section
variable {L : Layout} {e : Surroundings} {st st' st₁ : System} {path : List UInt8} {d s : ℕ}
  {cs : List Cycle} {hostTid : ℤ}

/-! ### What a command does -/

/-- A new thread takes frames. -/
lemma Executed.takes (hx : Executed L e st path hostTid st') (hi : FrameInv d s st.sta) :
    TakesFrames d s st.sta st'.sta ∧ freeFrames st'.sta ≠ freeFrames st.sta := by
  obtain ⟨buf, h, r, t, h', _, _, _, hcreated, _⟩ := hx.steps
  obtain ⟨root, m, _, hmap, _, _, hsta⟩ := hcreated.steps
  have hi : FrameInv d s (⟨r.mem, st.sta⟩ : Machine).sta := hi
  obtain ⟨mem, m₁, hmap, hsta'⟩ := newProgramMapping_cases hmap
  rw [hsta, hsta']
  exact FrameInv.newUserThreadMapping (m := ⟨mem, st.sta⟩) hi hmap

lemma sysExec_of_not_found (hres : lookup st.fs st.mem 0 path = 0)
    (hok : sysExec L e st path = .ok st') :
    st' = { st with kernel := st.kernel.record (.execFailed st.kernel.current.thread.uid) } := by
  rw [sysExec, executeCPU_of_not_found hres] at hok
  exact (Except.ok.inj hok).symm

lemma sysExec_of_found (hres : lookup st.fs st.mem 0 path ≠ 0)
    (hok : sysExec L e st path = .ok st') :
    ∃ st₁, Executed L e st path st.kernel.current.tid st₁ ∧ st'.sta = st₁.sta := by
  rw [sysExec] at hok
  obtain ⟨⟨res, st₁⟩, hexec, hok⟩ := bind_eq_ok hok
  rcases executeCPU_cases hexec with ⟨hzero, _⟩ | ⟨rfl, hx⟩
  · exact absurd hzero hres
  · obtain ⟨kernel, _, hok⟩ := bind_eq_ok hok
    obtain rfl := Except.ok.inj hok
    exact ⟨st₁, hx, rfl⟩

/-- A command that does not find its file conserves everything. -/
lemma Command.conserves (h : Command L path st st') (hres : lookup st.fs st.mem 0 path = 0) :
    Cycle.Conserves ⟨st, path, st'⟩ := by
  cases h with
  | notFound hrunning _ hexec =>
    obtain rfl := sysExec_of_not_found hres hexec
    exact ⟨fun _ => Iff.rfl, rfl⟩
  | exits _ hfound => exact absurd hres hfound

/-- A command that finds its file takes frames. -/
lemma Command.takes (h : Command L path st st') (hi : FrameInv d s st.sta) :
    TakesFrames d s st.sta st'.sta ∧
      (lookup st.fs st.mem 0 path ≠ 0 → freeFrames st'.sta ≠ freeFrames st.sta) := by
  cases h with
  | notFound hrunning hres hexec =>
    obtain rfl := sysExec_of_not_found hres hexec
    exact ⟨.refl hi, fun hfound => absurd hres hfound⟩
  | exits _ hfound hexec =>
    obtain ⟨st₁, hx, hsta⟩ := sysExec_of_found hfound hexec
    obtain ⟨htakes, hne⟩ := hx.takes hi
    rw [hsta]
    exact ⟨htakes, fun _ => hne⟩

/-! ### What a session does -/

/-- Every command in a session was made. -/
lemma Session.command_of_mem (h : Session L st cs st') {c : Cycle} (hc : c ∈ cs) :
    Command L c.path c.before c.after := by
  induction h with
  | nil => cases hc
  | command hcommand _ ih =>
    rcases List.mem_cons.mp hc with rfl | hc
    · exact hcommand
    · exact ih hc
  | between _ _ _ ih => exact ih hc

/-- The allocator is intact before every command. -/
lemma Session.inv_of_mem (h : Session L st cs st') (hi : FrameInv d s st.sta) {c : Cycle}
    (hc : c ∈ cs) : FrameInv d s c.before.sta := by
  induction h with
  | nil => cases hc
  | command hcommand _ ih =>
    rcases List.mem_cons.mp hc with rfl | hc
    · exact hi
    · exact ih (hcommand.takes hi).1.inv hc
  | between _ _ _ ih => exact ih hi hc

/-- Every command that finds its file costs at least one frame. -/
lemma Session.room (h : Session L st cs st') (hi : FrameInv d s st.sta) :
    cs.countP (Cycle.Found ·) + (freeFrames st'.sta).ncard ≤ (freeFrames st.sta).ncard := by
  induction h with
  | nil => simp
  | @command st path st₁ cs st' hcommand _ ih =>
    obtain ⟨htakes, hne⟩ := hcommand.takes hi
    have hrest := ih htakes.inv
    rw [List.countP_cons]
    split_ifs with hfound
    · have hlt := Set.ncard_lt_ncard (htakes.free.ssubset_of_ne (hne (of_decide_eq_true hfound)))
        hi.free_finite
      omega
    · have hle := Set.ncard_le_ncard htakes.free hi.free_finite
      omega
  | between _ _ _ ih => exact ih hi

end

/-! ### A command that completes -/

/-- A thread that goes to sleep is saved in its slot. -/
lemma yieldCPU_sleeps {k : Kernel} (context : Resume) (hocc : k.occupied = true)
    (hmine : (k.threads k.current.tid).occupied = true) :
    ∃ k', yieldCPU k context = .ok k' ∧ k'.occupied = false ∧ k'.rrScheduler = k.rrScheduler ∧
      k'.heap = k.heap ∧ k'.threads = Function.update k.threads k.current.tid
        ⟨.sleeping, (k.threads k.current.tid).tid, true, { k.current.thread with context }⟩ := by
  refine ⟨_, yieldCPU_eq context hocc hmine, rfl, rfl, rfl, ?_⟩
  simp only [hmine]

/-- The running thread occupies its slot, and no other thread is ready. -/
structure Alone (k : Kernel) : Prop where
  running : k.occupied = true
  slot : k.current.tid < maxThread
  mine : (k.threads k.current.tid).occupied = true
  ready : Linked k.rrScheduler []

section
variable {L : Layout} {e : Surroundings} {st st' : System} {path content : List UInt8} {hostTid : ℤ}
  {tid : ℕ} {ready : List ℕ}

/-- The buffer of the file is freed: when the stack of the new thread is freed as well, the blocks
of the heap are the ones from before. -/
lemma Executed.kernel (hx : Executed L e st path hostTid st')
    (hs : Linked st.kernel.rrScheduler ready)
    (hnot : tid ∉ ready) (hslot : allocTid st.kernel.threads = some tid)
    (hsize : 0 < (BitVec.ofNat 32 (readInode st.mem (lookup st.fs st.mem 0 path)).size).toInt) :
    st'.kernel.occupied = st.kernel.occupied ∧ st'.kernel.current = st.kernel.current ∧
      Linked st'.kernel.rrScheduler (ready ++ [tid]) ∧
      ∃ kstack, st'.kernel.threads = Function.update st.kernel.threads tid
        ⟨.ready, (st.kernel.threads tid).tid, true, ⟨.user, kstack, hostTid, st.kernel.nextUid⟩⟩ ∧
        ∀ blocks, Holds st.kernel.heap blocks → Holds (kfree st'.kernel.heap kstack) blocks := by
  obtain ⟨buf, h, r, t, h', k', hbuf, _, hcreated, hpool, hkernel, _⟩ := hx.steps
  obtain ⟨root, m, h₁, _, halloc, hh', _⟩ := hcreated.steps
  obtain ⟨mem', rfl⟩ : ∃ mem', h' = { h₁ with mem := mem' } := ⟨_, hh'⟩
  obtain ⟨s, hs', hpool'⟩ := addToPool_eq
    (k := { st.kernel with heap := kfree { h₁ with mem := mem' } buf }) hs hnot hslot
    { t with wait := hostTid }
  obtain rfl := Except.ok.inj (hpool'.symm.trans hpool)
  rw [hkernel]
  refine ⟨rfl, rfl, hs', t.kstack, ?_, fun blocks hb => ?_⟩
  · change Function.update _ _ _ = _
    rw [hcreated.thread]
  · have hfile := (hb.kalloc hsize hbuf).1
    have hstack := ((hfile.setMem m.mem).kalloc (by decide) halloc).1
    have hfreed := ((hstack.perm (.swap _ _ _)).setMem mem').kfree_cons.1
    exact hfreed.kfree_cons.1

/-- With enough memory the command of a mappable ELF file completes, and the heap has the blocks
that it had before. -/
theorem command_completes (hc : Consistent L st) (hk : Alone st.kernel)
    (hn : FindsFile st path content) (hwf : WellFormedElf content) (hmap : Mappable content)
    (henough : Enough st content) : ∃ st', Command L path st st' ∧
      ∀ blocks, Holds st.kernel.heap blocks → Holds st'.kernel.heap blocks := by
  obtain ⟨tid, hslot⟩ := henough.slot
  obtain ⟨hlt, hfree⟩ := allocTid_spec hslot
  have hne : st.kernel.current.tid ≠ tid := by
    rintro rfl
    rw [hk.mine] at hfree
    cases hfree
  have hsize :
      0 < (BitVec.ofNat 32 (readInode st.mem (lookup st.fs st.mem 0 path)).size).toInt := by
    obtain ⟨b, _, hf⟩ := hn.file
    have hle := hf.length_le
    have hpos : 0 < content.length := lt_of_lt_of_le (by decide) hwf.header
    rw [hn.size hc, toInt_ofNat (by omega)]
    exact_mod_cast hpos
  obtain ⟨st₁, hexec, _⟩ : ∃ st₁, executeCPU L sampleSurroundings st path st.kernel.current.tid =
      .ok (true, st₁) ∧ _ := executeCPU_elf hc hn hwf hmap henough
  rcases executeCPU_cases hexec with ⟨_, hfalse, _⟩ | ⟨_, hx⟩
  · cases hfalse
  obtain ⟨hocc, hcur, hs, kstack, hthreads, hheap⟩ := hx.kernel hk.ready List.not_mem_nil hslot
    hsize
  -- the parent sleeps
  obtain ⟨k₁, hyield, hocc₁, hs₁, hheap₁, hthreads₁⟩ := yieldCPU_sleeps (k := st₁.kernel)
    (.sysExec st.kernel.nextUid) (hocc.trans hk.running) (by
      rw [hthreads, hcur, Function.update_of_ne hne]
      exact hk.mine)
  rw [hcur, hthreads, Function.update_of_ne hne] at hthreads₁
  have hsys : sysExec L sampleSurroundings st path = .ok { st₁ with kernel := k₁ } := by
    rw [sysExec, bind_ok hexec]
    simp only [if_true]
    rw [bind_ok hyield]
  -- the child is dispatched
  have hslot₁ : k₁.threads tid =
      ⟨.ready, (st.kernel.threads tid).tid, true,
        ⟨.user, kstack, st.kernel.current.tid, st.kernel.nextUid⟩⟩ := by
    rw [hthreads₁, Function.update_of_ne hne.symm, Function.update_self]
  obtain ⟨k₂, hdisp, hocc₂, hs₂, hcur₂, hheap₂, hthreads₂, _⟩ := dispatch_user
    (show Linked k₁.rrScheduler [tid] by rw [hs₁]; exact hs) (by rw [hslot₁]; simp)
  rw [hslot₁] at hcur₂ hthreads₂
  have hrun : run k₁ [.dispatch] = .ok k₂ := by simp [run, step, hocc₁, hdisp]
  -- it exits, which wakes the parent
  obtain ⟨k₃, hexit, hocc₃, hs₃, hheap₃, hthreads₃, _⟩ := exitFromCPU_wakes hs₂
    List.not_mem_nil hk.slot
    (by rw [hcur₂]) (by rw [hcur₂]; exact hne)
  have hparent : (k₃.threads st.kernel.current.tid).thread =
      { st.kernel.current.thread with context := .sysExec st.kernel.nextUid } := by
    rw [hthreads₃, Function.update_self, hthreads₂, Function.update_of_ne hne, hthreads₁,
      Function.update_self]
  obtain ⟨k₄, hdisp', hocc₄, _, hcur₄, hheap₄, _⟩ := dispatch_user
    (show Linked k₃.rrScheduler [st.kernel.current.tid] from hs₃) (by rw [hparent]; simp)
  have hrun' : run k₃ [.dispatch] = .ok k₄ := by simp [run, step, hocc₃, hdisp']
  refine ⟨_, .exits hk.running hn.found hsys (by simp [WithoutExec]) hrun ⟨hocc₂, by rw [hcur₂]⟩
    hexit
    (by simp [WithoutExec]) hrun' ⟨hocc₄, by rw [hcur₄, hparent]⟩, fun blocks hb => ?_⟩
  change Holds k₄.heap blocks
  rw [hheap₄, hheap₃, hcur₂, hthreads₂, Function.update_self, hheap₂, hheap₁]
  exact hheap blocks hb

end

/-- The small system, with a thread that runs in slot `1`. -/
def commandSystem (image : Bytes.Memory) (sta : FrameTree) : System :=
  let st := sampleSystem image sta
  let thread : Thread := ⟨.user, 0, -1, 0⟩
  { st with kernel := { st.kernel with
    threads := Function.update st.kernel.threads 1 ⟨.running, 1, true, thread⟩
    current := ⟨1, thread⟩
    occupied := true
    nextUid := 1 } }

/-- It runs a command that finds its file. -/
lemma commandSystem_completes : ∃ st st' d, FrameInv d execLayout.startPpn st.sta ∧
    Command execLayout letterA.bytes st st' ∧ Cycle.Found ⟨st, letterA.bytes, st'⟩ := by
  obtain ⟨p, _, hp⟩ := mksfs_elfDir
  obtain ⟨sta, hc, hroom⟩ := execLayout_start p.image
  have hc' : Consistent execLayout (commandSystem p.image sta) :=
    ⟨hc.image, hc.heap, hc.blocks, hc.frames, [], LinkedRing.Ring.nil rfl rfl, by simp⟩
  have himage := sampleSystem_image p.image sta
  have hplace : elfDir.place [letterA.bytes] = some (1, .file (oneByteElf 0x10000)) := rfl
  have hn : FindsFile (commandSystem p.image sta) letterA.bytes (oneByteElf 0x10000) :=
    findsFile_of_packed hp elfDir_proper ⟨himage.fs, himage.image⟩ hplace (.inl rfl)
  have henough := enough_oneByteElf hroom
  have henough' : Enough (commandSystem p.image sta) (oneByteElf 0x10000) :=
    ⟨henough.heap, henough.frames, 0, allocTid_free rfl⟩
  obtain ⟨_, hreach⟩ := hc.frames
  obtain ⟨_, ho, _⟩ := hreach.inv
  obtain ⟨d, hi⟩ := ho.inv
  obtain ⟨st', hcommand, _⟩ := command_completes hc'
    ⟨rfl, show 1 < maxThread by decide, rfl, LinkedRing.Ring.nil rfl rfl⟩ hn wellFormed_oneByteElf
    mappable_oneByteElf henough'
  exact ⟨commandSystem p.image sta, st', d, hi, hcommand, hn.found⟩

/-- In every session the heap and the frames are conserved by every command exactly when no command
finds its file; each one that does costs a frame that is never free again. -/
theorem commands_conserve_iff (L : Layout) (st st' : System) (cs : List Cycle) (d : ℕ)
    (hi : FrameInv d L.startPpn st.sta) (h : Session L st cs st') :
    ((∀ c ∈ cs, c.Conserves) ↔ ∀ c ∈ cs, ¬ c.Found) ∧
      cs.countP (Cycle.Found ·) + (freeFrames st'.sta).ncard ≤ (freeFrames st.sta).ncard := by
  refine ⟨⟨fun hcons c hc hfound => ?_, fun hnone c hc => ?_⟩, h.room hi⟩
  · have htakes := (h.command_of_mem hc).takes (h.inv_of_mem hi hc)
    exact htakes.2 hfound (hcons c hc).frames
  · exact (h.command_of_mem hc).conserves (not_not.mp (hnone c hc))

theorem commands_conserve_one : ∃ st st' d, FrameInv d execLayout.startPpn st.sta ∧
    Session execLayout st [⟨st, letterA.bytes, st'⟩] st' ∧
    ((∀ c ∈ [(⟨st, letterA.bytes, st'⟩ : Cycle)], c.Conserves) ↔
      ∀ c ∈ [(⟨st, letterA.bytes, st'⟩ : Cycle)], ¬ c.Found) ∧
    [(⟨st, letterA.bytes, st'⟩ : Cycle)].countP (Cycle.Found ·) + (freeFrames st'.sta).ncard ≤
      (freeFrames st.sta).ncard := by
  obtain ⟨st, st', d, hi, hcommand, _⟩ := commandSystem_completes
  have h : Session execLayout st [⟨st, letterA.bytes, st'⟩] st' := .command hcommand .nil
  exact ⟨st, st', d, hi, h, commands_conserve_iff execLayout st st' _ d hi h⟩

/-- A program with one segment of one byte does not give its frames back. -/
theorem oneByteElf_keeps_frames : ∃ st st', Command execLayout letterA.bytes st st' ∧
    ¬ Cycle.Conserves ⟨st, letterA.bytes, st'⟩ := by
  obtain ⟨st, st', d, hi, hcommand, hfound⟩ := commandSystem_completes
  exact ⟨st, st', hcommand, fun hcons => (hcommand.takes hi).2 hfound hcons.frames⟩

end Jokerix.Exec
