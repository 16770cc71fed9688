import Jokerix.Sched.Boot

/-!
# What is stored while the system runs

A trap saves the InterruptContext, and the functions of its handler their frames, below the `sp`
that the program has chosen, and `sysRead` stores its character at the pointer it is given. Nothing
checks where these bytes lie. `Globals.Step` adds them to the events of the system. A run in which
they lie elsewhere keeps whatever the events keep.
-/

namespace Jokerix

/-! ### The memory of the kernel -/

/-- The byte lies outside of the heap. -/
def KernelHeap.Outside (h : KernelHeap) (x : ℕ) : Prop :=
  x < h.region.base ∨ h.region.base + kernelHeapSize ≤ x

/-- The memory of the kernel, replaced. -/
def Kernel.setMem (k : Kernel) (mem : Bytes.Memory) : Kernel :=
  { k with heap := { k.heap with mem } }

@[simp] lemma Kernel.setMem_mem (k : Kernel) (mem : Bytes.Memory) :
    (k.setMem mem).heap.mem = mem := rfl

@[simp] lemma Kernel.setMem_self (k : Kernel) : k.setMem k.heap.mem = k := rfl

/-- The memory holds what the heap of the kernel holds. -/
def Kernel.SameHeap (k : Kernel) (mem : Bytes.Memory) : Prop :=
  ∀ x, ¬ k.heap.Outside x → mem x = k.heap.mem x

/-- Where the kernel keeps its state, and what becomes of it when a byte is stored. -/
structure Globals where
  /-- The bytes of the variables and the heap of the kernel, of the page tables and of the frames
  that are free. -/
  vars : Kernel → Set ℕ
  heap_vars {k : Kernel} {x : ℕ} : ¬ k.heap.Outside x → x ∈ vars k
  poke : Kernel → ℕ → UInt8 → Kernel
  poke_eq {k : Kernel} {x : ℕ} (b : UInt8) :
    x ∉ vars k → poke k x b = k.setMem (Function.update k.heap.mem x b)
  vars_eq {k : Kernel} {x : ℕ} (b : UInt8) :
    x ∉ vars k → vars (k.setMem (Function.update k.heap.mem x b)) = vars k

/-! ### Events and what they store -/

/-- An event with the bytes that are stored up to it. Where it interrupts `idleMain` there are none:
the stack of idle lies in the heap. -/
structure Happening where
  event : Event
  /-- What the program stores in its pages, and what the trap saves below the `sp` of the program:
  the registers and `sepc`. -/
  stores : List (ℕ × UInt8)
  /-- What is stored below the `sp` of the program for the kernel to go on with: the saved `sstatus`
  and the frames of the functions of the handler. -/
  frame : List (ℕ × UInt8)

/-- The kernel, with what it finds on the stacks of the programs, by the numbers of the threads. -/
structure SystemState where
  kernel : Kernel
  /-- The pointer that a thread handed to `sysRead`. -/
  base : ℕ → ℕ
  /-- Where the frames of the last trap of a thread lie. -/
  frames : ℕ → List ℕ
  /-- How many ticks interrupted a thread so far; no function reads it. -/
  ticks : ℕ

/-- The kernel before the first dispatch. -/
def SystemState.start (k : Kernel) : SystemState := ⟨k, fun _ => 0, fun _ => [], 0⟩

namespace SystemState

/-- The thread on whose stack an event is handled. -/
def running (s : SystemState) : Event → Option RunningThread
  | .dispatch => if s.kernel.occupied then none else (acquireFromPool s.kernel).1
  | _ => if s.kernel.occupied then some s.kernel.current else none

/-- A trap of the running thread. -/
def trap (s : SystemState) (h : Happening) : SystemState :=
  if s.kernel.occupied then
    let uid := s.kernel.current.thread.uid
    { s with
      base := match h.event with
        | .syscall (.read base) => Function.update s.base uid base
        | _ => s.base
      frames := Function.update s.frames uid (h.frame.map Prod.fst)
      ticks := match h.event with
        | .tick => s.ticks + 1
        | _ => s.ticks }
  else s

/-- The pointer of the `sysRead` that the event begins or goes on with. -/
def pointer (s : SystemState) (e : Event) : Option ℕ :=
  match e, s.running e with
  | .syscall (.read base), some _ => some base
  | .dispatch, some rt => if rt.thread.context = .popChar then some (s.base rt.thread.uid) else none
  | _, _ => none

/-- What `popChar` returns; it waits when the buffer is empty. -/
def nextChar (s : SystemState) : Option UInt8 :=
  if isEmpty s.kernel.buf = false then
    some (UInt8.ofNat (popFront s.kernel.heap s.kernel.buf).1)
  else none

end SystemState

namespace Globals

variable (G : Globals)

def storeAll (k : Kernel) (stores : List (ℕ × UInt8)) : Kernel :=
  stores.foldl (fun k b => G.poke k b.1 b.2) k

/-- The state in which the handler of a trap runs. -/
def trapped (s : SystemState) (h : Happening) : SystemState :=
  { s with kernel := G.storeAll s.kernel (h.stores ++ h.frame) }.trap h

/-- `*base = (uint8)popChar()`, on what the event made of the kernel. -/
def storeChar (s : SystemState) (e : Event) (k : Kernel) : Kernel :=
  match s.pointer e, s.nextChar with
  | some base, some ch => G.poke k base ch
  | _, _ => k

/-- What the kernel goes on with: its own state, and the frames on the stacks of the threads other
than `own`. -/
def kept (s : SystemState) (own : Option RunningThread) : Set ℕ :=
  {x | x ∈ G.vars s.kernel ∨ ∃ t, t < maxThread ∧ (s.kernel.threads t).occupied = true ∧
    (∀ rt ∈ own, rt.thread.uid ≠ (s.kernel.threads t).thread.uid) ∧
      x ∈ s.frames (s.kernel.threads t).thread.uid}

/-- Nothing is stored over what the kernel goes on with: not by the program and its trap, and not by
`sysRead`, which could also overwrite the frames of its own handler. -/
structure Elsewhere (s : SystemState) (h : Happening) : Prop where
  stores : ∀ b ∈ h.stores ++ h.frame, b.1 ∉ G.kept s (s.running h.event)
  char : ∀ k base, step (G.trapped s h).kernel h.event = .ok k →
    (G.trapped s h).pointer h.event = some base → (G.trapped s h).nextChar.isSome →
      base ∉ G.kept { G.trapped s h with kernel := k } none

/-- One event. When something is stored over what the kernel goes on with, anything can happen
too. -/
inductive Step (s : SystemState) (h : Happening) : SystemState → Prop
  | next {k : Kernel} (hok : step (G.trapped s h).kernel h.event = .ok k) :
      Step s h { G.trapped s h with kernel := G.storeChar (G.trapped s h) h.event k }
  | astray (s' : SystemState) (hover : ¬ G.Elsewhere s h) : Step s h s'

/-- A sequence of events. -/
inductive Run : SystemState → List Happening → SystemState → Prop
  | nil (s : SystemState) : Run s [] s
  | cons {s s₁ s' : SystemState} {h : Happening} {hs : List Happening} (hstep : G.Step s h s₁)
      (hrest : Run s₁ hs s') : Run s (h :: hs) s'

/-- In the run no thread for which `root` holds calls `sys_exit`, and everything is stored
elsewhere. -/
def Careful (root : ℕ → Prop) (s : SystemState) : List Happening → Prop
  | [] => True
  | h :: hs =>
    (h.event = .syscall .exit → s.kernel.occupied = true → ¬ root s.kernel.current.thread.uid) ∧
      G.Elsewhere s h ∧ ∀ s', G.Step s h s' → Careful root s' hs

end Globals

/-! ### Stores elsewhere -/

section
variable {G : Globals} {root : ℕ → Prop} {k k' k₀ : Kernel} {s s' : SystemState} {h : Happening}
  {hs : List Happening}

/-- Whether an event is a tick that finds a thread on the processor. -/
def tickTaken (k : Kernel) : Event → ℕ
  | .tick => k.occupied.toNat
  | _ => 0

@[simp] lemma tickTaken_setMem (k : Kernel) (mem : Bytes.Memory) (e : Event) :
    tickTaken (k.setMem mem) e = tickTaken k e := by
  cases e <;> rfl

@[simp] lemma SystemState.trap_kernel (s : SystemState) (h : Happening) :
    (s.trap h).kernel = s.kernel := by
  rw [SystemState.trap]
  split_ifs <;> rfl

lemma SystemState.trap_ticks (s : SystemState) (h : Happening) :
    (s.trap h).ticks = s.ticks + tickTaken s.kernel h.event := by
  rw [trap]
  split_ifs with ho
  · cases h.event <;> simp [tickTaken, ho]
  · cases h.event <;> simp [tickTaken, ho]

lemma SystemState.mem_trap_frames {u x : ℕ} (hx : x ∈ (s.trap h).frames u) :
    x ∈ s.frames u ∨ x ∈ h.frame.map Prod.fst := by
  rw [trap] at hx
  split_ifs at hx
  · rcases eq_or_ne u s.kernel.current.thread.uid with rfl | hu
    · exact .inr (by simpa using hx)
    · exact .inl (by simpa [Function.update_of_ne hu] using hx)
  · exact .inl hx

@[simp] lemma Globals.trapped_kernel (G : Globals) (s : SystemState) (h : Happening) :
    (G.trapped s h).kernel = G.storeAll s.kernel (h.stores ++ h.frame) :=
      SystemState.trap_kernel _ _

lemma Kernel.SameHeap.trans {mem mem' : Bytes.Memory} (hmem : k.SameHeap mem)
    (hmem' : (k.setMem mem).SameHeap mem') : k.SameHeap mem' :=
  fun x hx => (hmem' x hx).trans (hmem x hx)

/-- A byte that is stored elsewhere changes the memory only, and not the heap. -/
lemma Globals.poke_elsewhere {x : ℕ} (b : UInt8) (hx : x ∉ G.vars k) :
    ∃ mem, k.SameHeap mem ∧ G.poke k x b = k.setMem mem ∧ G.vars (k.setMem mem) = G.vars k := by
  refine ⟨_, fun y hy => ?_, G.poke_eq b hx, G.vars_eq b hx⟩
  apply Function.update_of_ne
  rintro rfl
  exact hx (G.heap_vars hy)

lemma Globals.storeAll_elsewhere {stores : List (ℕ × UInt8)}
    (hstores : ∀ b ∈ stores, b.1 ∉ G.vars k) :
    ∃ mem, k.SameHeap mem ∧ G.storeAll k stores = k.setMem mem := by
  induction stores generalizing k with
  | nil => exact ⟨k.heap.mem, fun _ _ => rfl, rfl⟩
  | cons b stores ih =>
    obtain ⟨hb, hstores⟩ := List.forall_mem_cons.mp hstores
    obtain ⟨mem, hsame, hpoke, hvars⟩ := G.poke_elsewhere b.2 hb
    obtain ⟨mem', hsame', hall⟩ := ih (k := k.setMem mem) (by rwa [hvars])
    refine ⟨mem', hsame.trans hsame', ?_⟩
    rw [Globals.storeAll, List.foldl_cons, hpoke]
    exact hall

/-- The queues lie in the heap. -/
lemma HeapSeen.setMem {heap : KernelHeap} {buf waitQueue : Queue} {v : View} {mem : Bytes.Memory}
    (hs : HeapSeen heap buf waitQueue v) (hmem : ∀ x, ¬ heap.Outside x → mem x = heap.mem x) :
    HeapSeen { heap with mem } buf waitQueue v := by
  obtain ⟨slots, rest, hnd, hlive, nodes, nodes', h1, h2, hitems, hwaiters, hh⟩ := hs
  obtain ⟨h1', h2'⟩ := HeapRep.nodes_congr mem h1 h2 (by
    intro b hb i hi1 hi2
    rw [← List.append_assoc] at hh
    obtain ⟨_, hlow, hhigh⟩ := hh.inside (List.mem_append_left _ hb)
    refine hmem i ?_
    rw [KernelHeap.Outside]
    omega)
  exact ⟨slots, rest, hnd, hlive, nodes, nodes', h1', h2', hitems, hwaiters, hh.setMem mem⟩

lemma Sound.setMem {mem : Bytes.Memory} (hk : Sound root k) (hmem : k.SameHeap mem) :
    Sound root (k.setMem mem) := by
  obtain ⟨ready, waiters, buffer, hs, hl, hf, ht, hd⟩ := hk
  exact ⟨ready, waiters, buffer, ⟨hs.linked, hs.heap.setMem hmem⟩, hl, hf, ht, hd⟩

/-- What the kernel does in such a step is the event, but for bytes outside of its heap. -/
lemma Globals.Step.kernel (hstep : G.Step s h s') (helse : G.Elsewhere s h) :
    ∃ mem k mem', s.kernel.SameHeap mem ∧ step (s.kernel.setMem mem) h.event = .ok k ∧
      k.SameHeap mem' ∧ s'.kernel = k.setMem mem' ∧
        s'.ticks = s.ticks + tickTaken s.kernel h.event := by
  cases hstep with
  | astray _ hover => exact absurd helse hover
  | @next k hok =>
    obtain ⟨mem, hsame, hall⟩ := G.storeAll_elsewhere fun b hb hvars =>
      helse.stores b hb (.inl hvars)
    have htrapped : (G.trapped s h).kernel = s.kernel.setMem mem := by
      rw [G.trapped_kernel, hall]
    refine ⟨mem, k, ?_⟩
    rw [← htrapped]
    have hchar : ∃ mem', k.SameHeap mem' ∧
        G.storeChar (G.trapped s h) h.event k = k.setMem mem' := by
      rw [Globals.storeChar]
      split
      · rename_i base ch hbase hch
        obtain ⟨mem', hsame', hpoke, _⟩ := G.poke_elsewhere ch fun hvars =>
          helse.char k base hok hbase (by rw [hch]; rfl) (.inl hvars)
        exact ⟨mem', hsame', hpoke⟩
      · exact ⟨k.heap.mem, fun _ _ => rfl, rfl⟩
    obtain ⟨mem', hsame', hstored⟩ := hchar
    refine ⟨mem', hsame, hok, hsame', hstored, ?_⟩
    change (G.trapped s h).ticks = _
    rw [Globals.trapped, hall, SystemState.trap_ticks, tickTaken_setMem]

/-- Run lemma: what every event keeps is kept by a run in which everything is stored elsewhere. -/
theorem Globals.Run.keeps {P : Kernel → Prop}
    (hmem : ∀ {k : Kernel} {mem : Bytes.Memory}, P k → k.SameHeap mem → P (k.setMem mem))
    (hevent : ∀ {k k' : Kernel} {e : Event}, P k →
      (e = .syscall .exit → k.occupied = true → ¬ root k.current.thread.uid) →
        step k e = .ok k' → P k')
    (hrun : G.Run s hs s') (hcareful : G.Careful root s hs) (hs : P s.kernel) : P s'.kernel := by
  induction hrun with
  | nil => exact hs
  | cons hstep _ ih =>
    obtain ⟨hno, helse, hrest⟩ := hcareful
    obtain ⟨mem, k, mem', hsame, hok, hsame', hs', _⟩ := hstep.kernel helse
    refine ih (hrest _ hstep) ?_
    rw [hs']
    exact hmem (hevent (hmem hs hsame) hno hok) hsame'

/-- The invariants of the scheduler hold in the end. -/
lemma Globals.Run.sound (hrun : G.Run s hs s') (hcareful : G.Careful root s hs)
    (hs : Sound root s.kernel) : Sound root s'.kernel :=
  hrun.keeps (P := Sound root) (fun hk hmem => hk.setMem hmem) (fun hk hno hok => hk.step hno hok)
    hcareful hs

/-- Such a run ends with the kernel `k'`. -/
def Globals.Reaches (G : Globals) (root : ℕ → Prop) (s : SystemState) (hs : List Happening)
    (k' : Kernel) : Prop :=
  ∃ s', s'.kernel = k' ∧ G.Run s hs s' ∧ G.Careful root s hs

/-- A step of which nothing is stored over what the kernel goes on with, before such a run. -/
lemma Globals.reaches_cons (helse : G.Elsewhere s h)
    (hno : h.event = .syscall .exit → s.kernel.occupied = true → ¬ root s.kernel.current.thread.uid)
    (hok : step (G.trapped s h).kernel h.event = .ok k)
    (hrest : G.Reaches root
      { G.trapped s h with kernel := G.storeChar (G.trapped s h) h.event k } hs k') :
    G.Reaches root s (h :: hs) k' := by
  obtain ⟨s', hs', hrun, hcareful⟩ := hrest
  refine ⟨s', hs', .cons (.next hok) hrun, hno, helse, fun s₁ hstep => ?_⟩
  cases hstep with
  | astray _ hover => exact absurd helse hover
  | next hok' =>
    obtain rfl := Except.ok.inj (hok.symm.trans hok')
    exact hcareful

lemma SystemState.nextChar_none (hbuf : isEmpty s.kernel.buf = true) : s.nextChar = none :=
  if_neg (by rw [hbuf]; decide)

lemma Globals.storeChar_none {e : Event} (hbuf : isEmpty s.kernel.buf = true) :
    G.storeChar s e k = k := by
  rw [Globals.storeChar, SystemState.nextChar_none hbuf]
  split
  · rename_i heq
    cases heq
  · rfl

/-- While no character waits the kernel does what the event says. -/
lemma Globals.step_quiet (hstored : G.storeAll s.kernel (h.stores ++ h.frame) = k₀)
    (hbuf : isEmpty k₀.buf = true) (hok : step k₀ h.event = .ok k) :
    G.Step s h { G.trapped s h with kernel := k } := by
  rw [← hstored, ← G.trapped_kernel] at hbuf hok
  have hstep := Step.next hok
  rwa [Globals.storeChar_none hbuf] at hstep

/-- What is stored outside of the variables and of all frames is then stored elsewhere. -/
lemma Globals.reaches_quiet (hstored : G.storeAll s.kernel (h.stores ++ h.frame) = k₀)
    (hbuf : isEmpty k₀.buf = true)
    (hvars : ∀ b ∈ h.stores ++ h.frame, b.1 ∉ G.vars s.kernel ∧ ∀ u, b.1 ∉ s.frames u)
    (hno : h.event = .syscall .exit → s.kernel.occupied = true → ¬ root s.kernel.current.thread.uid)
    (hok : step k₀ h.event = .ok k)
    (hrest : ∀ base frames ticks,
      (∀ u, ∀ x ∈ frames u, x ∈ s.frames u ∨ x ∈ h.frame.map Prod.fst) →
        G.Reaches root ⟨k, base, frames, ticks⟩ hs k') : G.Reaches root s (h :: hs) k' := by
  rw [← hstored, ← G.trapped_kernel] at hbuf hok
  refine Globals.reaches_cons ⟨fun b hb hkept => ?_, fun _ _ _ _ hsome => ?_⟩ hno hok ?_
  · rcases hkept with hb' | ⟨_, _, _, _, hb'⟩
    · exact (hvars b hb).1 hb'
    · exact (hvars b hb).2 _ hb'
  · rw [SystemState.nextChar_none hbuf] at hsome
    cases hsome
  · rw [Globals.storeChar_none hbuf]
    exact hrest _ _ _ fun u x hx => SystemState.mem_trap_frames
      (s := { s with kernel := G.storeAll s.kernel (h.stores ++ h.frame) }) hx

end

/-! ### A small kernel that is stored over -/

/-- Where `CPU.current.thread.wait` lies. -/
def waitPlace : ℕ := 0xffffffff80220000

/-- A byte of an `int`, replaced. -/
def setByte (n : ℤ) (i : ℕ) (b : UInt8) : ℤ :=
  let word := BitVec.ofInt 32 n &&& ~~~(255#32 <<< (8 * i))
  (word ||| BitVec.ofNat 32 b.toNat <<< (8 * i)).toInt

def Kernel.setWait (k : Kernel) (wait : ℤ) : Kernel :=
  { k with current := { k.current with thread := { k.current.thread with wait } } }

/-- Of the variables of the kernel only the `wait` of the running thread is told apart; the runs
below change no other. -/
def sampleGlobals : Globals where
  vars k := {x | ¬ k.heap.Outside x ∨ waitPlace ≤ x ∧ x < waitPlace + 4}
  heap_vars hx := .inl hx
  poke k x b :=
    if waitPlace ≤ x ∧ x < waitPlace + 4 then
      k.setWait (setByte k.current.thread.wait (x - waitPlace) b)
    else k.setMem (Function.update k.heap.mem x b)
  poke_eq _ hx := if_neg fun h => hx (.inr h)
  vars_eq _ _ := rfl

/-- Bytes stored over `wait`. -/
lemma sampleGlobals_storeAll {k : Kernel} {bytes : List (ℕ × UInt8)}
    (hbytes : ∀ b ∈ bytes, b.1 < 4) :
    sampleGlobals.storeAll k (bytes.map fun b => (waitPlace + b.1, b.2)) =
      k.setWait (bytes.foldl (fun n b => setByte n b.1 b.2) k.current.thread.wait) := by
  induction bytes generalizing k with
  | nil => rfl
  | cons b bytes ih =>
    obtain ⟨hb, hbytes⟩ := List.forall_mem_cons.mp hbytes
    have hpoke : sampleGlobals.poke k (waitPlace + b.1) b.2 =
        k.setWait (setByte k.current.thread.wait b.1 b.2) := by
      simp only [sampleGlobals]
      rw [if_pos ⟨by omega, by omega⟩, Nat.add_sub_cancel_left]
    rw [List.map_cons, Globals.storeAll, List.foldl_cons, hpoke]
    exact ih hbytes

/-- The thread with the number `t` runs in slot `t`, its parent has slot `p`, and the threads before
it are alive and not ready. -/
structure ChildRuns (k : Kernel) (t p : ℕ) : Prop where
  ready : Linked k.rrScheduler []
  running : k.occupied = true
  tid : k.current.tid = t
  uid : k.current.thread.uid = t
  wait : k.current.thread.wait = p
  slots : ∀ i ≤ t, (k.threads i).occupied = true ∧ (k.threads i).thread.uid = i
  free : ∀ i, t < i → (k.threads i).occupied = false
  nextUid : k.nextUid = t + 1
  buf : isEmpty k.buf = true
  region : k.heap.region = sampleHeap.region
  heap : ∃ blocks, Holds k.heap blocks ∧ Roomy (t + 2) blocks

section
variable {k : Kernel} {t p : ℕ}

/-- The thread executes a program, which is dispatched. -/
lemma ChildRuns.exec (h : ChildRuns k t p) (ht : t < 5) :
    ∃ k₁ k₂, step k (.syscall (.exec (some sampleProgram))) = .ok k₁ ∧ isEmpty k₁.buf = true ∧
      step k₁ .dispatch = .ok k₂ ∧ ChildRuns k₂ (t + 1) t ∧
      k₂.log = k.log ++ [.pushed (t + 1), .execOk t (t + 1), .dispatched (t + 1)] := by
  obtain ⟨blocks, hh, hroom⟩ := h.heap
  have hlt : t + 1 < maxThread := lt_of_lt_of_le (show t + 1 < 6 by omega) (by decide)
  have hne : k.current.tid ≠ t + 1 := by rw [h.tid]; omega
  obtain ⟨k₁, hexec, hready, hocc, hbuf, hnext, hlog, hregion, ⟨blocks', hh', hroom'⟩, kstack,
    hthreads⟩ := sysExec_ok (p := sampleProgram) hh hroom (by omega) (by simp [sampleProgram])
      (by simp [sampleProgram]) h.ready
      (allocTid_eq hlt (h.free _ (by omega)) fun i hi => (h.slots i (by omega)).1)
      List.not_mem_nil h.running (by rw [h.tid]; exact (h.slots t le_rfl).1) hne
  rw [h.tid, h.nextUid] at hthreads
  have hslot : k₁.threads (t + 1) = { k.threads (t + 1) with
      status := .ready, occupied := true, thread := ⟨.user, kstack, t, t + 1⟩ } := by
    rw [hthreads, Function.update_of_ne (by omega), Function.update_self]
  obtain ⟨k₂, hdispatch, hocc₂, hready₂, hcur₂, hheap₂, hthreads₂, hbuf₂, hnext₂, hlog₂⟩ :=
    dispatch_user hready (by rw [hslot]; simp)
  rw [hslot] at hcur₂ hthreads₂ hlog₂
  refine ⟨k₁, k₂, ?_, by rw [hbuf, h.buf], ?_, ?_, ?_⟩
  · rw [step, if_pos h.running, syscall, hexec]
  · rw [step, if_neg (by rw [hocc]; decide), hdispatch]
  · refine ⟨hready₂, hocc₂, by rw [hcur₂], by rw [hcur₂], by rw [hcur₂], fun i hi => ?_,
      fun i hi => ?_, by rw [hnext₂, hnext, h.nextUid], by rw [hbuf₂, hbuf, h.buf],
      by rw [hheap₂, hregion, h.region], ⟨blocks', by rw [hheap₂]; exact hh', hroom'⟩⟩
    · rw [hthreads₂]
      rcases eq_or_ne i (t + 1) with rfl | hi'
      · simp
      · have hslots := h.slots i (by omega)
        rw [Function.update_of_ne hi', hthreads]
        rcases eq_or_ne i t with rfl | hit
        · simpa [h.uid] using hslots.1
        · simpa [Function.update_of_ne hit, Function.update_of_ne hi'] using hslots
    · rw [hthreads₂, Function.update_of_ne (by omega), hthreads, Function.update_of_ne (by omega),
        Function.update_of_ne (by omega)]
      exact h.free i (by omega)
  · rw [hlog₂, hlog, h.nextUid, h.uid]
    simp

/-- The first thread, dispatched. -/
lemma sampleKernel_dispatched : ∃ k₁ k₂, initThread sampleKernel sampleProgram = .ok k₁ ∧
    isEmpty k₁.buf = true ∧ step k₁ .dispatch = .ok k₂ ∧ ChildRuns k₂ 0 0 ∧
    k₂.log = [.pushed 0, .dispatched 0] := by
  obtain ⟨k₁, blocks, hinit, hregion, hh, hroom⟩ := sampleKernel_boots
  obtain ⟨hready, hocc, hbuf, hnext, hlog, kstack, hthreads⟩ := sampleKernel_first hinit
  obtain ⟨k₂, hdispatch, hocc₂, hready₂, hcur₂, hheap₂, hthreads₂, hbuf₂, hnext₂, hlog₂⟩ :=
    dispatch_user hready (by rw [hthreads]; simp)
  rw [hthreads] at hcur₂ hthreads₂ hlog₂
  refine ⟨k₁, k₂, hinit, hbuf, ?_, ⟨hready₂, hocc₂, by rw [hcur₂], by rw [hcur₂]; rfl,
    by rw [hcur₂]; rfl, fun i hi => ?_, fun i hi => ?_, by rw [hnext₂, hnext],
    by rw [hbuf₂, hbuf], by rw [hheap₂, hregion], ⟨blocks, by rw [hheap₂]; exact hh, hroom⟩⟩, ?_⟩
  · rw [step, if_neg (by rw [hocc]; decide), hdispatch]
  · obtain rfl : i = 0 := by omega
    simp [hthreads₂]
  · rw [hthreads₂, Function.update_of_ne (by omega), Function.update_of_ne (by omega)]
    rfl
  · rw [hlog₂, hlog]
    rfl

/-- The thread exits, which wakes the one in slot `p`. -/
lemma ChildRuns.exit (h : ChildRuns k t p) (hp : p < t) (ht : t < 5) :
    ∃ k₁, step k (.syscall .exit) = .ok k₁ ∧ k₁.occupied = false ∧ Linked k₁.rrScheduler [p] ∧
      (k₁.threads t).occupied = false ∧
      k₁.log = k.log ++ [.exited t, .pushed p, .freed t] := by
  have hlt : p < maxThread := lt_of_lt_of_le (show p < 6 by omega) (by decide)
  obtain ⟨k₁, hexit, hocc, hready, hheap, hthreads, hlog⟩ := exitFromCPU_wakes h.ready
    List.not_mem_nil hlt h.wait (by rw [h.tid]; omega)
  rw [h.tid] at hthreads hlog
  refine ⟨k₁, ?_, hocc, hready, ?_, ?_⟩
  · rw [step, if_pos h.running, syscall, hexit]
  · rw [hthreads, Function.update_of_ne (by omega), Function.update_self]
  · rw [hlog, h.uid, (h.slots p (by omega)).2, (h.slots t le_rfl).2]
lemma ChildRuns.setMem (h : ChildRuns k t p) (mem : Bytes.Memory) :
    ChildRuns (k.setMem mem) t p := by
  obtain ⟨blocks, hh, hroom⟩ := h.heap
  exact ⟨h.ready, h.running, h.tid, h.uid, h.wait, h.slots, h.free, h.nextUid, h.buf, h.region,
    ⟨blocks, hh.setMem mem, hroom⟩⟩

end

/-- A program executes another one, which makes a system call and exits; the traps of the second are
stored below the addresses of the kernel. -/
def familyRun : List Happening :=
  [⟨.dispatch, [], []⟩, ⟨.syscall (.exec (some sampleProgram)), [], []⟩, ⟨.dispatch, [], []⟩,
    ⟨.syscall .write, [(0x2000, 7)], [(0x2008, 1)]⟩, ⟨.syscall .exit, [(0x3000, 7)], [(0x3008, 2)]⟩]

/-- The bytes below the heap and the variables. -/
lemma sampleGlobals_low {k : Kernel} {x : ℕ} (hregion : k.heap.region = sampleHeap.region)
    (hx : x < waitPlace) : x ∉ sampleGlobals.vars k := by
  have hbase : sampleHeap.region.base = 0xffffffff80400000 := rfl
  simp only [sampleGlobals, Set.mem_ofPred_eq, KernelHeap.Outside, hregion, hbase, waitPlace] at *
  omega

lemma sampleKernel_family : ∃ k₁ s, initThread sampleKernel sampleProgram = .ok k₁ ∧
    sampleGlobals.Run (.start k₁) familyRun s ∧
    sampleGlobals.Careful (· = 0) (.start k₁) familyRun ∧
    s.kernel.occupied = false ∧ readyList s.kernel.rrScheduler = [0] ∧
    s.kernel.log = [.pushed 0, .dispatched 0, .pushed 1, .execOk 0 1, .dispatched 1, .exited 1,
      .pushed 0, .freed 1] := by
  obtain ⟨k₁, k₂, hinit, hbuf₁, hstep₁, hk₂, hlog₂⟩ := sampleKernel_dispatched
  obtain ⟨k₃, k₄, hstep₂, hbuf₃, hstep₃, hk₄, hlog₄⟩ := hk₂.exec (by omega)
  -- the traps of the child change the memory only
  have hlow : ∀ b ∈ [((0x2000 : ℕ), (7 : UInt8)), (0x2008, 1)], b.1 ∉ sampleGlobals.vars k₄ := by
    intro b hb
    simp only [List.mem_cons, List.not_mem_nil, or_false] at hb
    rcases hb with rfl | rfl <;> exact sampleGlobals_low hk₄.region (by norm_num [waitPlace])
  obtain ⟨mem, _, hstored⟩ := sampleGlobals.storeAll_elsewhere hlow
  have hk₅ := hk₄.setMem mem
  have hlow' : ∀ b ∈ [((0x3000 : ℕ), (7 : UInt8)), (0x3008, 2)],
      b.1 ∉ sampleGlobals.vars (k₄.setMem mem) := by
    intro b hb
    simp only [List.mem_cons, List.not_mem_nil, or_false] at hb
    rcases hb with rfl | rfl <;> exact sampleGlobals_low hk₅.region (by norm_num [waitPlace])
  obtain ⟨mem', _, hstored'⟩ := sampleGlobals.storeAll_elsewhere hlow'
  have hk₆ := hk₅.setMem mem'
  obtain ⟨k₇, hstep₇, hocc₇, hready₇, _, hlog₇⟩ := hk₆.exit (by omega) (by omega)
  have hreaches : sampleGlobals.Reaches (· = 0) (.start k₁) familyRun k₇ := by
    refine Globals.reaches_quiet rfl hbuf₁ (by simp) (by simp) hstep₁ fun _ frames₂ _ hf₂ => ?_
    refine Globals.reaches_quiet rfl hk₂.buf (by simp) (by simp) hstep₂ fun _ frames₃ _ hf₃ => ?_
    refine Globals.reaches_quiet rfl hbuf₃ (by simp) (by simp) hstep₃ fun _ frames₄ _ hf₄ => ?_
    have hempty : ∀ u x, x ∉ frames₄ u := by
      intro u x hx
      simp only [List.map_nil, List.not_mem_nil, or_false] at hf₂ hf₃ hf₄
      exact List.not_mem_nil (hf₂ u x (hf₃ u x (hf₄ u x hx)))
    refine Globals.reaches_quiet hstored hk₅.buf (fun b hb => ⟨hlow b hb, fun u => hempty u _⟩)
      (by simp) (k := k₄.setMem mem) ?_ fun _ frames₅ _ hf₅ => ?_
    · rw [step, if_pos hk₅.running, syscall]
    refine Globals.reaches_quiet hstored' hk₆.buf (fun b hb => ⟨hlow' b hb, fun u hx => ?_⟩)
      (fun _ _ => ?_) hstep₇ fun _ frames₆ _ hf₆ => ⟨_, rfl, .nil _, trivial⟩
    · rcases hf₅ u _ hx with hx | hx
      · exact hempty u _ hx
      · simp only [List.cons_append, List.nil_append, List.mem_cons, List.not_mem_nil,
          or_false] at hb
        rcases hb with rfl | rfl <;> simp at hx
    · change ¬ k₄.current.thread.uid = 0
      rw [hk₄.uid]
      decide
  obtain ⟨s, rfl, hrun, hcareful⟩ := hreaches
  refine ⟨k₁, s, hinit, hrun, hcareful, hocc₇, hready₇.readyList_eq (by decide), ?_⟩
  rw [hlog₇]
  change k₄.log ++ _ = _
  rw [hlog₄, hlog₂]
  rfl

end Jokerix
