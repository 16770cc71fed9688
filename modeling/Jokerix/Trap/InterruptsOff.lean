import Jokerix.Consts
import Jokerix.Trap.Machine

/-!
# Critical sections run with interrupts off

`SIE` is not part of a switched context. The invariant follows it through the words that carry it:
the `sstatus` word of each frame and of each new context, the flags of `disable_and_store`, and the
code at which each context is suspended. It is kept as long as no program leads the stores of a trap
or of `sysRead` over bytes of the kernel; a program that does so can turn interrupts on in
`__restore`.
-/

namespace Jokerix

/-! ### Critical code -/

/-- The code that must not be interrupted: handlers, switches, the start of a user thread, and
`idleMain` between two windows. -/
def Code.critical : Code → Bool
  | .user | .idleEntry | .idleWindow | .launch _ .idleEntry => false
  | _ => true

/-- A word that `__restore` may write to resume `k`: interrupts stay off until `sret`, which returns
to U-mode exactly for the program of a thread. -/
structure WordFor (w : BitVec 64) (k : Code) : Prop where
  off : hasSie w = false
  spp : hasSpp w = true ↔ k ≠ .user

/-- The codes that a trap may interrupt. -/
inductive Interruptible : Code → Prop where
  | user : Interruptible .user
  | idleEntry : Interruptible .idleEntry
  | idleWindow : Interruptible .idleWindow
  | launch (w : BitVec 64) : WordFor w .idleEntry → Interruptible (.launch w .idleEntry)

/-- A code that runs with a given `sstatus`. `thread` says whether the context of a thread runs. -/
inductive CodeOk (sstatus : BitVec 64) (thread : Prop) : Code → Prop where
  | user : thread → CodeOk sstatus thread .user
  | launch (w : BitVec 64) : ¬ thread → WordFor w .idleEntry →
      CodeOk sstatus thread (.launch w .idleEntry)
  | start (w : BitVec 64) : thread → WordFor w .user → CodeOk sstatus thread (.launch w .user)
  | idleEntry : ¬ thread → CodeOk sstatus thread .idleEntry
  | idleLoop : ¬ thread → CodeOk sstatus thread .idleLoop
  | idleWindow : ¬ thread → CodeOk sstatus thread .idleWindow
  | idleSwitched : ¬ thread → CodeOk sstatus thread .idleSwitched
  | entry (cause : Cause) (stk : Stack) {k : Code} : Interruptible k → (k = .user ↔ thread) →
      WordFor sstatus k → CodeOk sstatus thread (.entry cause stk k)
  | handler (cause : Cause) {f : Frame} {k : Code} : Interruptible k → (k = .user ↔ thread) →
      WordFor f.sstatus k → CodeOk sstatus thread (.handler cause f k)
  | switching {flags : BitVec 64} (cause : Cause) {f : Frame} : thread → hasSie flags = false →
      WordFor f.sstatus .user → CodeOk sstatus thread (.switching flags cause f .user)
  | switched {flags : BitVec 64} (cause : Cause) {f : Frame} : thread → hasSie flags = false →
      WordFor f.sstatus .user → CodeOk sstatus thread (.switched flags cause f .user)
  | exiting {f : Frame} {k : Code} : Interruptible k → (k = .user ↔ thread) →
      WordFor f.sstatus k → CodeOk sstatus thread (.exiting f k)
  | restore {f : Frame} {k : Code} : Interruptible k → (k = .user ↔ thread) →
      WordFor f.sstatus k → CodeOk sstatus thread (.restore f k)
  | sret {k : Code} : Interruptible k → (k = .user ↔ thread) → WordFor sstatus k →
      CodeOk sstatus thread (.sret k)
  | fault : CodeOk sstatus thread .fault

/-- The saved contexts of threads. -/
inductive Saved : Code → Prop where
  | launch (w : BitVec 64) : WordFor w .user → Saved (.launch w .user)
  | switched {flags : BitVec 64} (cause : Cause) {f : Frame} : hasSie flags = false →
      WordFor f.sstatus .user → Saved (.switched flags cause f .user)
  | restore {f : Frame} : WordFor f.sstatus .user → Saved (.restore f .user)

/-- The invariant of the hart. -/
structure HartInv (s : Hart) : Prop where
  code : CodeOk s.csrs.sstatus (s.current ≠ none) s.code
  critical : s.code.critical = true → hasSie s.csrs.sstatus = false
  priv : s.priv = .user ↔ s.code = .user
  occupied : s.occupied = true → s.current ≠ none ∨ s.code = .idleSwitched ∨ s.code = .fault
  idle : s.current ≠ none → s.idle = .idleSwitched
  threads : ∀ tid c, s.threads tid = some c → Saved c

/-- The trap that was taken stores none of the bytes that the course of the kernel depends on. -/
def TrapElsewhere (K : Image) (s : Hart) : Prop :=
  ∀ cause stk p, s.code = .entry cause stk .user → stk.Stores p → ¬ s.Course K p

/-- The next byte that `sysRead` stores is none of these either, and lies neither in the saved
`sstatus` of its own trap nor in the frames of its handler. -/
def ReadElsewhere (K : Image) (s : Hart) : Prop :=
  ∀ p f k, s.stdin ≠ [] → s.code = .handler (.sysRead p) f k →
    ¬ s.Course K p ∧ p ∉ f.stack.calls ∧ ∀ j < 8, f.sstatusPlace j ≠ p

/-- A run in which the stores of the programs' traps and system calls land elsewhere. -/
def ElsewhereRun (K : Image) : Hart → Hart → Prop :=
  Relation.ReflTransGen fun s s' => TrapElsewhere K s ∧ ReadElsewhere K s ∧ AnyStep K s s'

section
variable {K : Image} {s s' : Hart} {w flags : BitVec 64} {thread : Prop} {c k : Code}
  {cause : Cause}
  {stk : Stack} {f : Frame} {tid : ℕ}

lemma Interruptible.not_critical (h : Interruptible k) : k.critical = false := by
  cases h <;> rfl

/-- Code that may be interrupted is what a trap finds outside critical code. -/
lemma CodeOk.interruptible (h : CodeOk w thread c) (hc : c.critical = false) :
    Interruptible c ∧ (c = .user ↔ thread) := by
  cases h with
  | user ht => exact ⟨.user, by simp [ht]⟩
  | launch w ht hw => exact ⟨.launch w hw, by simp [ht]⟩
  | idleEntry ht => exact ⟨.idleEntry, by simp [ht]⟩
  | idleWindow ht => exact ⟨.idleWindow, by simp [ht]⟩
  | _ => cases hc

/-- Interrupted code goes on with any `sstatus`. -/
lemma Interruptible.codeOk (h : Interruptible k) (hk : k = .user ↔ thread) :
    CodeOk w thread k := by
  cases h with
  | user => exact .user (hk.mp rfl)
  | idleEntry => exact .idleEntry fun ht => by cases hk.mpr ht
  | idleWindow => exact .idleWindow fun ht => by cases hk.mpr ht
  | launch w hw => exact .launch w (fun ht => by cases hk.mpr ht) hw

lemma Saved.codeOk (h : Saved c) (ht : thread) : CodeOk w thread c ∧ c ≠ .user := by
  cases h with
  | launch w hw => exact ⟨.start w ht hw, nofun⟩
  | switched cause hf hw => exact ⟨.switched cause ht hf hw, nofun⟩
  | restore hw => exact ⟨.restore .user (by simp [ht]) hw, nofun⟩

lemma HartInv.codeAt (hi : HartInv s) (hc : s.code = c) :
    CodeOk s.csrs.sstatus (s.current ≠ none) c := hc ▸ hi.code

/-! ### What stores elsewhere leave -/

lemma not_astray (htrap : TrapElsewhere K s) (hread : ReadElsewhere K s) : ¬ s.Astray K := by
  rintro (⟨cause, stk, p, hc, hp, hcourse⟩ | ⟨p, f, k, hin, hc, hbad⟩)
  · exact htrap cause stk p hc hp hcourse
  · obtain ⟨h1, h2, _⟩ := hread p f k hin hc
    exact hbad.elim h1 h2

lemma Frame.store_of_ne {p : ℕ} (h : ∀ j < 8, f.sstatusPlace j ≠ p) (ch : UInt8) :
    f.store p ch = f := by
  have hnone : ((List.range 8).find? fun j => f.sstatusPlace j = p) = none := by
    rw [List.find?_eq_none]
    intro j hj
    simpa using h j (List.mem_range.mp hj)
  rw [Frame.store, hnone]

/-- No word of a register lies over the pointer to the context of idle. -/
lemma TrapElsewhere.not_forged (htrap : TrapElsewhere K s) (hc : s.code = .entry cause stk .user)
    {i : ℕ} (hi : 3 ≤ i) (hi' : i ≤ 31) :
    ¬ ∀ j < 8, stk.frame (8 * i + j) = K.idleContextAddr + j := by
  intro hover
  have h0 := hover 0 (by norm_num)
  exact htrap cause stk _ hc (.inl ⟨8 * i + 0, by omega, by omega, h0⟩)
    (.inl (K.idle_mem 0 (by norm_num)))

/-! ### Steps keep the invariant -/

/-- A trap that finds interruptible code. -/
lemma HartInv.trap (hi : HartInv s) (hnc : s.code.critical = false) (cause : Cause) (stk : Stack) :
    HartInv (s.trap (.entry cause stk s.code)) := by
  obtain ⟨hint, hk⟩ := hi.code.interruptible hnc
  refine ⟨.entry cause stk hint hk ⟨hasSie_trapSstatus _ _, ?_⟩, fun _ => hasSie_trapSstatus _ _,
    ⟨nofun, nofun⟩, fun ho => ?_, hi.idle, hi.threads⟩
  · change hasSpp (trapSstatus s.priv s.csrs.sstatus) = true ↔ _
    rw [hasSpp_trapSstatus, decide_eq_true_eq, ← not_iff_not, not_not, ← hi.priv]
    cases s.priv <;> simp
  · rcases hi.occupied ho with hcur | hcode | hcode
    · exact .inl hcur
    · rw [hcode] at hnc
      cases hnc
    · rw [hcode] at hnc
      cases hnc

/-- Interrupts are only taken outside critical code. -/
lemma HartInv.not_critical_of_takes (hi : HartInv s) {enable : BitVec 64 → Bool}
    (h : s.Takes enable) : s.code.critical = false := by
  by_contra hc
  rw [Bool.not_eq_false] at hc
  have hoff := hi.critical hc
  have hpriv : s.priv = .supervisor := by
    rcases hp : s.priv with _ | _
    · rw [hi.priv.mp hp] at hc
      cases hc
    · rfl
  rw [h.2 hpriv] at hoff
  cases hoff

lemma HartInv.off (hi : HartInv s) (hc : s.code = c) (hcrit : c.critical = true) :
    hasSie s.csrs.sstatus = false :=
  hi.critical (hc ▸ hcrit)

lemma HartInv.supervisor (hi : HartInv s) (hc : s.code = c) (hne : c ≠ .user) : s.priv ≠ .user :=
  fun hp => hne (hc.symm.trans (hi.priv.mp hp))

lemma HartInv.occupied_of_ne (hi : HartInv s) (hc : s.code = c) (h1 : c ≠ .idleSwitched)
    (h2 : c ≠ .fault) (ho : s.occupied = true) : s.current ≠ none := by
  rcases hi.occupied ho with h | h | h
  · exact h
  · exact absurd (hc.symm.trans h) h1
  · exact absurd (hc.symm.trans h) h2

/-- A step inside the kernel that keeps who runs: only the code, `sstatus` and the input change. -/
lemma HartInv.move (hi : HartInv s) (hc : s.code = c) (hne : c ≠ .user) (h1 : c ≠ .idleSwitched)
    (h2 : c ≠ .fault) {csrs : Csrs} {stdin : List UInt8}
    (hcode : CodeOk csrs.sstatus (s.current ≠ none) k) (hcrit : hasSie csrs.sstatus = false)
    (hk : k ≠ .user) : HartInv { s with csrs, code := k, stdin } :=
  ⟨hcode, fun _ => hcrit, ⟨fun hp => absurd hp (hi.supervisor hc hne), fun hu => absurd hu hk⟩,
    fun ho => .inl (hi.occupied_of_ne hc h1 h2 ho), hi.idle, hi.threads⟩

/-- What is known while a trap is handled. -/
lemma HartInv.handler (hi : HartInv s) (hc : s.code = .handler cause f k) :
    Interruptible k ∧ (k = .user ↔ s.current ≠ none) ∧ WordFor f.sstatus k := by
  cases hi.codeAt hc with
  | handler _ hint hk hw => exact ⟨hint, hk, hw⟩

lemma HartInv.save (hi : HartInv s) (hc : s.code = .entry cause stk k) :
    HartInv { s with code := .handler cause ⟨stk, s.csrs.sstatus⟩ k } := by
  cases hi.codeAt hc with
  | entry _ _ hint hk hw =>
    exact hi.move hc nofun nofun nofun (.handler cause hint hk hw) (hi.off hc rfl) nofun

/-- The handler returns, whatever has become of the input. -/
lemma HartInv.handled (hi : HartInv s) (hc : s.code = .handler cause f k) (stdin : List UInt8) :
    HartInv { s with stdin, code := .restore f k } := by
  obtain ⟨hint, hk, hw⟩ := hi.handler hc
  exact hi.move hc nofun nofun nofun (.restore hint hk hw) (hi.off hc rfl) nofun

lemma HartInv.create (hi : HartInv s) (tid : ℕ) :
    HartInv { s with
      threads := fun t => if t = tid then
        some (.launch (newUserThreadSstatus s.csrs.sstatus) .user) else s.threads t } := by
  refine ⟨hi.code, hi.critical, hi.priv, hi.occupied, hi.idle, fun t c ht => ?_⟩
  simp only at ht
  split_ifs at ht with heq
  · cases ht
    exact .launch _ ⟨by simp, by simp⟩
  · exact hi.threads t c ht

lemma hasSie_disableAndStore (c : Csrs) : hasSie c.disableAndStore.2.sstatus = false := by
  simp [Csrs.disableAndStore, Csrs.wSstatus, hasSie_andNot]

/-- `tickCPU` and `yieldCPU` go to idle only when a thread runs. -/
lemma HartInv.switching (hi : HartInv s) (hc : s.code = .handler cause f k)
    (ho : s.occupied = true) :
    HartInv { s with
      csrs := s.csrs.disableAndStore.2
      code := .switching s.csrs.disableAndStore.1 cause f k } := by
  obtain ⟨_, hk, hw⟩ := hi.handler hc
  have hcur := hi.occupied_of_ne hc nofun nofun ho
  obtain rfl := hk.mpr hcur
  exact hi.move hc nofun nofun nofun (.switching cause hcur (hi.off hc rfl) hw)
    (hasSie_disableAndStore _) nofun

lemma HartInv.exit (hi : HartInv s) (hc : s.code = .handler cause f k) :
    HartInv { s with csrs := s.csrs.disableAndStore.2, code := .exiting f k } := by
  obtain ⟨hint, hk, hw⟩ := hi.handler hc
  exact hi.move hc nofun nofun nofun (.exiting hint hk hw) (hasSie_disableAndStore _) nofun

/-- The switch from a thread to idle. -/
lemma HartInv.leave (hi : HartInv s) (hcrit : s.code.critical = true) (tid : ℕ) (hc : Saved c)
    (hcur : s.current ≠ none) :
    HartInv { s with
      threads := fun t => if t = tid then some c else s.threads t
      current := none
      code := s.idle } := by
  have hidle := hi.idle hcur
  have hne : s.code ≠ .user := fun hu => by rw [hu] at hcrit; cases hcrit
  refine ⟨?_, fun _ => hi.critical hcrit, ⟨fun hp => absurd (hi.priv.mp hp) hne, ?_⟩,
    fun _ => .inr (.inl hidle), fun h => absurd rfl h, fun t c' ht => ?_⟩
  · simp only [hidle]
    exact .idleSwitched fun h => h rfl
  · simp only [hidle]
    exact nofun
  · simp only at ht
    split_ifs at ht with heq
    · cases ht
      exact hc
    · exact hi.threads t c' ht

lemma HartInv.toIdle (hi : HartInv s) (hc : s.code = .switching flags cause f k) (tid : ℕ) :
    HartInv { s with
      threads := fun t => if t = tid then some (.switched flags cause f k) else s.threads t
      current := none
      code := s.idle } := by
  cases hi.codeAt hc with
  | switching _ hcur hf hw => exact hi.leave (by rw [hc]; rfl) tid (.switched cause hf hw) hcur

lemma HartInv.exited (hi : HartInv s) (hc : s.code = .exiting f k) (hcur : s.current = some tid) :
    HartInv { s with
      threads := fun t => if t = tid then some (.restore f k) else s.threads t
      current := none
      code := s.idle } := by
  have hcur' : s.current ≠ none := by simp [hcur]
  cases hi.codeAt hc with
  | exiting hint hk hw =>
    obtain rfl := hk.mpr hcur'
    exact hi.leave (by rw [hc]; rfl) tid (.restore hw) hcur'

lemma HartInv.resume (hi : HartInv s) (hc : s.code = .switched flags cause f k) :
    HartInv { s with csrs := s.csrs.restoreSstatus flags, code := .handler cause f k } := by
  have hoff := hi.off hc rfl
  cases hi.codeAt hc with
  | switched _ hcur hf hw =>
    exact hi.move hc nofun nofun nofun (.handler cause .user (by simp [hcur]) hw)
      (by simp [Csrs.restoreSstatus, Csrs.wSstatus, hasSie_or, hoff, hf]) nofun

lemma HartInv.idleStart (hi : HartInv s) (hc : s.code = .idleEntry) :
    HartInv { s with csrs := s.csrs.disableAndStore.2, code := .idleLoop } := by
  cases hi.codeAt hc with
  | idleEntry ht =>
    exact hi.move hc nofun nofun nofun (.idleLoop ht) (hasSie_disableAndStore _) nofun

lemma HartInv.dispatch (hi : HartInv s) (hc : s.code = .idleLoop) (hc' : s.threads tid = some c) :
    HartInv { s with current := some tid, occupied := true, idle := .idleSwitched, code := c } := by
  have hcur : some tid ≠ none := nofun
  obtain ⟨hok, hne⟩ := (hi.threads tid c hc').codeOk (w := s.csrs.sstatus) hcur
  exact ⟨hok, fun _ => hi.off hc rfl, ⟨fun hp => absurd hp (hi.supervisor hc nofun), fun hu =>
    absurd hu hne⟩, fun _ => .inl nofun, fun _ => rfl, hi.threads⟩

lemma HartInv.wait (hi : HartInv s) (hc : s.code = .idleLoop) :
    HartInv { s with csrs := s.csrs.enable, code := .idleWindow } := by
  cases hi.codeAt hc with
  | idleLoop ht =>
    exact ⟨.idleWindow ht, nofun, ⟨fun hp => absurd hp (hi.supervisor hc nofun), nofun⟩,
      fun ho => .inl (hi.occupied_of_ne hc nofun nofun ho), hi.idle, hi.threads⟩

lemma HartInv.waited (hi : HartInv s) (hc : s.code = .idleWindow) :
    HartInv { s with csrs := s.csrs.disableAndStore.2, code := .idleLoop } := by
  cases hi.codeAt hc with
  | idleWindow ht =>
    exact hi.move hc nofun nofun nofun (.idleLoop ht) (hasSie_disableAndStore _) nofun

lemma HartInv.retrieve (hi : HartInv s) (hc : s.code = .idleSwitched) :
    HartInv { s with occupied := false, code := .idleLoop } := by
  cases hi.codeAt hc with
  | idleSwitched ht =>
    exact ⟨.idleLoop ht, fun _ => hi.off hc rfl,
      ⟨fun hp => absurd hp (hi.supervisor hc nofun), nofun⟩, nofun, hi.idle, hi.threads⟩

lemma HartInv.launch (hi : HartInv s) (hc : s.code = .launch w k) :
    HartInv { s with csrs := s.csrs.wSstatus w, code := .sret k } := by
  cases hi.codeAt hc with
  | launch _ ht hw =>
    exact hi.move hc nofun nofun nofun (.sret .idleEntry ⟨nofun, fun h => absurd h ht⟩ hw) hw.off
      nofun
  | start _ ht hw =>
    exact hi.move hc nofun nofun nofun (.sret .user (by simp [ht]) hw) hw.off nofun

lemma HartInv.restore (hi : HartInv s) (hc : s.code = .restore f k) :
    HartInv { s with csrs := s.csrs.wSstatus f.sstatus, code := .sret k } := by
  cases hi.codeAt hc with
  | restore hint hk hw => exact hi.move hc nofun nofun nofun (.sret hint hk hw) hw.off nofun

lemma HartInv.sret (hi : HartInv s) (hc : s.code = .sret k) :
    HartInv { s with
      csrs := s.csrs.wSstatus (sretSstatus s.csrs.sstatus)
      priv := sretPriv s.csrs.sstatus
      code := k } := by
  cases hi.codeAt hc with
  | sret hint hk hw =>
    refine ⟨hint.codeOk hk, fun hcrit => ?_, ?_,
      fun ho => .inl (hi.occupied_of_ne hc nofun nofun ho), hi.idle, hi.threads⟩
    · rw [hint.not_critical] at hcrit
      cases hcrit
    · change sretPriv s.csrs.sstatus = .user ↔ k = .user
      rw [sretPriv, ← not_iff_not, ← ne_eq k, ← hw.spp]
      cases hasSpp s.csrs.sstatus <;> simp

/-- Step lemma: as long as the stores land elsewhere, the invariant is kept. -/
theorem HartInv.step (hi : HartInv s) (htrap : TrapElsewhere K s) (hread : ReadElsewhere K s)
    (h : Step K s s') : HartInv s' := by
  cases h with
  | timer stk htakes => exact hi.trap (hi.not_critical_of_takes htakes) _ _
  | external stk htakes => exact hi.trap (hi.not_critical_of_takes htakes) _ _
  | call cause stk hu _ => exact hi.trap (by rw [hu]; rfl) _ _
  | fault =>
    exact ⟨.fault, fun _ => hasSie_trapSstatus _ _, ⟨nofun, nofun⟩, fun _ => .inr (.inr rfl),
      hi.idle, hi.threads⟩
  | save cause stk k hc _ => exact hi.save hc
  | forge cause stk w i hc h1 h2 hover => exact absurd hover (htrap.not_forged hc h1 h2)
  | handled cause f k hc _ => exact hi.handled hc s.stdin
  | push ch f k hc => exact hi.handled hc _
  | read p ch rest f k hc hin _ =>
    rw [Frame.store_of_ne (hread p f k (by simp [hin]) hc).2.2]
    exact hi.handled hc _
  | create tid f k _ _ => exact hi.create tid
  | tick f k hc ho => exact hi.switching hc ho
  | yield cause f k hc _ ho => exact hi.switching hc ho
  | exit f k hc => exact hi.exit hc
  | toIdle tid flags cause f k hc _ => exact hi.toIdle hc tid
  | exited tid f k hc hcur => exact hi.exited hc hcur
  | resume flags cause f k hc => exact hi.resume hc
  | idleStart hc => exact hi.idleStart hc
  | dispatch tid c hc htid => exact hi.dispatch hc htid
  | wait hc => exact hi.wait hc
  | waited hc => exact hi.waited hc
  | retrieve hc => exact hi.retrieve hc
  | launch w k hc => exact hi.launch hc
  | restore f k hc => exact hi.restore hc
  | sret k hc => exact hi.sret hc

/-- Run lemma. -/
lemma HartInv.run (hi : HartInv s) (h : ElsewhereRun K s s') : HartInv s' := by
  induction h with
  | refl => exact hi
  | tail _ hstep ih =>
    obtain ⟨htrap, hread, hstep | hastray⟩ := hstep
    · exact ih.step htrap hread hstep
    · exact absurd hastray (not_astray htrap hread)

/-! ### Without external interrupts nothing is stored -/

/-- The code handles an external interrupt. -/
def Code.External : Code → Prop
  | .entry cause _ _ | .handler cause _ _ => cause = .external
  | .switching _ cause _ _ | .switched _ cause _ _ => cause = .external
  | _ => False

/-- External interrupts are disabled, and no character has arrived. -/
structure Quiet (s : Hart) : Prop where
  seie : hasSeie s.csrs.sie = false
  stdin : s.stdin = []
  code : ¬ s.code.External
  threads : ∀ tid c, s.threads tid = some c → ¬ c.External

lemma Interruptible.not_external (h : Interruptible k) : ¬ k.External := by
  cases h <;> exact id

lemma Quiet.codeAt (hq : Quiet s) (hc : s.code = c) : ¬ c.External := hc ▸ hq.code

lemma Quiet.saved (hq : Quiet s) (hc : ¬ c.External) (tid t : ℕ) {c' : Code}
    (ht : (if t = tid then some c else s.threads t) = some c') : ¬ c'.External := by
  split_ifs at ht
  · cases ht
    exact hc
  · exact hq.threads t c' ht

/-- Step lemma: with external interrupts disabled none is ever handled. -/
lemma Quiet.step (hq : Quiet s) (hi : HartInv s) (htrap : TrapElsewhere K s) (h : Step K s s') :
    Quiet s' := by
  cases h with
  | timer stk _ => exact ⟨hq.seie, hq.stdin, nofun, hq.threads⟩
  | external stk htakes =>
    have hset := htakes.1
    rw [hq.seie] at hset
    cases hset
  | call cause stk _ hcause =>
    refine ⟨hq.seie, hq.stdin, ?_, hq.threads⟩
    rintro (rfl : cause = .external)
    exact hcause
  | push ch f k hc => exact absurd rfl (hq.codeAt hc)
  | read p ch rest f k _ hin _ =>
    rw [hq.stdin] at hin
    cases hin
  | create tid f k _ _ => exact ⟨hq.seie, hq.stdin, hq.code, fun t _ => hq.saved id tid t⟩
  | save cause stk k hc _ =>
    have hno := hq.codeAt hc
    exact ⟨hq.seie, hq.stdin, hno, hq.threads⟩
  | forge cause stk w i hc h1 h2 hover => exact absurd hover (htrap.not_forged hc h1 h2)
  | yield cause f k hc _ _ =>
    have hno := hq.codeAt hc
    exact ⟨hq.seie, hq.stdin, hno, hq.threads⟩
  | resume flags cause f k hc =>
    have hno := hq.codeAt hc
    exact ⟨hq.seie, hq.stdin, hno, hq.threads⟩
  | tick f k _ _ => exact ⟨hq.seie, hq.stdin, nofun, hq.threads⟩
  | toIdle tid flags cause f k hc hcur =>
    have hcause := hq.codeAt hc
    have hno : ¬ (Code.switched flags cause f k).External := hcause
    refine ⟨hq.seie, hq.stdin, ?_, fun t _ => hq.saved hno tid t⟩
    simp only [hi.idle (by simp [hcur])]
    exact id
  | exited tid f k hc hcur =>
    refine ⟨hq.seie, hq.stdin, ?_, fun t _ => hq.saved id tid t⟩
    simp only [hi.idle (by simp [hcur])]
    exact id
  | dispatch tid c _ htid => exact ⟨hq.seie, hq.stdin, hq.threads tid c htid, hq.threads⟩
  | sret k hc =>
    cases hi.codeAt hc with
    | sret hint _ _ => exact ⟨hq.seie, hq.stdin, hint.not_external, hq.threads⟩
  | _ => exact ⟨hq.seie, hq.stdin, id, hq.threads⟩

end

/-! ### From boot on -/

/-- A step that is followed, from a state whose next stores land elsewhere. -/
def Careful (K : Image) (s s' : Hart) : Prop :=
  (TrapElsewhere K s ∧ ReadElsewhere K s) ∧ Step K s s'

end Jokerix
