import Jokerix.World.System

/-!
# The system stays in order

Each event keeps the invariant of the whole system, and the memory of every thread changes by the
stores that are made for it only.
-/

namespace Jokerix

open Exec

lemma access_mod {grants : ℕ → Bool} {r : ℕ} {mem : Bytes.Memory} {va va' : ℕ}
    (h : va % 2 ^ 64 = va' % 2 ^ 64) : access grants r mem va = access grants r mem va' := by
  rw [access, access, h]

/-- The image stays when its bytes do. -/
lemma Exec.HasImage.congr {st st' : System} {image : Bytes.Memory} (h : HasImage st image)
    (hfs : st'.fs = st.fs)
    (hmem : ∀ x, st.fs.img ≤ x → x < st.fs.img + imageSize → st'.mem x = st.mem x) :
    HasImage st' image := by
  have hsize : 16 ≤ imageSize := by decide
  constructor
  · rw [hfs, h.fs]
    simp only [initFs]
    rw [Bytes.loadLE_congr fun x h1 h2 => (hmem x (by omega) (by omega)).symm]
  · rw [hfs]
    refine ⟨fun x hx => ?_, h.image.fits⟩
    rw [hmem _ (Nat.le_add_right _ _) (Nat.add_lt_add_left hx _)]
    exact h.image.bytes x hx

namespace World

/-- The address spaces of the threads lead where they led before. -/
def SamePlaces (w w' : World) : Prop :=
  ∀ u < w.kernel.nextUid, w'.root u = w.root u ∧
    ∀ grants, access grants (w.root u) w'.mem = access grants (w.root u) w.mem

/-- A root table beside those of the threads, or one of them. -/
def Space (L : Layout) (w : World) (r : ℕ) : Prop :=
  ∃ roots, Reach L w.system.machine roots ∧ r ∈ roots ∧ ∀ u < w.kernel.nextUid, w.root u ∈ roots

/-- What a part of a run does. The memory before the heap stays, which is the code of the kernel
among others. -/
structure Advances (L : Layout) (image : Bytes.Memory) (w w' : World) : Prop where
  sound : Sound L image w'
  nextUid : w.kernel.nextUid ≤ w'.kernel.nextUid
  places : SamePlaces w w'
  isPrivate : Private w w'
  region : w'.kernel.heap.region = w.kernel.heap.region
  below : SameBelow w.kernel.heap.region.base w.mem w'.mem
  spaces : ∀ r, w.Space L r → w'.Space L r

/-- An execution creates a child from the content of a file, and then the parent sleeps. -/
structure Spawns (L : Layout) (files : Listing) (w : World) (path content : List UInt8) (tid : ℕ)
    (st : System) (k : Kernel) : Prop where
  file : fileAt files path = some content
  ne_nil : content ≠ []
  length : content.length < 2 ^ 31
  slot : allocTid w.kernel.threads = some tid
  loads : LoadsFile L w.system content w.kernel.current.tid st
  running : st.kernel.occupied = true
  mine : (st.kernel.threads st.kernel.current.tid).occupied = true
  yields : yieldCPU st.kernel (.sysExec w.kernel.nextUid) = .ok k
  nextUid : k.nextUid = w.kernel.nextUid + 1

section
variable {L : Layout} {image : Bytes.Memory} {w w' w'' : World} {k' : Kernel} {u va : ℕ} {b : UInt8}
  {bytes : List (ℕ × UInt8)}

/-! ### What threads find -/

lemma Private.trans (hn : w.kernel.nextUid ≤ w'.kernel.nextUid) (h : Private w w')
    (h' : Private w' w'') : Private w w'' := by
  obtain ⟨new, hnew, hload⟩ := h
  obtain ⟨new', hnew', hload'⟩ := h'
  refine ⟨new ++ new', by rw [hnew', hnew, List.append_assoc], fun u hu => ?_⟩
  rw [hload' u (hu.trans_le hn), hload u hu, putAll, putAll, putAll, List.filter_append,
    List.foldl_append]

lemma Advances.trans (h : Advances L image w w') (h' : Advances L image w' w'') :
    Advances L image w w'' := by
  refine ⟨h'.sound, h.nextUid.trans h'.nextUid, fun u hu => ?_,
    h.isPrivate.trans h.nextUid h'.isPrivate, h'.region.trans h.region, fun x hx => ?_,
    fun r hr => h'.spaces r (h.spaces r hr)⟩
  swap
  · rw [h'.below x (by rwa [h.region]), h.below x hx]
  obtain ⟨hroot, hplace⟩ := h.places u hu
  obtain ⟨hroot', hplace'⟩ := h'.places u (hu.trans_le h.nextUid)
  rw [hroot] at hroot' hplace'
  exact ⟨hroot', fun grants => (hplace' grants).trans (hplace grants)⟩

/-- Nothing that threads can see happens. -/
lemma Private.same (hstores : w'.stores = w.stores)
    (hload : ∀ u < w.kernel.nextUid, w'.load u = w.load u) : Private w w' :=
  ⟨[], by rw [hstores, List.append_nil], hload⟩

lemma load_congr (hroot : w'.root u = w.root u)
    (hplace : loadPlace (w.root u) w'.mem = loadPlace (w.root u) w.mem)
    (hmem : ∀ va p, loadPlace (w.root u) w.mem va = some p → w'.mem p = w.mem p) :
    w'.load u = w.load u := by
  funext va
  rw [load, load, hroot, hplace]
  cases hp : loadPlace (w.root u) w.mem va with
  | none => rfl
  | some p => rw [Option.map_some, Option.map_some, hmem va p hp]

lemma Sound.refl (h : Sound L image w) : Advances L image w w :=
  ⟨h, le_refl _, fun _ _ => ⟨rfl, fun _ => rfl⟩, .same rfl fun _ _ => rfl, rfl, fun _ _ => rfl,
    fun _ hr => hr⟩

/-! ### The kernel -/

lemma Sound.consistent (h : Sound L image w) : Consistent L w.system := by
  obtain ⟨ready, waiters, buffer, hsteady⟩ := h.steady
  obtain ⟨_, _, _, _, _, _, _, _, _, _, hh⟩ := hsteady.seen.heap
  obtain ⟨roots, hreach, _⟩ := h.spaces
  exact ⟨h.imageBelow, h.heapBelow, ⟨_, hh⟩, ⟨roots, hreach⟩, ready, hsteady.seen.linked,
    fun tid htid => ((hsteady.listed.mem_ready tid).mp htid).1⟩

/-- The thread that runs has a number that was given out. -/
lemma Sound.uid_lt (h : Sound L image w) (ho : w.kernel.occupied = true) :
    w.uid < w.kernel.nextUid := by
  obtain ⟨ready, waiters, buffer, hsteady⟩ := h.steady
  obtain ⟨hlive, _, _, huid⟩ := hsteady.listed.current ho
  have hlt := hsteady.family.uid_lt _ hlive
  rw [show ((w.kernel.view ready waiters buffer).threads _).thread.uid = _ from huid] at hlt
  exact hlt

lemma Sound.live_lt (h : Sound L image w) {t : ℕ} (ht : t < maxThread)
    (hocc : (w.kernel.threads t).occupied = true) (huid : (w.kernel.threads t).thread.uid = u) :
    u < w.kernel.nextUid := by
  obtain ⟨ready, waiters, buffer, hsteady⟩ := h.steady
  have hlt := hsteady.family.uid_lt t ⟨ht, hocc⟩
  rw [show ((w.kernel.view ready waiters buffer).threads t).thread.uid = u from huid] at hlt
  exact hlt

lemma Sound.reader_lt (h : Sound L image w) {t : ℕ} (ht : t < maxThread)
    (hr : ReaderIn w.kernel.threads t u) : u < w.kernel.nextUid := h.live_lt ht hr.occupied hr.uid

/-- The kernel works on its own data. -/
lemma Sound.setKernel (h : Sound L image w) (hk : w.kernel.Keeps k')
    (hsteady : ∃ ready waiters buffer, Steady (· = 0) k' ready waiters buffer) (base : ℕ → ℕ)
    (hreads : ∀ t u, t < maxThread → ReaderIn k'.threads t u →
      u < w.kernel.nextUid ∧ (userPlace (w.root u) w.mem (base u)).isSome) :
    Advances L image w { w.setKernel k' with base } := by
  obtain ⟨roots, hreach, hroots⟩ := h.spaces
  have hheap := h.heapBelow
  have himage := h.imageBelow
  have hout : ∀ x, w.kernel.heap.Outside x → k'.heap.mem x = w.mem x := hk.heap.outside
  simp only [KernelHeap.Outside] at hout
  obtain ⟨hreach', hsame⟩ := hreach.setData k'.heap.mem fun x hx => hout x (by omega)
  have hplace : ∀ u < w.kernel.nextUid, ∀ grants,
      access grants (w.root u) k'.heap.mem = access grants (w.root u) w.mem := fun u hu =>
    (hsame _ (hroots u hu)).2
  have huid : k'.nextUid = w.kernel.nextUid := hk.nextUid
  refine ⟨⟨hsteady, ?_, ?_, ?_, ⟨roots, hreach', fun u hu => hroots u ?_⟩, fun u hu u' hu' =>
    h.distinct u ?_ u' ?_, fun t u ht hr => ?_, fun s hs => (h.stores s hs).trans_eq huid.symm⟩,
      huid.ge, fun u hu => ⟨rfl, hplace u hu⟩,
    .same rfl fun u hu => ?_, hk.heap.region, fun x hx => hout x (.inl hx), ?_⟩
  · exact h.hasImage.congr rfl fun x _ hx => hout x (by omega)
  · change w.system.fs.img + imageSize ≤ k'.heap.region.base
    rw [hk.heap.region]
    exact himage
  · change k'.heap.region.base + kernelHeapSize ≤ L.kernelEnd
    rw [hk.heap.region]
    exact hheap
  · exact hu.trans_eq huid
  · exact hu.trans_eq huid
  · exact hu'.trans_eq huid
  · obtain ⟨hlt, hbase⟩ := hreads t u ht hr
    change (userPlace (w.root u) k'.heap.mem (base u)).isSome
    rw [userPlace, hplace u hlt, ← userPlace]
    exact hbase
  · refine load_congr rfl (hplace u hu _) fun va p hp => hout p ?_
    have hend := (hreach.userAccess_apart (hroots u hu) userOnly_load hp).1
    omega
  · rintro r ⟨others, hothers, hr, hall⟩
    exact ⟨others, (hothers.setData k'.heap.mem fun x hx => hout x (by omega)).1, hr,
      fun u hu => hall u (hu.trans_eq huid)⟩

/-- The same, when no other thread waits for a character. -/
lemma Sound.keeps (h : Sound L image w) (hk : w.kernel.Keeps k')
    (hsteady : ∃ ready waiters buffer, Steady (· = 0) k' ready waiters buffer)
    (hreaders : SameReaders w.kernel.threads k'.threads) : Advances L image w (w.setKernel k') :=
  h.setKernel hk hsteady w.base fun t u ht hr =>
    ⟨h.reader_lt ht (hreaders t u hr), h.reads t u ht (hreaders t u hr)⟩

/-! ### Stores -/

/-- A store goes to the memory of the thread that it is for. -/
lemma Sound.store (h : Sound L image w) (hu : w.uid < w.kernel.nextUid)
    (hok : w.store userPlace va b = .ok w') : Advances L image w w' := by
  obtain ⟨roots, hreach, hroots⟩ := h.spaces
  rw [World.store] at hok
  split at hok
  · cases hok
  rename_i p hp
  obtain rfl := Except.ok.inj hok
  obtain ⟨hend, htable⟩ := hreach.userAccess_apart (hroots _ hu) userOnly_store hp
  have hheap := h.heapBelow
  have himage := h.imageBelow
  set mem := Function.update w.mem p b with hmem
  have hother : ∀ x, x ≠ p → mem x = w.mem x := fun x hx => Function.update_of_ne hx _ _
  obtain ⟨hreach', hsame⟩ := hreach.store mem fun x hx => hother x fun heq => htable (heq ▸ hx)
  have hplace : ∀ u < w.kernel.nextUid, ∀ grants,
      access grants (w.root u) mem = access grants (w.root u) w.mem := fun u hu =>
    (hsame _ (hroots u hu)).2
  refine ⟨⟨?_, ?_, himage, hheap, ⟨roots, hreach', hroots⟩, h.distinct, fun t u ht hr => ?_,
    List.forall_mem_append.mpr ⟨h.stores, List.forall_mem_singleton.mpr hu⟩⟩, le_refl _,
    fun u hu => ⟨rfl, hplace u hu⟩, ⟨[⟨w.uid, va, b⟩], rfl, fun u hlt => ?_⟩, rfl,
    fun x hx => hother x (by omega), ?_⟩
  · obtain ⟨ready, waiters, buffer, hsteady⟩ := h.steady
    refine ⟨ready, waiters, buffer, hsteady.setMem _ fun x hx => hother x ?_⟩
    rw [KernelHeap.Outside] at hx
    omega
  · exact h.hasImage.congr rfl fun x _ hx => hother x (by omega)
  · change (userPlace (w.root u) mem (w.base u)).isSome
    rw [userPlace, hplace u (h.reader_lt ht hr), ← userPlace]
    exact h.reads t u ht hr
  · by_cases huu : w.uid = u
    · -- the thread sees its own store, at the address that it stored to
      subst huu
      rw [List.filter_cons_of_pos (by simp), List.filter_nil, putAll, List.foldl_cons,
        List.foldl_nil]
      funext va'
      rw [load, put, load]
      change (loadPlace (w.root w.uid) mem va').map mem = _
      rw [loadPlace, hplace _ hu, ← loadPlace]
      have hload : loadPlace (w.root w.uid) w.mem va = some p :=
        hreach.loadPlace_of_userPlace (hroots _ hu) hp
      by_cases hva : va' % 2 ^ 64 = va % 2 ^ 64
      · rw [if_pos hva, loadPlace, access_mod hva, ← loadPlace, hload, Option.map_some, hmem,
          Function.update_self]
      · rw [if_neg hva]
        cases hp' : loadPlace (w.root w.uid) w.mem va' with
        | none => rfl
        | some p' =>
          rw [Option.map_some, Option.map_some, hother p' ?_]
          rintro rfl
          exact hva (hreach.userAccess_inj (hroots _ hu) (hroots _ hu) userOnly_load userOnly_store
            hp' hp).2
    · rw [List.filter_cons_of_neg (by simpa using huu), List.filter_nil]
      refine load_congr rfl (hplace u hlt _) fun va' p' hp' => hother p' ?_
      rintro rfl
      obtain ⟨hroot, _⟩ := hreach.userAccess_inj (hroots _ hu) (hroots _ hlt) userOnly_store
        userOnly_load hp hp'
      exact huu (h.distinct _ hu _ hlt hroot)
  · rintro r ⟨others, hothers, hr, hall⟩
    have htable' := (hothers.userAccess_apart (hall _ hu) userOnly_store hp).2
    exact ⟨others, (hothers.store mem fun x hx => hother x fun heq => htable' (heq ▸ hx)).1, hr,
      hall⟩

/-- A store of the kernel where the program may store. -/
lemma store_writePlace (h : (userPlace (w.root w.uid) w.mem va).isSome) :
    w.store writePlace va b = w.store userPlace va b := by
  obtain ⟨p, hp⟩ := Option.isSome_iff_exists.mp h
  have hp' : writePlace (w.root w.uid) w.mem va = some p :=
    writePlace_of_userPlace (m := w.system.machine) hp
  simp only [World.store]
  rw [hp, hp']

lemma store_eq {place : ℕ → Paged.Translation} (hok : w.store place va b = .ok w') :
    ∃ mem, w' = { w.setKernel (w.kernel.setMem mem) with
      stores := w.stores ++ [⟨w.uid, va, b⟩] } := by
  rw [World.store] at hok
  split at hok
  · cases hok
  · exact ⟨_, (Except.ok.inj hok).symm⟩

/-- Stores change the memory, and what is recorded of them. -/
lemma storeAll_eq (hok : w.storeAll bytes = .ok w') : ∃ mem stores,
    w' = { w.setKernel (w.kernel.setMem mem) with stores } := by
  induction bytes generalizing w with
  | nil =>
    obtain rfl := Except.ok.inj hok
    exact ⟨w.mem, w.stores, rfl⟩
  | cons s bytes ih =>
    obtain ⟨w₁, hfirst, hrest⟩ := bind_eq_ok hok
    obtain ⟨mem₁, rfl⟩ := store_eq hfirst
    obtain ⟨mem, stores, rfl⟩ := ih hrest
    exact ⟨mem, stores, rfl⟩

lemma Owns.congr (hplaces : SamePlaces w w') (hu : u < w.kernel.nextUid) (h : w.Owns u bytes) :
    w'.Owns u bytes := by
  obtain ⟨hroot, hplace⟩ := hplaces u hu
  intro s hs
  rw [hroot, userPlace, hplace, ← userPlace]
  exact h s hs

lemma Sound.storeAll (h : Sound L image w) (hu : w.uid < w.kernel.nextUid)
    (howns : w.Owns w.uid bytes) (hok : w.storeAll bytes = .ok w') : Advances L image w w' := by
  induction bytes generalizing w with
  | nil =>
    obtain rfl := Except.ok.inj hok
    exact h.refl
  | cons s bytes ih =>
    obtain ⟨hfirst, hrest⟩ := List.forall_mem_cons.mp howns
    obtain ⟨w₁, hstore, hok⟩ := bind_eq_ok hok
    rw [store_writePlace hfirst] at hstore
    have hadv := h.store hu hstore
    have howns' := Owns.congr hadv.places hu hrest
    obtain ⟨mem, rfl⟩ := store_eq hstore
    exact hadv.trans (ih hadv.sound hu howns' hok)

/-- What a trap stores. -/
lemma Sound.save (h : Sound L image w) (howns : w.kernel.occupied = true → w.Owns w.uid bytes)
    (hok : w.save bytes = .ok w') : Advances L image w w' ∧
      ∃ mem stores, w' = { w.setKernel (w.kernel.setMem mem) with stores } := by
  rw [World.save] at hok
  split_ifs at hok with ho
  · exact ⟨h.storeAll (h.uid_lt ho) (howns ho) hok, storeAll_eq hok⟩
  · obtain rfl := Except.ok.inj hok
    exact ⟨h.refl, w.mem, w.stores, rfl⟩

/-! ### Reading a character -/

/-- The cases of `sysRead`: a character is there and is stored, or the thread waits. -/
lemma sysRead_cases {base : ℕ} (hok : w.sysRead base = .ok w') :
    ∃ k, popChar w.kernel = .ok k ∧
      ((isEmpty w.kernel.buf = false ∧ (w.setKernel k).store writePlace base
        (UInt8.ofNat (popFront w.kernel.heap w.kernel.buf).1) = .ok w') ∨
      (¬ isEmpty w.kernel.buf = false ∧
        w' = { w.setKernel k with base := Function.update w.base w.uid base })) := by
  rw [World.sysRead] at hok
  obtain ⟨k, hpop, hok⟩ := bind_eq_ok hok
  refine ⟨k, hpop, ?_⟩
  split_ifs at hok with hempty
  · exact .inl ⟨hempty, hok⟩
  · exact .inr ⟨hempty, (Except.ok.inj hok).symm⟩

/-- The kernel has taken a character for a thread, which is stored now. -/
lemma Advances.storeRead (h : Advances L image w (w.setKernel k')) {base : ℕ}
    (hu : k'.current.thread.uid < w.kernel.nextUid)
    (hbase : (userPlace (w.root k'.current.thread.uid) w.mem base).isSome)
    (hok : (w.setKernel k').store writePlace base b = .ok w') : Advances L image w w' := by
  have hplace := (h.places _ hu).2
  have hsome : (userPlace ((w.setKernel k').root (w.setKernel k').uid) (w.setKernel k').mem
      base).isSome := by
    change (userPlace (w.root k'.current.thread.uid) (w.setKernel k').mem base).isSome
    rw [userPlace, hplace, ← userPlace]
    exact hbase
  rw [store_writePlace hsome] at hok
  exact h.trans (h.sound.store (hu.trans_le h.nextUid) hok)

lemma Sound.sysRead (h : Sound L image w) (ho : w.kernel.occupied = true) {base : ℕ}
    (hbase : (userPlace (w.root w.uid) w.mem base).isSome) (hok : w.sysRead base = .ok w') :
    Advances L image w w' := by
  obtain ⟨k, hpop, hcase⟩ := sysRead_cases hok
  obtain ⟨ready, waiters, buffer, hsteady⟩ := h.steady
  have hstep : Jokerix.step w.kernel (.syscall (.read base)) = .ok k := (if_pos ho).trans hpop
  obtain ⟨ready', waiters', buffer', hsteady', _⟩ := hsteady.step (fun h => by cases h) hstep
  have hkeeps := popChar_keeps hsteady.seen.heap hpop
  rcases hcase with ⟨hempty, hstore⟩ | ⟨_, rfl⟩
  · obtain ⟨hthreads, hocc, hcur⟩ := popChar_takes hempty hpop
    refine (h.keeps hkeeps ⟨_, _, _, hsteady'⟩ (hthreads ▸ .refl _)).storeRead ?_ ?_ hstore
    · rw [hcur]
      exact h.uid_lt ho
    · rw [hcur]
      exact hbase
  · refine h.setKernel hkeeps ⟨_, _, _, hsteady'⟩ _ fun t u ht hr => ?_
    have hold : ReaderIn w.kernel.threads t u → u < w.kernel.nextUid ∧
        (userPlace (w.root u) w.mem (Function.update w.base w.uid base u)).isSome := by
      intro hr
      refine ⟨h.reader_lt ht hr, ?_⟩
      by_cases hu : u = w.uid
      · rw [hu, Function.update_self]
        exact hbase
      · rw [Function.update_of_ne hu]
        exact h.reads t u ht hr
    rcases popChar_readers hpop hr with hr | ⟨_, hu⟩
    · exact hold hr
    · have hu : u = w.uid := hu
      rw [hu, Function.update_self]
      exact ⟨h.uid_lt ho, hbase⟩

/-! ### A turn of `idleMain` -/

/-- The kernel after `acquireFromPool` and `switchThread`. -/
def acquired (k : Kernel) (rt : RunningThread) : Kernel :=
  { k with current := rt, occupied := true }.record (.dispatched rt.thread.uid)

/-- A turn stores nothing, or the thread that is dispatched has its frames stored behind what
`popChar` does. -/
lemma dispatch_cases {frames : List (ℕ × UInt8)} (hok : w.dispatch frames = .ok w') :
    (∃ k, acquireFromPool w.kernel = (none, k) ∧ w' = w.setKernel k) ∨
    ∃ rt k w₁, acquireFromPool w.kernel = (some rt, k) ∧ w₁.storeAll frames = .ok w' ∧
      ((rt.thread.context = .popChar ∧
        (w.setKernel (acquired k rt)).sysRead (w.base rt.thread.uid) = .ok w₁) ∨
      (rt.thread.context ≠ .popChar ∧ w₁ = w.setKernel (acquired k rt))) := by
  rw [World.dispatch] at hok
  split at hok
  · rename_i k hacquire
    exact .inl ⟨k, hacquire, (Except.ok.inj hok).symm⟩
  · rename_i rt k hacquire
    simp only at hok
    split at hok
    · rename_i hcontext
      obtain ⟨w₁, hread, hok⟩ := bind_eq_ok hok
      exact .inr ⟨rt, k, w₁, hacquire, hok, .inl ⟨hcontext, hread⟩⟩
    · rename_i hcontext
      exact .inr ⟨rt, k, _, hacquire, hok, .inr ⟨hcontext, rfl⟩⟩

lemma acquireFromPool_setMem (k : Kernel) (mem : Bytes.Memory) :
    (acquireFromPool (k.setMem mem)).1 = (acquireFromPool k).1 := by
  simp only [acquireFromPool, Kernel.setMem]
  split <;> rfl

/-- The thread that is dispatched is one that was ready. -/
lemma Sound.acquire (h : Sound L image w) {rt : RunningThread} {k : Kernel}
    (hacquire : acquireFromPool w.kernel = (some rt, k)) :
    rt.tid < maxThread ∧ (w.kernel.threads rt.tid).occupied = true ∧
      rt.thread = (w.kernel.threads rt.tid).thread ∧ w.kernel.Keeps (acquired k rt) ∧
      SameReaders w.kernel.threads k.threads ∧ k.buf = w.kernel.buf ∧
      k.waitQueue = w.kernel.waitQueue := by
  obtain ⟨ready, waiters, buffer, hsteady⟩ := h.steady
  cases ready with
  | nil =>
    rw [acquireFromPool, hsteady.seen.linked.pop_nil] at hacquire
    cases hacquire
  | cons tid rest =>
    obtain ⟨s, hpop, _⟩ := hsteady.seen.linked.pop
    obtain ⟨⟨hlt, hocc⟩, _⟩ := (hsteady.listed.mem_ready tid).mp List.mem_cons_self
    rw [acquireFromPool, hpop] at hacquire
    obtain ⟨hrt, rfl⟩ := Prod.mk.inj hacquire
    obtain rfl := Option.some.inj hrt
    exact ⟨hlt, hocc, rfl, ⟨rfl, .refl _⟩, .update tid fun h _ => ⟨h, rfl⟩, rfl, rfl⟩

/-- The scheduler is in order after every turn. -/
lemma Sound.dispatch_steady (h : Sound L image w) (ho : w.kernel.occupied = false) {k : Kernel}
    (hok : Jokerix.dispatch w.kernel = .ok k) :
    ∃ ready waiters buffer, Steady (· = 0) k ready waiters buffer := by
  obtain ⟨ready, waiters, buffer, hsteady⟩ := h.steady
  have hidle : ¬ w.kernel.occupied = true := by rw [ho]; decide
  obtain ⟨ready', waiters', buffer', hsteady', _⟩ :=
    hsteady.step (e := .dispatch) (fun h => by cases h) ((if_neg hidle).trans hok)
  exact ⟨ready', waiters', buffer', hsteady'⟩

/-- A waiting reader is dispatched. -/
lemma Sound.readAgain (h : Sound L image w) (ho : w.kernel.occupied = false) {rt : RunningThread}
    {k : Kernel} (hacquire : acquireFromPool w.kernel = (some rt, k))
    (hcontext : rt.thread.context = .popChar)
    (hok : (w.setKernel (acquired k rt)).sysRead (w.base rt.thread.uid) = .ok w') :
    Advances L image w w' ∧ w'.uid = rt.thread.uid := by
  obtain ⟨hlt, hocc, hthread, hk, hreaders, hbuf, hwait⟩ := h.acquire hacquire
  obtain ⟨ready, waiters, buffer, hsteady⟩ := h.steady
  have hr : ReaderIn w.kernel.threads rt.tid rt.thread.uid :=
    ⟨hocc, by rw [← hthread, hcontext], by rw [hthread]⟩
  have hu := h.reader_lt hlt hr
  have hbase := h.reads rt.tid _ hlt hr
  obtain ⟨k', hpop, hcase⟩ := sysRead_cases hok
  have hpop : popChar (acquired k rt) = .ok k' := hpop
  have hdispatch : Jokerix.dispatch w.kernel = .ok k' := by
    rw [Jokerix.dispatch, hacquire]
    simp only
    rw [hcontext]
    exact hpop
  have hseen := hsteady.seen.heap
  rw [← hbuf, ← hwait, show w.kernel.heap = k.heap from ?_] at hseen
  swap
  · rw [acquireFromPool] at hacquire
    split at hacquire
    · cases hacquire
    · obtain ⟨_, rfl⟩ := Prod.mk.inj hacquire
      rfl
  have hkeeps : w.kernel.Keeps k' := hk.trans (popChar_keeps (k := acquired k rt) hseen hpop)
  have hreaders' : SameReaders w.kernel.threads k'.threads := by
    intro t u hr'
    rcases popChar_readers hpop hr' with hr' | ⟨rfl, rfl⟩
    · exact hreaders t u hr'
    · exact hr
  have hadv := h.keeps hkeeps (h.dispatch_steady ho hdispatch) hreaders'
  have huid : k'.current.thread.uid = rt.thread.uid := popChar_uid hpop
  rcases hcase with ⟨hempty, hstore⟩ | ⟨hempty, rfl⟩
  · refine ⟨hadv.storeRead ?_ ?_ hstore, ?_⟩
    · rw [huid]
      exact hu
    · rw [huid]
      exact hbase
    · obtain ⟨mem, rfl⟩ := store_eq hstore
      exact huid
  · -- the thread waits again, with the same argument
    have hsame : Function.update w.base rt.thread.uid (w.base rt.thread.uid) = w.base :=
      Function.update_eq_self _ _
    constructor
    · change Advances L image w { w.setKernel k' with
        base := Function.update w.base rt.thread.uid (w.base rt.thread.uid) }
      rw [hsame]
      exact hadv
    · exact huid

lemma Sound.dispatch (h : Sound L image w) (ho : w.kernel.occupied = false)
    {frames : List (ℕ × UInt8)}
    (howns : ∀ rt ∈ (acquireFromPool w.kernel).1, w.Owns rt.thread.uid frames)
    (hok : w.dispatch frames = .ok w') : Advances L image w w' := by
  rcases dispatch_cases hok with ⟨k, hacquire, rfl⟩ | ⟨rt, k, w₁, hacquire, hok, hcase⟩
  · have hdispatch : Jokerix.dispatch w.kernel = .ok k := by rw [Jokerix.dispatch, hacquire]
    have hk : w.kernel.Keeps k ∧ k.threads = w.kernel.threads := by
      rw [acquireFromPool] at hacquire
      split at hacquire
      · obtain ⟨_, rfl⟩ := Prod.mk.inj hacquire
        exact ⟨⟨rfl, .refl _⟩, rfl⟩
      · cases hacquire
    exact h.keeps hk.1 (h.dispatch_steady ho hdispatch) (hk.2 ▸ .refl _)
  have howns := howns rt (by rw [hacquire]; rfl)
  obtain ⟨hlt, hocc, hthread, hk, hreaders, _⟩ := h.acquire hacquire
  have hu : rt.thread.uid < w.kernel.nextUid := h.live_lt hlt hocc (by rw [hthread])
  have hfirst : Advances L image w w₁ ∧ w₁.uid = rt.thread.uid := by
    rcases hcase with ⟨hcontext, hread⟩ | ⟨hcontext, rfl⟩
    · exact h.readAgain ho hacquire hcontext hread
    · have hdispatch : Jokerix.dispatch w.kernel = .ok (acquired k rt) := by
        rw [Jokerix.dispatch, hacquire]
        simp only
        rfl
      exact ⟨h.keeps hk (h.dispatch_steady ho hdispatch) hreaders, rfl⟩
  obtain ⟨hadv, huid⟩ := hfirst
  refine hadv.trans (hadv.sound.storeAll ?_ ?_ hok)
  · rw [huid]
    exact hu.trans_le hadv.nextUid
  · rw [huid]
    exact howns.congr hadv.places hu

/-! ### Executing a file -/

variable {z : Leftover} {files : Listing} {p : Packer} {e : Surroundings} {path : List UInt8}

/-- An execution that does not find its file is noted, and nothing else happens. -/
lemma sysExec_not_found (hres : lookup w.system.fs w.mem 0 path = 0)
    (hok : w.sysExec L e path = .ok w') :
    w' = w.setKernel (w.kernel.record (.execFailed w.uid)) := by
  rw [World.sysExec] at hok
  obtain ⟨st, hexec, hok⟩ := bind_eq_ok hok
  obtain rfl := sysExec_of_not_found hres hexec
  split at hok
  · exact (Except.ok.inj hok).symm
  · rw [if_pos (by rfl)] at hok
    exact (Except.ok.inj hok).symm

lemma Sound.execNotFound (h : Sound L image w) (ho : w.kernel.occupied = true)
    (hres : lookup w.system.fs w.mem 0 path = 0) (hok : w.sysExec L e path = .ok w') :
    Advances L image w w' := by
  obtain rfl := sysExec_not_found hres hok
  obtain ⟨ready, waiters, buffer, hsteady⟩ := h.steady
  have hstep : Jokerix.step w.kernel (.syscall (.exec none)) =
      .ok (w.kernel.record (.execFailed w.uid)) := if_pos ho
  obtain ⟨ready', waiters', buffer', hsteady', _⟩ := hsteady.step (fun h => by cases h) hstep
  exact h.keeps ⟨rfl, .refl _⟩ ⟨_, _, _, hsteady'⟩ (.refl _)

lemma Spawns.pos {content : List UInt8} {tid : ℕ} {st : System} {k : Kernel}
    (hs : Spawns L files w path content tid st k) : 0 < (BitVec.ofNat 32 content.length).toInt := by
  rw [toInt_ofNat hs.length]
  exact_mod_cast List.length_pos_iff.mpr hs.ne_nil

/-- What an execution that finds its file has done, and the root table of the child. -/
lemma Sound.spawns (h : Sound L p.image w) (ho : w.kernel.occupied = true)
    (hpacked : Packed z files p) (hnull : readPlace (w.root w.uid) w.mem 0 = none)
    (hres : lookup w.system.fs w.mem 0 path ≠ 0) (hok : w.sysExec L e path = .ok w') :
    ∃ content tid st k, Spawns L files w path content tid st k ∧
      w' = { w with
        system := { st with kernel := k }
        root := Function.update w.root w.kernel.nextUid (rootOf st.mem (st.contextAddr tid)) } := by
  obtain ⟨ready, waiters, buffer, hsteady⟩ := h.steady
  have hc := h.consistent
  rw [World.sysExec] at hok
  obtain ⟨st, hexec, hok⟩ := bind_eq_ok hok
  have hread : (fun va => (readPlace (w.root w.uid) w.mem va).map w.mem) 0 = none :=
    congrArg (Option.map w.mem) hnull
  generalize hprogram : (fun va => (readPlace (w.root w.uid) w.mem va).map w.mem) =
    program at hexec hread
  rw [Exec.sysExec] at hexec
  obtain ⟨⟨res, st₁⟩, hexec, hrest⟩ := bind_eq_ok hexec
  rcases executeCPU_cases hexec with ⟨hzero, _⟩ | ⟨rfl, hx⟩
  · exact absurd hzero hres
  simp only [if_true] at hrest
  obtain ⟨k₂, hyield, hst⟩ := bind_eq_ok hrest
  obtain rfl := Except.ok.inj hst
  obtain ⟨content, hat, hn, hne⟩ := hx.findsFile hread hc hpacked h.hasImage
  have hl := hx.loadsFile hc hn hne
  obtain ⟨b, _, hfile⟩ := hn.file
  have hlength := hfile.length_le
  have hpos : 0 < (BitVec.ofNat 32 content.length).toInt := by
    rw [toInt_ofNat (by omega)]
    exact_mod_cast List.length_pos_iff.mpr hne
  obtain ⟨tid, hslot⟩ : ∃ tid, allocTid w.kernel.threads = some tid := by
    obtain ⟨buf, h₁, root, m, kstack, h₂, c, k₁, _, _, _, _, hpool, _⟩ := hl.steps
    obtain ⟨tid, hslot, _⟩ := addToPool_rest hpool
    exact ⟨tid, hslot⟩
  obtain ⟨huid, hocc, hcur, _, _, kstack, hthreads⟩ := hl.kernel hc hpos hslot
  obtain ⟨_, hfree⟩ := allocTid_spec hslot
  have hlive : w.kernel.current.tid < maxThread ∧
      (w.kernel.threads w.kernel.current.tid).occupied = true := (hsteady.listed.current ho).1
  have hne' : w.kernel.current.tid ≠ tid := by
    rintro rfl
    have hfree : (w.kernel.threads w.kernel.current.tid).occupied = false := hfree
    rw [hlive.2] at hfree
    cases hfree
  have ho₁ : st₁.kernel.occupied = true := hocc.trans ho
  have hmine₁ : (st₁.kernel.threads st₁.kernel.current.tid).occupied = true := by
    rw [hcur, hthreads]
    exact (congrArg ThreadInfo.occupied (Function.update_of_ne hne' _ _)).trans hlive.2
  have huid₂ : k₂.nextUid = w.kernel.nextUid + 1 := (yieldCPU_keeps hyield).nextUid.trans huid
  -- the parent sleeps, and the child stays where it was put
  obtain ⟨k, hsleeps, _, _, hheap, hthreads₂⟩ :=
    yieldCPU_sleeps (k := st₁.kernel) (.sysExec w.kernel.nextUid) ho₁ hmine₁
  obtain rfl := Except.ok.inj (hsleeps.symm.trans hyield)
  have hslot₂ : (k.threads tid).thread.kstack = (st₁.kernel.threads tid).thread.kstack := by
    rw [hthreads₂, hcur]
    exact congrArg (fun info : ThreadInfo => info.thread.kstack)
      (Function.update_of_ne hne'.symm _ _)
  have hmem : System.mem { st₁ with kernel := k } = st₁.mem := congrArg KernelHeap.mem hheap
  have haddr : System.contextAddr { st₁ with kernel := k } tid = st₁.contextAddr tid := by
    rw [System.contextAddr, System.contextAddr, hslot₂]
  refine ⟨content, tid, st₁, k, ⟨hat, hne, by omega, hslot, hl, ho₁, hmine₁, hyield, huid₂⟩, ?_⟩
  rw [hslot] at hok
  simp only at hok
  rw [if_neg (by omega), hmem, haddr] at hok
  exact (Except.ok.inj hok).symm

section
variable {content : List UInt8} {tid : ℕ} {st : System} {k : Kernel}

/-- The parent sleeps, and nothing else happens to what was loaded. -/
lemma Spawns.asleep (hs : Spawns L files w path content tid st k) : k.heap = st.kernel.heap ∧
    k.threads = Function.update st.kernel.threads st.kernel.current.tid
      ⟨.sleeping, (st.kernel.threads st.kernel.current.tid).tid, true,
        { st.kernel.current.thread with context := .sysExec w.kernel.nextUid }⟩ := by
  obtain ⟨k', hsleeps, _, _, hheap, hthreads⟩ :=
    yieldCPU_sleeps (k := st.kernel) (.sysExec w.kernel.nextUid) hs.running hs.mine
  obtain rfl := Except.ok.inj (hsleeps.symm.trans hs.yields)
  exact ⟨hheap, hthreads⟩

/-- To the scheduler it is a call of `sys_exec` on a program. -/
lemma Spawns.follows (hs : Spawns L files w path content tid st k) (hc : Consistent L w.system)
    (ho : w.kernel.occupied = true) :
    ∃ prog, w.kernel.Follows k (.syscall (.exec (some prog))) := by
  have hlength := hs.length
  obtain ⟨prog, k₁, mem, _, habs, hk₁, hsame⟩ := hs.loads.agrees hc hs.pos (by omega)
  obtain ⟨_, _, _, _, hregion, _⟩ := hs.loads.kernel hc hs.pos hs.slot
  obtain ⟨hheap, _⟩ := hs.asleep
  have hk₁' : st.kernel.setMem k₁.heap.mem = k₁ := by rw [hk₁]; rfl
  have habs₂ := yieldCPU_setMem k₁.heap.mem hs.running hs.mine hs.yields
  rw [hk₁'] at habs₂
  refine ⟨prog, k₁.heap.mem, fun x hx => ?_, ?_⟩
  · rw [KernelHeap.Outside, hheap, hregion] at hx
    have hbound := hc.heap
    rw [hheap, hk₁]
    exact hsame x (by omega)
  · refine (if_pos ho).trans ?_
    simp only [Jokerix.syscall, Jokerix.sysExec]
    rw [show Jokerix.executeCPU w.kernel (some prog) w.kernel.current.tid =
      .ok (true, k₁) from habs]
    exact habs₂

lemma Spawns.readers (hs : Spawns L files w path content tid st k) (hc : Consistent L w.system) :
    SameReaders w.kernel.threads k.threads := by
  obtain ⟨_, _, _, _, _, kstack, hthreads⟩ := hs.loads.kernel hc hs.pos hs.slot
  rw [hs.asleep.2]
  refine SameReaders.trans ?_ (.update _ fun _ hpop => by cases hpop)
  rw [hthreads]
  exact .update tid fun _ hpop => by cases hpop

/-- The root tables once the child has one. -/
def childRoot (w : World) (tid : ℕ) (st : System) : ℕ → ℕ :=
  Function.update w.root w.kernel.nextUid (rootOf st.mem (st.contextAddr tid))

lemma childRoot_of_lt (hu : u < w.kernel.nextUid) : w.childRoot tid st u = w.root u :=
  Function.update_of_ne hu.ne _ _

/-- The table of the child joins those of the threads, wherever these lead. -/
lemma Spawns.space (hs : Spawns L files w path content tid st k) (hc : Consistent L w.system)
    {roots : List ℕ} (hreach : Reach L w.system.machine roots)
    (hroots : ∀ u < w.kernel.nextUid, w.root u ∈ roots) :
    Reach L (System.machine { st with kernel := k }) (rootOf st.mem (st.contextAddr tid) :: roots) ∧
      ∀ u < k.nextUid, w.childRoot tid st u ∈ rootOf st.mem (st.contextAddr tid) :: roots := by
  have hlength := hs.length
  obtain ⟨_, hreach', _⟩ := hs.loads.space hc hs.pos (by omega) hreach hs.slot
  refine ⟨?_, fun u hu => ?_⟩
  · rw [show System.machine { st with kernel := k } = st.machine by
      simp only [System.machine, System.mem, hs.asleep.1]]
    exact hreach'
  · rcases Nat.lt_succ_iff_lt_or_eq.mp (hu.trans_eq hs.nextUid) with hu | rfl
    · rw [childRoot_of_lt hu]
      exact List.mem_cons_of_mem _ (hroots u hu)
    · rw [childRoot, Function.update_self]
      exact List.mem_cons_self

/-- What a spawn leaves alone. -/
structure Spawns.Leaves (w : World) (tid : ℕ) (k : Kernel) (st : System) : Prop where
  fresh : ∀ u < w.kernel.nextUid, w.root u ≠ rootOf st.mem (st.contextAddr tid)
  place : ∀ u < w.kernel.nextUid, ∀ grants,
    access grants (w.root u) k.heap.mem = access grants (w.root u) w.mem
  load : ∀ u < w.kernel.nextUid, ∀ va q, loadPlace (w.root u) w.mem va = some q →
    k.heap.mem q = w.mem q
  below : ∀ x, x < w.kernel.heap.region.base → k.heap.mem x = w.mem x
  fs : st.fs = w.system.fs
  region : k.heap.region = w.kernel.heap.region

lemma Sound.leaves (h : Sound L image w) (hs : Spawns L files w path content tid st k) :
    Spawns.Leaves w tid k st := by
  have hc := h.consistent
  have hlength := hs.length
  obtain ⟨roots, hreach, hroots⟩ := h.spaces
  obtain ⟨hfresh, _, hothers, hbelow, _⟩ := hs.loads.space hc hs.pos (by omega) hreach hs.slot
  obtain ⟨_, _, _, hfs, hregion, _⟩ := hs.loads.kernel hc hs.pos hs.slot
  obtain ⟨hheap, _⟩ := hs.asleep
  refine ⟨fun u hu heq => hfresh (heq ▸ hroots u hu), fun u hu grants => ?_, fun u hu va q hq => ?_,
    fun x hx => ?_, hfs, ?_⟩
  · rw [hheap]
    exact (hothers _ (hroots u hu) grants).1
  · rw [hheap]
    exact (hothers _ (hroots u hu) _).2 userOnly_load va q hq
  · rw [hheap]
    exact hbelow x (.inl hx)
  · rw [hheap]
    exact hregion

/-- Threads with different numbers have different tables, and the child one that none has. -/
lemma Sound.childRoot_inj (h : Sound L image w) (hl : Spawns.Leaves w tid k st) {u' : ℕ}
    (hu : u < w.kernel.nextUid + 1) (hu' : u' < w.kernel.nextUid + 1)
    (heq : w.childRoot tid st u = w.childRoot tid st u') : u = u' := by
  have hnew : w.childRoot tid st w.kernel.nextUid = rootOf st.mem (st.contextAddr tid) :=
    Function.update_self ..
  rcases Nat.lt_succ_iff_lt_or_eq.mp hu with hu | rfl <;>
    rcases Nat.lt_succ_iff_lt_or_eq.mp hu' with hu' | rfl
  · rw [childRoot_of_lt hu, childRoot_of_lt hu'] at heq
    exact h.distinct u hu u' hu' heq
  · rw [childRoot_of_lt hu, hnew] at heq
    exact absurd heq (hl.fresh u hu)
  · rw [childRoot_of_lt hu', hnew] at heq
    exact absurd heq.symm (hl.fresh u' hu')
  · rfl

end

/-- The child gets an address space of its own, and the parent waits. -/
lemma Sound.execFound (h : Sound L p.image w) (ho : w.kernel.occupied = true)
    (hpacked : Packed z files p) (hnull : readPlace (w.root w.uid) w.mem 0 = none)
    (hres : lookup w.system.fs w.mem 0 path ≠ 0) (hok : w.sysExec L e path = .ok w') :
    Advances L p.image w w' := by
  obtain ⟨ready, waiters, buffer, hsteady⟩ := h.steady
  obtain ⟨roots, hreach, hroots⟩ := h.spaces
  have hc := h.consistent
  obtain ⟨content, tid, st, k, hs, rfl⟩ := h.spawns ho hpacked hnull hres hok
  have hl := h.leaves hs
  obtain ⟨prog, hfollows⟩ := hs.follows hc ho
  obtain ⟨_, _, _, hsteady', _⟩ := hsteady.follow hfollows (fun h => by cases h)
  obtain ⟨hreach', hroots'⟩ := hs.space hc hreach hroots
  have huid := hs.nextUid
  have himage := h.imageBelow
  have hreads : ∀ t u, t < maxThread → ReaderIn k.threads t u →
      (userPlace (w.childRoot tid st u) k.heap.mem (w.base u)).isSome := by
    intro t u ht hr
    have hr' := hs.readers hc t u hr
    have hu := h.reader_lt ht hr'
    rw [childRoot_of_lt hu, userPlace, hl.place u hu, ← userPlace]
    exact h.reads t u ht hr'
  refine ⟨⟨⟨_, _, _, hsteady'⟩, ?_, ?_, ?_, ⟨_, hreach', hroots'⟩, fun u hu u' hu' =>
    h.childRoot_inj hl (hu.trans_eq huid) (hu'.trans_eq huid), hreads, fun s hs =>
    ((h.stores s hs).trans (Nat.lt_succ_self _)).trans_eq huid.symm⟩, ?_,
    fun u hu => ⟨childRoot_of_lt hu, hl.place u hu⟩, ?_, hl.region, hl.below, ?_⟩
  · exact h.hasImage.congr hl.fs fun x _ hx => hl.below x (hx.trans_le himage)
  · change st.fs.img + imageSize ≤ k.heap.region.base
    rw [hl.region, hl.fs]
    exact himage
  · change k.heap.region.base + kernelHeapSize ≤ L.kernelEnd
    rw [hl.region]
    exact h.heapBelow
  · exact (Nat.le_succ _).trans_eq huid.symm
  · exact .same rfl fun u hu => load_congr (childRoot_of_lt hu) (hl.place u hu _) (hl.load u hu)
  · rintro r ⟨others, hothers, hr, hall⟩
    obtain ⟨hspace, hroot⟩ := hs.space hc hothers hall
    exact ⟨_, hspace, List.mem_cons_of_mem _ hr, hroot⟩

/-! ### Runs -/

/-- The events on what the trap has left. -/
lemma Sound.handle {ev : Event} (h : Sound L p.image w) (hpacked : Packed z files p)
    (hbehaves : w.Behaves ev) (hok : w.handle L ev = .ok w') : Advances L p.image w w' := by
  obtain ⟨ready, waiters, buffer, hsteady⟩ := h.steady
  have hstay : w = w' → Advances L p.image w w' := by
    rintro rfl
    exact h.refl
  have hsteps : ∀ ke {k}, Jokerix.step w.kernel ke = .ok k →
      (ke = .syscall .exit → w.kernel.occupied = true → w.uid ≠ 0) →
      ∃ ready waiters buffer, Steady (· = 0) k ready waiters buffer := by
    intro ke k hstep hno
    obtain ⟨_, _, _, hsteady', _⟩ := hsteady.step hno hstep
    exact ⟨_, _, _, hsteady'⟩
  cases ev with
  | dispatch frames =>
    rw [World.handle] at hok
    split_ifs at hok with ho
    · exact hstay (Except.ok.inj hok)
    · have ho' := Bool.eq_false_iff.mpr ho
      exact h.dispatch ho' (fun rt hrt => (hbehaves.2 ho' rt hrt).1) hok
  | tick trap =>
    obtain ⟨k, htick, hok⟩ := bind_eq_ok hok
    obtain rfl := Except.ok.inj hok
    exact h.keeps (tickCPU_keeps htick) (hsteps .tick htick (fun h => by cases h))
      (tickCPU_readers htick)
  | keyboard ret trap =>
    obtain ⟨k, hkey, hok⟩ := bind_eq_ok hok
    obtain rfl := Except.ok.inj hok
    exact h.keeps (external_keeps hsteady.seen.heap hkey)
      (hsteps (.keyboard ret) hkey (fun h => by cases h)) (external_readers hkey)
  | store va b =>
    rw [World.handle] at hok
    split_ifs at hok with ho
    · exact h.store (h.uid_lt ho) hok
    · exact hstay (Except.ok.inj hok)
  | write trap => exact hstay (Except.ok.inj hok)
  | exit trap =>
    rw [World.handle] at hok
    split_ifs at hok with ho
    · obtain ⟨k, hexit, hok⟩ := bind_eq_ok hok
      obtain rfl := Except.ok.inj hok
      exact h.keeps (exitFromCPU_keeps hexit)
        (hsteps (.syscall .exit) ((if_pos ho).trans hexit) fun _ => hbehaves.2)
        (exitFromCPU_readers hexit)
    · exact hstay (Except.ok.inj hok)
  | read base trap =>
    rw [World.handle] at hok
    split_ifs at hok with ho
    · exact h.sysRead ho (hbehaves.2 ho).1 hok
    · exact hstay (Except.ok.inj hok)
  | exec e path trap =>
    rw [World.handle] at hok
    split_ifs at hok with ho
    · by_cases hres : lookup w.system.fs w.mem 0 path = 0
      · exact h.execNotFound ho hres hok
      · exact h.execFound ho hpacked (hbehaves.2 ho) hres hok
    · exact hstay (Except.ok.inj hok)

/-- What a trap stores changes nothing of what the program has to keep to. -/
lemma Sound.behaves_save {ev : Event} (h : Sound L image w) (hbehaves : w.Behaves ev)
    (hok : w.save ev.saved = .ok w') : w'.Behaves ev := by
  obtain ⟨hadv, mem, stores, rfl⟩ := h.save hbehaves.1 hok
  obtain ⟨hsaved, hbehaves⟩ := hbehaves
  refine ⟨fun ho => (hsaved ho).congr hadv.places (h.uid_lt ho), ?_⟩
  cases ev with
  | dispatch frames =>
    intro ho rt hrt
    have hrt : rt ∈ (acquireFromPool w.kernel).1 := by
      rw [← acquireFromPool_setMem w.kernel mem]
      exact hrt
    obtain ⟨hlt, hocc, hthread, _⟩ := h.acquire (Prod.ext hrt rfl)
    obtain ⟨howns, hread⟩ := hbehaves ho rt hrt
    exact ⟨howns.congr hadv.places (h.live_lt hlt hocc (by rw [hthread])), hread⟩
  | read base trap =>
    intro ho
    obtain ⟨hbase, huses⟩ := hbehaves ho
    refine ⟨?_, huses⟩
    have hsame : userPlace (w.root w.uid) mem = userPlace (w.root w.uid) w.mem :=
      (hadv.places _ (h.uid_lt ho)).2 _
    change (userPlace (w.root w.uid) mem base).isSome
    rw [hsame]
    exact hbase
  | exec e path trap =>
    intro ho
    have hsame : readPlace (w.root w.uid) mem = readPlace (w.root w.uid) w.mem :=
      (hadv.places _ (h.uid_lt ho)).2 _
    change readPlace (w.root w.uid) mem 0 = none
    rw [hsame]
    exact hbehaves ho
  | exit trap => exact hbehaves
  | _ => trivial

/-- Step lemma. -/
theorem Sound.step {ev : Event} (h : Sound L p.image w) (hpacked : Packed z files p)
    (hbehaves : w.Behaves ev) (hok : w.step L ev = .ok w') : Advances L p.image w w' := by
  obtain ⟨w₁, hsave, hhandle⟩ := bind_eq_ok hok
  have hadv := (h.save hbehaves.1 hsave).1
  exact hadv.trans (hadv.sound.handle hpacked (h.behaves_save hbehaves hsave) hhandle)

/-- Run lemma. -/
theorem Sound.run {es : List Event} (h : Sound L p.image w) (hpacked : Packed z files p)
    (hbehaves : w.BehavesOn L es) (hok : w.run L es = .ok w') : Advances L p.image w w' := by
  induction es generalizing w with
  | nil =>
    obtain rfl := Except.ok.inj hok
    exact h.refl
  | cons ev es ih =>
    obtain ⟨hfirst, hrest⟩ := hbehaves
    rw [World.run] at hok
    split at hok
    · cases hok
    · rename_i w₁ hstep
      have hadv := h.step hpacked hfirst hstep
      exact hadv.trans (ih hadv.sound (hrest w₁ hstep) hok)

end

end World

end Jokerix
