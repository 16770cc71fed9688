import Jokerix.World.Safety

/-!
# Programs and their memory

Every thread runs a file of the image: the one that the path of its `sys_exec` leads to, or the
shell. What it finds in memory, at any time, is what the file describes and what was stored for it
since.
-/

namespace Jokerix

open Exec

namespace World

/-- The paths of the executions that create a thread. -/
def execs (L : Layout) (w : World) : List Event → List (List UInt8)
  | [] => []
  | ev :: es =>
    match w.step L ev with
    | .error _ => []
    | .ok w' =>
      match ev with
      | .exec _ path _ =>
        if w'.kernel.nextUid = w.kernel.nextUid then w'.execs L es else path :: w'.execs L es
      | _ => w'.execs L es

/-- The threads in the order of their numbers run the files at these paths. -/
structure Programs (files : Listing) (paths : List (List UInt8)) (w : World) : Prop where
  count : w.kernel.nextUid = paths.length
  memory : ∀ u path, paths[u]? = some path → ∃ content, fileAt files path = some content ∧
    (WellFormedElf content → w.load u = putAll (initialByte content) (w.stores.filter (·.uid = u)))

section
variable {L : Layout} {image : Bytes.Memory} {z : Leftover} {files : Listing} {p : Packer}
  {w w' : World} {ev : Event} {es : List Event} {e : Surroundings} {path : List UInt8}
  {paths : List (List UInt8)}

/-! ### Who creates threads -/

lemma sysRead_nextUid {base : ℕ} {v : View} (hok : w.sysRead base = .ok w')
    (hs : HeapSeen w.kernel.heap w.kernel.buf w.kernel.waitQueue v) :
    w'.kernel.nextUid = w.kernel.nextUid := by
  obtain ⟨k, hpop, ⟨_, hstore⟩ | ⟨_, rfl⟩⟩ := sysRead_cases hok
  · obtain ⟨mem, rfl⟩ := store_eq hstore
    exact (popChar_keeps hs hpop).nextUid
  · exact (popChar_keeps hs hpop).nextUid

lemma acquireFromPool_rest {k k' : Kernel} {rt : Option RunningThread}
    (h : acquireFromPool k = (rt, k')) : k'.nextUid = k.nextUid ∧ k'.heap = k.heap ∧
    k'.buf = k.buf ∧
      k'.waitQueue = k.waitQueue := by
  rw [acquireFromPool] at h
  split at h
  · obtain ⟨_, rfl⟩ := Prod.mk.inj h
    exact ⟨rfl, rfl, rfl, rfl⟩
  · obtain ⟨_, rfl⟩ := Prod.mk.inj h
    exact ⟨rfl, rfl, rfl, rfl⟩

/-- Only an execution creates a thread. -/
lemma Sound.handle_nextUid (h : Sound L image w) (hev : ∀ e path trap, ev ≠ .exec e path trap)
    (hok : w.handle L ev = .ok w') : w'.kernel.nextUid = w.kernel.nextUid := by
  obtain ⟨ready, waiters, buffer, hsteady⟩ := h.steady
  have hstay : w = w' → w'.kernel.nextUid = w.kernel.nextUid := by
    rintro rfl
    rfl
  cases ev with
  | dispatch frames =>
    rw [World.handle] at hok
    split_ifs at hok
    · exact hstay (Except.ok.inj hok)
    · rcases dispatch_cases hok with ⟨k, hacquire, rfl⟩ | ⟨rt, k, w₁, hacquire, hok, hcase⟩
      · exact (acquireFromPool_rest hacquire).1
      · obtain ⟨huid, hheap, hbuf, hwait⟩ := acquireFromPool_rest hacquire
        have hseen := hsteady.seen.heap
        rw [← hheap, ← hbuf, ← hwait] at hseen
        obtain ⟨mem, stores, rfl⟩ := storeAll_eq hok
        rcases hcase with ⟨_, hread⟩ | ⟨_, rfl⟩
        · have hsame := sysRead_nextUid hread hseen
          exact hsame.trans huid
        · exact huid
  | tick trap =>
    obtain ⟨k, htick, hok⟩ := bind_eq_ok hok
    obtain rfl := Except.ok.inj hok
    exact (tickCPU_keeps htick).nextUid
  | keyboard ret trap =>
    obtain ⟨k, hkey, hok⟩ := bind_eq_ok hok
    obtain rfl := Except.ok.inj hok
    exact (external_keeps hsteady.seen.heap hkey).nextUid
  | store va b =>
    rw [World.handle] at hok
    split_ifs at hok with ho
    · obtain ⟨mem, rfl⟩ := store_eq hok
      rfl
    · exact hstay (Except.ok.inj hok)
  | write trap => exact hstay (Except.ok.inj hok)
  | exit trap =>
    rw [World.handle] at hok
    split_ifs at hok
    · obtain ⟨k, hexit, hok⟩ := bind_eq_ok hok
      obtain rfl := Except.ok.inj hok
      exact (exitFromCPU_keeps hexit).nextUid
    · exact hstay (Except.ok.inj hok)
  | read base trap =>
    rw [World.handle] at hok
    split_ifs at hok with ho
    · exact sysRead_nextUid hok hsteady.seen.heap
    · exact hstay (Except.ok.inj hok)
  | exec e path trap => exact absurd rfl (hev e path trap)

/-- What an execution does: it creates no thread when the path names no file, and otherwise the next
one with the memory that the file describes. -/
lemma Sound.exec_spawns (h : Sound L p.image w) (hpacked : Packed z files p) {trap : Trap}
    (hbehaves : w.Behaves (.exec e path trap)) (hok : w.handle L (.exec e path trap) = .ok w') :
    w'.kernel.nextUid = w.kernel.nextUid ∧
        (w.kernel.occupied = true → fileAt files path = none) ∨
      w'.kernel.nextUid = w.kernel.nextUid + 1 ∧ w'.stores = w.stores ∧
        ∃ content, fileAt files path = some content ∧
          (WellFormedElf content → w'.load w.kernel.nextUid = initialByte content) := by
  rw [World.handle] at hok
  split_ifs at hok with ho
  swap
  · obtain rfl := Except.ok.inj hok
    exact .inl ⟨rfl, fun h => absurd h ho⟩
  by_cases hres : lookup w.system.fs w.mem 0 path = 0
  · obtain rfl := sysExec_not_found hres hok
    exact .inl ⟨rfl, fun _ => h.hasImage.fileAt_eq_none hpacked hres⟩
  obtain ⟨roots, hreach, _⟩ := h.spaces
  obtain ⟨content, tid, st, k, hs, rfl⟩ := h.spawns ho hpacked (hbehaves.2 ho) hres hok
  refine .inr ⟨hs.nextUid, rfl, content, hs.file, fun hwf => ?_⟩
  funext va
  have hload := hs.loads.load h.consistent hwf hs.length hreach hs.slot va
  have hmem : k.heap.mem = st.mem := congrArg KernelHeap.mem hs.asleep.1
  rw [World.load]
  change (loadPlace (w.childRoot tid st w.kernel.nextUid) k.heap.mem va).map k.heap.mem = _
  rw [childRoot, Function.update_self, hmem]
  exact hload

/-! ### Runs -/

/-- The threads there are have made some stores of their own. -/
lemma Advances.programs (hadv : Advances L image w w') {u : ℕ} (hu : u < w.kernel.nextUid)
    {f : ℕ → Option UInt8} (hload : w.load u = putAll f (w.stores.filter (·.uid = u))) :
    w'.load u = putAll f (w'.stores.filter (·.uid = u)) := by
  obtain ⟨new, hnew, hsame⟩ := hadv.isPrivate
  rw [hsame u hu, hload, hnew, List.filter_append, putAll, putAll, putAll, List.foldl_append]

lemma Programs.lt (hp : Programs files paths w) {u : ℕ} (hu : paths[u]? = some path) :
    u < w.kernel.nextUid := by
  rw [hp.count]
  exact (List.getElem?_eq_some_iff.mp hu).1

lemma Programs.keep (hp : Programs files paths w) (hadv : Advances L image w w')
    (huid : w'.kernel.nextUid = w.kernel.nextUid) : Programs files paths w' := by
  refine ⟨huid.trans hp.count, fun u path hu => ?_⟩
  obtain ⟨content, hat, hload⟩ := hp.memory u path hu
  exact ⟨content, hat, fun hwf => hadv.programs (hp.lt hu) (hload hwf)⟩

lemma Programs.spawn (hp : Programs files paths w) (h : Sound L image w)
    (hadv : Advances L image w w')
    (huid : w'.kernel.nextUid = w.kernel.nextUid + 1) (hstores : w'.stores = w.stores)
    {content : List UInt8} (hat : fileAt files path = some content)
    (hload : WellFormedElf content → w'.load w.kernel.nextUid = initialByte content) :
    Programs files (paths ++ [path]) w' := by
  refine ⟨?_, fun u path' hu => ?_⟩
  · rw [huid, hp.count, List.length_append, List.length_singleton]
  · rw [List.getElem?_append] at hu
    split_ifs at hu with hlt
    · obtain ⟨content', hat', hload'⟩ := hp.memory u path' hu
      exact ⟨content', hat', fun hwf => hadv.programs (hp.lt hu) (hload' hwf)⟩
    · -- nothing was stored for the new thread yet
      obtain ⟨hlast, hpath⟩ := List.getElem?_eq_some_iff.mp hu
      rw [List.length_singleton] at hlast
      obtain rfl : u = w.kernel.nextUid := by
        rw [hp.count]
        omega
      rw [List.getElem_singleton] at hpath
      subst hpath
      have hnone : w'.stores.filter (·.uid = w.kernel.nextUid) = [] := by
        rw [hstores, List.filter_eq_nil_iff]
        intro s hs
        have hlt := h.stores s hs
        simpa using hlt.ne
      refine ⟨content, hat, fun hwf => ?_⟩
      rw [hload hwf, hnone]
      rfl

/-- Run lemma. -/
theorem Programs.run (hp : Programs files paths w) (h : Sound L p.image w)
    (hpacked : Packed z files p) (hbehaves : w.BehavesOn L es) (hok : w.run L es = .ok w') :
    Programs files (paths ++ w.execs L es) w' := by
  induction es generalizing w paths with
  | nil =>
    obtain rfl := Except.ok.inj hok
    rw [execs, List.append_nil]
    exact hp
  | cons ev es ih =>
    obtain ⟨hfirst, hrest⟩ := hbehaves
    rw [World.run] at hok
    split at hok
    · cases hok
    rename_i w' hstep
    have hlater := hrest w' hstep
    obtain ⟨w₁, hsave, hhandle⟩ := bind_eq_ok hstep
    obtain ⟨hadv, mem, stores, heq⟩ := h.save hfirst.1 hsave
    have hfirst₁ := h.behaves_save hfirst hsave
    have huid₁ : w₁.kernel.nextUid = w.kernel.nextUid := by rw [heq]; rfl
    have hp₁ := hp.keep hadv huid₁
    have hadv' := hadv.sound.handle hpacked hfirst₁ hhandle
    rw [execs, hstep]
    by_cases hev : ∃ e path trap, ev = .exec e path trap
    · obtain ⟨e, path, trap, rfl⟩ := hev
      simp only
      rcases hadv.sound.exec_spawns hpacked hfirst₁ hhandle with
        ⟨hsame, _⟩ | ⟨huid, hstores, content, hat, hload⟩
      · rw [if_pos (hsame.trans huid₁)]
        exact ih (hp₁.keep hadv' hsame) hadv'.sound hlater hok
      · rw [if_neg (by omega), ← List.singleton_append, ← List.append_assoc]
        exact ih (hp₁.spawn hadv.sound hadv' huid hstores hat hload) hadv'.sound hlater hok
    · push Not at hev
      have huid := hadv.sound.handle_nextUid hev hhandle
      have hnext := ih (hp₁.keep hadv' huid) hadv'.sound hlater hok
      cases ev with
      | exec e path trap => exact absurd rfl (hev e path trap)
      | _ => exact hnext

end

end World

/-- The shell that was started has the memory that its file describes. -/
lemma Exec.Starts.programs {L : Layout} {image : Bytes.Memory} {files : Listing}
    {content : List UInt8} {st st' : System} (h : Starts L image content st st')
    (hat : fileAt files shellPath = some content) :
    World.Programs files [shellPath] (World.ofSystem st') := by
  obtain ⟨hlength, hpos⟩ := h.length_lt
  obtain ⟨root, hreach⟩ := h.spaces
  have hslot := allocTid_free (h.free 0)
  obtain ⟨huid, _⟩ := h.loads.kernel h.consistent hpos hslot
  have huid : st'.kernel.nextUid = 1 := huid.trans (congrArg (· + 1) h.nextUid)
  refine ⟨huid, fun u path hu => ?_⟩
  obtain ⟨hlast, hpath⟩ := List.getElem?_eq_some_iff.mp hu
  rw [List.length_singleton, Nat.lt_one_iff] at hlast
  subst hlast
  obtain rfl : shellPath = path := hpath
  refine ⟨content, hat, fun hwf => ?_⟩
  funext va
  exact h.loads.load h.consistent hwf hlength hreach hslot va

end Jokerix
