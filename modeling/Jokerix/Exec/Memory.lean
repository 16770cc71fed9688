import Jokerix.Exec.FirstEntry
import Jokerix.Sched.Refine
import Jokerix.Vm.ProgramMemory

/-!
# The memory after an execution

Below the end of the kernel an execution stores the bytes of the file in its buffer and the words of
a context on the new kernel stack, and nothing else. The scheduler's view of `executeCPU`, which is
given the file and the context, is exact there; the pages and the tables of the program lie behind.
What the program finds in its pages is told by the file.
-/

namespace Jokerix

section
variable {h h' : KernelHeap} {size : BitVec 32} {ptr B : ℕ} {mem : Bytes.Memory}

/-- Two memories are the same below a bound. -/
def SameBelow (B : ℕ) (mem mem' : Bytes.Memory) : Prop := ∀ x < B, mem' x = mem x

/-- `kalloc` finds the same block in both memories and clears it. -/
lemma SameBelow.kalloc (hmem : SameBelow B h.mem mem) (hok : kalloc h size = .ok (ptr, h')) :
    ∃ mem', kalloc { h with mem } size = .ok (ptr, { h' with mem := mem' }) ∧
      SameBelow B h'.mem mem' := by
  rw [Jokerix.kalloc] at hok ⊢
  split_ifs at hok ⊢
  · obtain ⟨rfl, rfl⟩ := Prod.mk.inj (Except.ok.inj hok)
    exact ⟨mem, rfl, hmem⟩
  · simp only at hok ⊢
    cases halloc : buddyAlloc h.tree (kallocBlocks size) with
    | none => rw [halloc] at hok; cases hok
    | some found =>
      obtain ⟨block, tree⟩ := found
      rw [halloc] at hok
      simp only at hok ⊢
      split_ifs at hok ⊢
      obtain ⟨rfl, rfl⟩ := Prod.mk.inj (Except.ok.inj hok)
      refine ⟨_, rfl, fun x hx => ?_⟩
      change Bytes.fill mem _ _ _ x = Bytes.fill h.mem _ _ _ x
      rw [Bytes.fill_apply, Bytes.fill_apply, hmem x hx]

end

/-- A memory that differs from another one in a range only. -/
lemma eq_store_load {mem mem' : Bytes.Memory} {a n : ℕ}
    (h : ∀ x, x < a ∨ a + n ≤ x → mem' x = mem x) :
    mem' = Bytes.store mem a (Bytes.load mem' a n) := by
  funext x
  by_cases hx : a ≤ x ∧ x < a + n
  · rw [Bytes.store_of_mem hx.1 (by rw [Bytes.length_load]; exact hx.2), Bytes.getD_load (by omega),
      Nat.add_sub_cancel' hx.1]
  · rw [Bytes.store_of_not_mem (by rw [Bytes.length_load]; omega), h x (by omega)]

namespace Exec

/-! ### The context -/

lemma storeContext_of_not_mem {mem : Bytes.Memory} {a x : ℕ} {c : ThreadContext}
    (h : x < a ∨ a + sizeofThreadContext ≤ x) : storeContext mem a c x = mem x := by
  simp only [sizeofThreadContext] at h
  simp only [storeContext]
  rw [Bytes.storeLE_of_not_mem (by omega), Bytes.storeLE_of_not_mem (by omega),
    Bytes.storeArray_of_not_mem (by omega), Bytes.storeArray_of_not_mem (by omega),
    Bytes.storeLE_of_not_mem (by omega), Bytes.storeLE_of_not_mem (by omega)]

/-- The root table that a saved context leads to. -/
def rootOf (mem : Bytes.Memory) (contextAddr : ℕ) : ℕ :=
  Bytes.loadLE 8 mem (contextAddr + 8) % 2 ^ 44

lemma satpOf_mod {root : ℕ} (h : root < 2 ^ 44) : satpOf root % 2 ^ 64 % 2 ^ 44 = root := by
  have hor : satpOf root = 2 ^ 60 * 8 + root := by
    rw [satpOf, Nat.or_comm, Nat.mul_comm, Nat.two_pow_add_eq_or_of_lt (by omega)]
  rw [hor]
  omega

lemma rootOf_storeContext (mem : Bytes.Memory) (a : ℕ) (c : ThreadContext) :
    rootOf (storeContext mem a c) a = c.satp % 2 ^ 64 % 2 ^ 44 := by
  simp only [rootOf, storeContext]
  rw [Bytes.loadLE_storeLE_of_disjoint (by omega), Bytes.loadLE_storeLE_of_disjoint (by omega),
    Bytes.loadLE_congr fun x h1 h2 => Bytes.storeArray_of_not_mem (by omega),
    Bytes.loadLE_congr fun x h1 h2 => Bytes.storeArray_of_not_mem (by omega),
    Bytes.loadLE_storeLE_same]
  norm_num

/-! ### The memory that a file describes -/

/-- What a program loads from an address when it starts. -/
def initialByte (content : List UInt8) (va : ℕ) : Option UInt8 :=
  programByte (fileMemory content) 0 va

/-- The one byte of the data, the rest of its page, the stack, and an address without a page. -/
example : [0x10000, 0x10001, userStackOffset, 0].map (initialByte (oneByteElf 0x10000)) =
    [some 0x13, some 0, some 0, none] := by
  decide +kernel

section
variable {L : Layout} {mem : Bytes.Memory} {buf : ℕ} {content : List UInt8}

lemma WellFormedElf.insideBuffer (hwf : WellFormedElf content) (h : BufferHolds mem buf content)
    (hend : buf + content.length ≤ L.kernelEnd) : InsideBuffer L mem buf content.length := by
  have hread := h.readElfHeader hwf.header
  have htable := hwf.table
  refine ⟨hend, hwf.header, by rw [hread]; exact htable, fun i hi => ?_⟩
  rw [hread] at hi ⊢
  have hle : (i + 1) * sizeofProgHeader ≤ (fileHeader content).phnum * sizeofProgHeader :=
    Nat.mul_le_mul_right _ hi
  rw [Nat.succ_mul] at hle
  have hph : progHeader mem (buf + (fileHeader content).phoff) i =
      progHeader (fileMemory content) (fileHeader content).phoff i := by
    rw [progHeader, Nat.add_assoc]
    exact h.readProgHeader (by omega)
  rw [hph]
  exact hwf.data i hi

/-- A copy of a file describes the same memory. -/
lemma WellFormedElf.programByte (hwf : WellFormedElf content) (h : BufferHolds mem buf content)
    (va : ℕ) : Jokerix.programByte mem buf va = initialByte content va := by
  have htable := hwf.table
  have hheaders : loadHeaders mem buf = loadHeaders (fileMemory content) 0 := by
    simp only [loadHeaders]
    rw [h.readElfHeader hwf.header]
    change _ = ((List.range (fileHeader content).phnum).map (progHeader (fileMemory content)
      (0 + (fileHeader content).phoff))).filter _
    congr 1
    refine List.map_congr_left fun i hi => ?_
    have hle : (i + 1) * sizeofProgHeader ≤ (fileHeader content).phnum * sizeofProgHeader :=
      Nat.mul_le_mul_right _ (List.mem_range.mp hi)
    rw [Nat.succ_mul] at hle
    rw [progHeader, Nat.add_assoc, Nat.zero_add]
    exact h.readProgHeader (by omega)
  have hbyte : ∀ ph ∈ loadHeaders (fileMemory content) 0, ∀ i,
      ph.byte mem buf i = ph.byte (fileMemory content) 0 i := by
    intro ph hph i
    obtain ⟨hload, j, hj, hread⟩ := mem_loadHeaders hph
    have hdata := hwf.data j hj
    rw [Nat.zero_add] at hread
    rw [show progHeader (fileMemory content) (fileHeader content).phoff j = ph from hread] at hdata
    obtain ⟨hoff, _⟩ := hdata hload
    rw [ProgHeader.byte, ProgHeader.byte]
    split_ifs with hi
    · rw [Nat.add_assoc, h _ (by omega), Nat.zero_add]
      rfl
    · rfl
  simp only [initialByte, Jokerix.programByte, hheaders]
  refine if_congr Iff.rfl ?_ rfl
  cases hfind : (loadHeaders (fileMemory content) 0).find?
    (·.segment.Has (va % 2 ^ 64 / pageSize)) with
  | some ph =>
    simp only
    rw [hbyte ph (List.mem_of_find?_eq_some hfind)]
  | none => rfl

end

/-! ### What an execution reads -/

/-- The file that `lookup` finds at a path. -/
def fileAt (root : Listing) (path : List UInt8) : Option (List UInt8) :=
  (root.graph.search slash [] path).bind fun node =>
    match root.place node with
    | some (_, .file content) => some content
    | _ => none

section
variable {L : Layout} {e : Surroundings} {st st' : System} {path content : List UInt8} {hostTid : ℤ}
  {tid : ℕ} {roots : List ℕ}

/-- A thread is created from a file that is not empty, unless a null pointer can be read. -/
lemma Executed.size_pos (hx : Executed L e st path hostTid st') (hnull : e.program 0 = none) :
    0 < (BitVec.ofNat 32 (readInode st.mem (lookup st.fs st.mem 0 path)).size).toInt := by
  obtain ⟨buf, h, r, t, h', k', hbuf, _, hcreated, _⟩ := hx.steps
  obtain ⟨root, m, _, hmap, _⟩ := hcreated.steps
  by_contra hle
  rw [kalloc, if_pos (not_lt.mp hle)] at hbuf
  obtain ⟨rfl, rfl⟩ := Prod.mk.inj (Except.ok.inj hbuf)
  exact newProgramMapping_null hnull hmap

/-- A path that leads to nothing names no file. -/
lemma HasImage.fileAt_eq_none {z : Leftover} {root : Listing} {p : Packer}
    (himg : HasImage st p.image) (hpacked : Packed z root p)
    (hres : lookup st.fs st.mem 0 path = 0) : fileAt root path = none := by
  obtain ⟨hlookup, hplace⟩ := himg.lookup_search hpacked path
  cases hsearch : root.graph.search slash [] path with
  | none => rw [fileAt, hsearch, Option.bind_none]
  | some node =>
    rw [hres, hsearch] at hlookup
    exact absurd hlookup.symm (hpacked.inodeAddr_ne_zero _ (hplace node hsearch))

/-- On a packed image an execution that succeeds has read a file. -/
lemma Executed.findsFile {z : Leftover} {root : Listing} {p : Packer}
    (hx : Executed L e st path hostTid st') (hnull : e.program 0 = none) (hc : Consistent L st)
    (hpacked : Packed z root p) (himg : HasImage st p.image) :
    ∃ content, fileAt root path = some content ∧ FindsFile st path content ∧ content ≠ [] := by
  have hsize := hx.size_pos hnull
  obtain ⟨hlookup, hplaces⟩ := himg.lookup_search hpacked path
  cases hsearch : root.graph.search slash [] path with
  | none =>
    rw [hsearch] at hlookup
    exact absurd hlookup hx.found
  | some node =>
    rw [hsearch] at hlookup
    have hplace := hplaces node hsearch
    obtain ⟨⟨k, entry⟩, hplace⟩ := Option.isSome_iff_exists.mp hplace
    obtain ⟨name, hin⟩ := hpacked.place hplace
    cases entry with
    | file content =>
      have hn : FindsFile st path content :=
        ⟨hx.found, _, hlookup, (FileAt.fileIn hin hpacked.inv).congr himg.image.bytes⟩
      refine ⟨content, by rw [fileAt, hsearch, Option.bind_some, hplace], hn, ?_⟩
      rintro rfl
      rw [hn.size hc] at hsize
      exact absurd hsize (by decide)
    | dir d =>
      obtain ⟨bs, hat, _⟩ := hin
      have hdir : FindsDir st path :=
        ⟨hx.found, _, hpacked.inv.lt_of_mem hat.used, hlookup, himg.type_dir hpacked hat⟩
      obtain ⟨buf, h, r, t, h', k', hbuf, hread, _⟩ := hx.steps
      obtain ⟨b, hb, hres, htype⟩ := hdir.dir
      have hnot : (readInode h.mem (lookup st.fs st.mem 0 path)).type ≠ typeFile := by
        rw [hres, ((hc.imageAt_kalloc hbuf).inode hb).type, htype]
        decide
      rw [readall] at hread
      simp only [if_pos hnot] at hread
      cases hread

/-- The steps of an execution that read the content of a file. -/
structure LoadsFile (L : Layout) (st : System) (content : List UInt8) (hostTid : ℤ) (st' : System) :
    Prop where
  steps : ∃ buf h root m kstack h₁ c k',
    kalloc st.kernel.heap (BitVec.ofNat 32 content.length) = .ok (buf, h) ∧
    newUserThreadMapping L ⟨Bytes.store h.mem buf content, st.sta⟩ buf = .ok (root, m) ∧
    kalloc { h with mem := m.mem } (BitVec.ofNat 32 kernelStackSize) = .ok (kstack, h₁) ∧
    c.satp = satpOf root ∧
    addToPool { st.kernel with heap := kfree { h₁ with
      mem := storeContext h₁.mem (kstack + kernelStackSize - sizeofThreadContext) c } buf }
      ⟨.user, kstack, hostTid, 0⟩ = .ok k' ∧
    st' = ⟨k'.record (.execOk st.kernel.current.thread.uid st.kernel.nextUid), st.fs, m.sta⟩

lemma Executed.loadsFile (hx : Executed L e st path hostTid st') (hc : Consistent L st)
    (hn : FindsFile st path content) (hne : content ≠ []) : LoadsFile L st content hostTid st' := by
  have hsize := hn.size hc
  obtain ⟨b, hb, hf⟩ := hn.file
  obtain ⟨buf, h, r, t, h', k', hbuf, hread, hcreated, hpool, hkernel, hfs⟩ := hx.steps
  obtain ⟨root, m, h₁, hmap, halloc, rfl, hsta⟩ := hcreated.steps
  rw [hsize] at hbuf
  -- the buffer lies behind the image, so that the file is copied as it is there
  have hlen := hf.length_le
  have hpos := List.length_pos_iff.mpr hne
  have hint := toInt_ofNat (show content.length < 2 ^ 31 by omega)
  have hbytes := le_kallocBytes (show 0 < (BitVec.ofNat 32 content.length).toInt by omega)
  obtain ⟨blocks, hblocks⟩ := hc.blocks
  obtain ⟨hh, _, hregion, _⟩ := hblocks.kalloc (by omega) hbuf
  obtain ⟨_, hlow, hhigh⟩ := hh.inside List.mem_cons_self
  have himage := hc.image
  have hfits := h.region.fits
  have hbase := h.region.pos
  rw [hint] at hbytes
  rw [hregion] at hlow hhigh hfits hbase
  simp only at hlow hhigh
  obtain ⟨r', hread', _, hmem⟩ := hf.readall (hc.imageAt_kalloc hbuf)
    (show buf + content.length ≤ st.fs.img ∨ st.fs.img + imageSize ≤ buf by omega) (by omega) hne
  rw [hb, hread'] at hread
  obtain rfl := Except.ok.inj hread
  rw [newProgramMapping_of_ne (by omega), hmem] at hmap
  rw [hcreated.thread] at hpool
  refine ⟨buf, h, root, m, t.kstack, h₁, _, k', hbuf, hmap, halloc, ?_, hpool, ?_⟩
  · rfl
  · rw [← hkernel, ← hfs, ← hsta]

/-! ### What it leaves in memory -/

/-- The mapping changes nothing below the end of the kernel. -/
lemma sameBelow_newUserThreadMapping {mem : Bytes.Memory} {sta : FrameTree} {data root : ℕ}
    {m : Machine} (h : Reach L ⟨mem, sta⟩ roots)
    (hok : newUserThreadMapping L ⟨mem, sta⟩ data = .ok (root, m)) :
    SameBelow L.kernelEnd mem m.mem := (h.newThread hok).2.2.2

/-- The scheduler's view of the execution has the memory of the kernel. -/
theorem LoadsFile.agrees (hl : LoadsFile L st content hostTid st') (hc : Consistent L st)
    (hpos : 0 < (BitVec.ofNat 32 content.length).toInt) (hlen : content.length < 2 ^ 32) :
    ∃ p k' mem, Program.file p = content ∧
      Jokerix.executeCPU st.kernel (some p) hostTid = .ok (true, k') ∧
      st'.kernel = { k' with heap := { k'.heap with mem } } ∧
      SameBelow L.kernelEnd k'.heap.mem mem := by
  obtain ⟨buf, h, root, m, kstack, h₁, c, k₁, hbuf, hmap, halloc, _, hpool, rfl⟩ := hl.steps
  obtain ⟨roots, hroots⟩ := hc.frames
  obtain ⟨blocks, hblocks⟩ := hc.blocks
  obtain ⟨hh, _, hregion, hmem⟩ := hblocks.kalloc hpos hbuf
  obtain ⟨_, hlow, hhigh⟩ := hh.inside List.mem_cons_self
  have hbytes := le_kallocBytes hpos
  have hint := toInt_ofNat_pos hlen hpos
  have hheap := hc.heap
  rw [hregion] at hlow hhigh
  simp only at hlow hhigh
  have hreach : Reach L ⟨Bytes.store h.mem buf content, st.sta⟩ roots := by
    refine (hroots.setData _ fun x hx => ?_).1
    rw [Bytes.store_of_not_mem (by omega), hmem, Bytes.fill_of_not_mem (by omega)]
    rfl
  -- the stack and its context are the same with and without the pages of the program
  have hsame : SameBelow L.kernelEnd m.mem (Bytes.store h.mem buf content) := fun x hx =>
    (sameBelow_newUserThreadMapping hreach hmap x hx).symm
  obtain ⟨mem₁, halloc', hsame₁⟩ := SameBelow.kalloc (h := { h with mem := m.mem }) hsame halloc
  set a := kstack + kernelStackSize - sizeofThreadContext with ha
  set context := Bytes.load (storeContext h₁.mem a c) a sizeofThreadContext with hcontext
  have hstored : storeContext h₁.mem a c = Bytes.store h₁.mem a context :=
    eq_store_load fun x hx => storeContext_of_not_mem hx
  let p : Program := ⟨content, context, hlen⟩
  have htake : context.take sizeofThreadContext = context :=
    List.take_of_length_le (Bytes.length_load _ _ _).le
  have hload : loadProgram st.kernel.heap p = .ok (⟨.user, kstack, 0, 0⟩,
      kfree { h₁ with mem := Bytes.store mem₁ a context } buf) := by
    rw [loadProgram, if_neg (not_le.mpr hpos), hbuf]
    simp only [Jokerix.newUserThread]
    rw [show ({ h with mem := Bytes.store h.mem buf p.file } : KernelHeap) =
      { { h with mem := m.mem } with mem := Bytes.store h.mem buf content } from rfl, halloc']
    simp only
    rw [show p.context = context from rfl, htake]
  have hpool' := addToPool_setHeap (kfree { h₁ with mem := Bytes.store mem₁ a context } buf) hpool
  have hheap₁ := addToPool_heap hpool
  refine ⟨p, { k₁ with heap := kfree { h₁ with mem := Bytes.store mem₁ a context } buf }.record
    (.execOk st.kernel.current.thread.uid st.kernel.nextUid), k₁.heap.mem, rfl, ?_, ?_, ?_⟩
  · rw [Jokerix.executeCPU, hload]
    simp only
    rw [hpool']
  · simp only [Kernel.record, kfree_setMem] at hheap₁ ⊢
    rw [hheap₁]
  · rw [hheap₁, kfree_mem, hstored]
    simp only [Kernel.record, kfree_mem]
    intro x hx
    rw [Bytes.store_apply, Bytes.store_apply, hsame₁ x hx]

/-- The address space of the new thread is built with the file in its buffer. Before and after,
memory changes in the heap only. -/
lemma LoadsFile.memory (hl : LoadsFile L st content hostTid st') (hc : Consistent L st)
    (hpos : 0 < (BitVec.ofNat 32 content.length).toInt) (hlen : content.length < 2 ^ 32)
    (hroots : Reach L st.machine roots) (hslot : allocTid st.kernel.threads = some tid) :
    ∃ buf mem m, BufferHolds mem buf content ∧ buf + content.length ≤ L.kernelEnd ∧
      newUserThreadMapping L ⟨mem, st.sta⟩ buf = .ok (rootOf st'.mem (st'.contextAddr tid), m) ∧
      st'.sta = m.sta ∧ ∀ x, x < st.kernel.heap.region.base ∨
        st.kernel.heap.region.base + kernelHeapSize ≤ x → mem x = st.mem x ∧
        st'.mem x = m.mem x := by
  obtain ⟨buf, h, root, m, kstack, h₁, c, k₁, hbuf, hmap, halloc, hsatp, hpool, rfl⟩ := hl.steps
  obtain ⟨blocks, hblocks⟩ := hc.blocks
  obtain ⟨hh, _, hregion, hmem⟩ := hblocks.kalloc hpos hbuf
  obtain ⟨_, hlow, hhigh⟩ := hh.inside List.mem_cons_self
  obtain ⟨hh₁, _, hregion₁, hmem₁⟩ := (hh.setMem m.mem).kalloc (by decide) halloc
  obtain ⟨_, hlow₁, hhigh₁⟩ := hh₁.inside List.mem_cons_self
  have hbytes := le_kallocBytes hpos
  have hint := toInt_ofNat_pos hlen hpos
  have hstack := kernelStackSize_le_stackBytes
  rw [stackBytes] at hstack
  have hheap := hc.heap
  rw [hregion₁, show ({ h with mem := m.mem } : KernelHeap).region = h.region from rfl]
    at hlow₁ hhigh₁
  rw [hregion] at hlow hhigh hlow₁ hhigh₁
  simp only at hlow hhigh hlow₁ hhigh₁
  set base := st.kernel.heap.region.base with hbase
  set a := kstack + kernelStackSize - sizeofThreadContext with ha
  have hsize : sizeofThreadContext ≤ kernelStackSize := by decide
  have hstored : ∀ x, x < base ∨ base + kernelHeapSize ≤ x →
      Bytes.store h.mem buf content x = st.mem x := by
    intro x hx
    rw [Bytes.store_of_not_mem (by omega), hmem, Bytes.fill_of_not_mem (by omega)]
    rfl
  have hcontext : ∀ x, x < base ∨ base + kernelHeapSize ≤ x →
      storeContext h₁.mem a c x = m.mem x := by
    intro x hx
    rw [storeContext_of_not_mem (by omega), hmem₁, Bytes.fill_of_not_mem (by omega)]
  have hholds : BufferHolds (Bytes.store h.mem buf content) buf content := fun i hi => by
    rw [Bytes.store_of_mem (by omega) (by omega), Nat.add_sub_cancel_left]
  obtain ⟨hreach, _⟩ := hroots.setData (Bytes.store h.mem buf content)
    fun x hx => hstored x (by omega)
  obtain ⟨hreach', _⟩ := hreach.newThread hmap
  -- the memory in the end, and the root that the context leads to
  have hmem' : (⟨k₁.record (.execOk st.kernel.current.thread.uid st.kernel.nextUid), st.fs, m.sta⟩ :
      System).mem = storeContext h₁.mem a c := by
    rw [System.mem]
    change k₁.heap.mem = _
    rw [addToPool_heap hpool, kfree_mem]
  set heap := kfree { h₁ with mem := storeContext h₁.mem a c } buf with hfreed
  obtain ⟨k₂, hpool₂, hthreads⟩ := addToPool_ok (k := { st.kernel with heap }) hslot
    ⟨.user, kstack, hostTid, 0⟩
  obtain rfl := Except.ok.inj (hpool₂.symm.trans hpool)
  have haddr : (⟨k₂.record (.execOk st.kernel.current.thread.uid st.kernel.nextUid), st.fs, m.sta⟩ :
      System).contextAddr tid = a := by
    rw [System.contextAddr]
    simp only [Kernel.record, hthreads, Function.update_self, ha]
  have hroot : rootOf (storeContext h₁.mem a c) a = root := by
    obtain ⟨owner', ho', hroots'⟩ := hreach'.inv
    have hlt : root < 0x87fff := (ho'.used _ _ (hroots' root List.mem_cons_self).1).2
    rw [rootOf_storeContext, hsatp, satpOf_mod (by omega)]
  rw [hmem', haddr, hroot]
  exact ⟨buf, _, m, hholds, by omega, hmap, rfl, fun x hx => ⟨hstored x hx, hcontext x hx⟩⟩

/-- The new thread has an address space of its own with a stack in it, the address spaces of all
others are as they were, and below the end of the kernel only the heap changes. -/
theorem LoadsFile.space (hl : LoadsFile L st content hostTid st') (hc : Consistent L st)
    (hpos : 0 < (BitVec.ofNat 32 content.length).toInt) (hlen : content.length < 2 ^ 32)
    (hroots : Reach L st.machine roots) (hslot : allocTid st.kernel.threads = some tid) :
    rootOf st'.mem (st'.contextAddr tid) ∉ roots ∧
    Reach L st'.machine (rootOf st'.mem (st'.contextAddr tid) :: roots) ∧
    (∀ r ∈ roots, ∀ grants, access grants r st'.mem = access grants r st.mem ∧
      (UserOnly grants → ∀ va p, access grants r st.mem va = some p → st'.mem p = st.mem p)) ∧
    (∀ x, x < st.kernel.heap.region.base ∨
      st.kernel.heap.region.base + kernelHeapSize ≤ x ∧ x < L.kernelEnd → st'.mem x = st.mem x) ∧
    ∀ va, userStackOffset ≤ va → va < userStackOffset + userStackSize →
      ∃ p, userPlace (rootOf st'.mem (st'.contextAddr tid)) st'.mem va = some p := by
  obtain ⟨buf, mem, m, _, _, hmap, hsta, hsame⟩ := hl.memory hc hpos hlen hroots hslot
  have hheap := hc.heap
  set root := rootOf st'.mem (st'.contextAddr tid) with hroot
  obtain ⟨hreach, hplaces⟩ := hroots.setData mem fun x hx => (hsame x (by omega)).1
  obtain ⟨hreach', haccess, _, hkernel⟩ := hreach.newThread hmap
  obtain ⟨hnew, hothers⟩ := hreach.newThread_others hmap
  obtain ⟨hreach'', hplaces''⟩ := hreach'.setData st'.mem fun x hx => (hsame x (by omega)).2
  rw [show st'.machine = { m with mem := st'.mem } by rw [System.machine, hsta]]
  refine ⟨hnew, hreach'', fun r hr grants => ⟨?_, fun hg va p hp => ?_⟩, fun x hx => ?_,
    fun va h1 h2 => ?_⟩
  · rw [(hplaces'' r (List.mem_cons_of_mem _ hr)).2, (haccess r hr).2, (hplaces r hr).2]
    rfl
  · have hend := (hroots.userAccess_apart hr hg hp).1
    have hp' : access grants r mem va = some p := by
      rw [(hplaces r hr).2]
      exact hp
    rw [(hsame p (by omega)).2, hothers r hr grants hg va p hp']
    exact (hsame p (by omega)).1
  · rw [(hsame x (by omega)).2, hkernel x (by omega)]
    exact (hsame x (by omega)).1
  · rw [userPlace, (hplaces'' root List.mem_cons_self).2]
    exact hreach.newThread_stack hmap h1 h2

/-- The new thread finds in memory what the file describes. -/
theorem LoadsFile.load (hl : LoadsFile L st content hostTid st') (hc : Consistent L st)
    (hwf : WellFormedElf content) (hlen : content.length < 2 ^ 31)
    (hroots : Reach L st.machine roots)
    (hslot : allocTid st.kernel.threads = some tid) (va : ℕ) :
    (loadPlace (rootOf st'.mem (st'.contextAddr tid)) st'.mem va).map st'.mem =
      initialByte content va := by
  have hheader := hwf.header
  have hint := toInt_ofNat hlen
  obtain ⟨buf, mem, m, hholds, hend, hmap, _, hsame⟩ :=
    hl.memory hc (by omega) (by omega) hroots hslot
  have hheap := hc.heap
  set root := rootOf st'.mem (st'.contextAddr tid) with hroot
  obtain ⟨hreach, _⟩ := hroots.setData mem fun x hx => (hsame x (by omega)).1
  obtain ⟨hreach', _⟩ := hreach.newThread hmap
  obtain ⟨_, hplaces⟩ := hreach'.setData st'.mem fun x hx => (hsame x (by omega)).2
  rw [← hwf.programByte hholds, ← hreach.newThread_load (hwf.insideBuffer hholds hend) hmap va,
    loadPlace, (hplaces root List.mem_cons_self).2, ← loadPlace]
  -- the pages of the program lie behind the kernel
  cases hp : loadPlace root m.mem va with
  | none => rfl
  | some p =>
    have hp_end := (hreach'.userAccess_apart List.mem_cons_self userOnly_load hp).1
    rw [Option.map_some, Option.map_some, (hsame p (by omega)).2]

/-- What the scheduler sees: one thread more, and the heap where it was. -/
lemma LoadsFile.kernel (hl : LoadsFile L st content hostTid st') (hc : Consistent L st)
    (hpos : 0 < (BitVec.ofNat 32 content.length).toInt)
    (hslot : allocTid st.kernel.threads = some tid) :
    st'.kernel.nextUid = st.kernel.nextUid + 1 ∧ st'.kernel.occupied = st.kernel.occupied ∧
      st'.kernel.current = st.kernel.current ∧ st'.fs = st.fs ∧
      st'.kernel.heap.region = st.kernel.heap.region ∧
      ∃ kstack, st'.kernel.threads = Function.update st.kernel.threads tid
        { st.kernel.threads tid with
          status := .ready, occupied := true,
          thread := ⟨.user, kstack, hostTid, st.kernel.nextUid⟩ } := by
  obtain ⟨buf, h, root, m, kstack, h₁, c, k₁, hbuf, _, halloc, _, hpool, rfl⟩ := hl.steps
  obtain ⟨blocks, hblocks⟩ := hc.blocks
  obtain ⟨hh, _, hregion, _⟩ := hblocks.kalloc hpos hbuf
  obtain ⟨_, _, hregion₁, _⟩ := (hh.setMem m.mem).kalloc (by decide) halloc
  simp only [addToPool, Kernel.setInfo] at hpool
  rw [hslot] at hpool
  simp only [Kernel.push] at hpool
  split at hpool
  · cases hpool
  · obtain rfl := Except.ok.inj hpool
    refine ⟨rfl, rfl, rfl, rfl, ?_, kstack, rfl⟩
    simp only [Kernel.record, kfree]
    split_ifs <;> exact hregion₁.trans hregion

end

end Exec

end Jokerix
