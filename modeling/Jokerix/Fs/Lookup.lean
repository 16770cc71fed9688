import Jokerix.Fs.Tree

/-!
# Path resolution of the kernel

On an image that the packer has written, `lookup` is the search of `Paths` over the tree that was
packed. It finds what a path means unless the path leads it to a doubled slash.
-/

namespace Jokerix

/-- The image lies in the memory of the kernel. -/
structure ImageAt (mem : Bytes.Memory) (img : ℕ) (image : Bytes.Memory) : Prop where
  bytes : ∀ x < imageSize, mem (img + x) = image x
  fits : img + imageSize ≤ 2 ^ 64

/-- The address of the inode of a node, `0` when there is none. -/
def inodeAddr (img : ℕ) (image : Bytes.Memory) (root : Listing) : Option Node → ℕ
  | none => 0
  | some n => img + inodeBlock image root n * blockSize

section
variable {mem image : Bytes.Memory} {img b c x w k m now : ℕ} {root d : Listing} {n : Node}
  {z : Leftover} {s : Packer} {bs : List ℕ} {name : List UInt8} {fs : SimpleFs}

/-! ### Reading the image -/

lemma kernelBlockAddr_eq (himg : img + imageSize ≤ 2 ^ 64) (hb : b < blockNum) :
    kernelBlockAddr img b = img + b * blockSize := by
  simp only [imageSize, blockNum, blockSize] at himg hb
  have hlt : b * blockSize < 2 ^ 20 := by
    simp only [blockSize]
    omega
  have hmsb : (BitVec.ofNat 32 (b * blockSize)).msb = false := by
    rw [BitVec.msb_eq_decide, BitVec.toNat_ofNat]
    simp only [decide_eq_false_iff_not]
    omega
  rw [kernelBlockAddr, BitVec.signExtend_eq_setWidth_of_msb_false hmsb, BitVec.toNat_setWidth,
    BitVec.toNat_ofNat]
  omega

lemma ImageAt.loadLE (h : ImageAt mem img image) (hx : x + w ≤ imageSize) :
    Bytes.loadLE w mem (img + x) = Bytes.loadLE w image x :=
  Bytes.loadLE_shift fun y _ h2 => h.bytes y (by omega)

lemma block_le (hb : b < blockNum) : b * blockSize + blockSize ≤ imageSize := by
  simp only [imageSize, blockNum, blockSize] at *
  omega

lemma ImageAt.readInode (h : ImageAt mem img image) (hx : x + sizeofInode ≤ imageSize) :
    (readInode mem (img + x)).Agrees (readInode image x) := by
  simp only [sizeofInode] at hx
  have hload : ∀ y, y + 4 ≤ 96 →
      Bytes.loadLE 4 mem (img + x + y) = Bytes.loadLE 4 image (x + y) := by
    intro y hy
    rw [Nat.add_assoc]
    exact h.loadLE (by omega)
  simp only [Jokerix.readInode]
  constructor
  · exact h.loadLE (by omega)
  · exact hload 4 (by omega)
  · intro i hi
    simp only
    rw [show img + x + 8 + i = img + (x + 8 + i) by omega]
    exact h.bytes _ (by omega)
  · exact hload 40 (by omega)
  · intro i hi
    simp only [directNum] at hi ⊢
    rw [show img + x + 44 + 4 * i = img + x + (44 + 4 * i) by omega,
      show x + 44 + 4 * i = x + (44 + 4 * i) by omega]
    exact hload _ (by omega)
  · exact hload 92 (by omega)

lemma ImageAt.inode (h : ImageAt mem img image) (hb : b < blockNum) :
    (Jokerix.readInode mem (img + b * blockSize)).Agrees (inodeAt image b) := by
  have hle := block_le hb
  have hsize : sizeofInode ≤ blockSize := by decide
  exact h.readInode (by omega)

/-- The root of the file system is the block behind the free map. -/
lemma ImageAt.initFs (h : ImageAt mem img image)
    (hblocks : Bytes.loadLE 4 image 12 = freemapNum) :
    initFs mem img = ⟨img, img + rootBlock * blockSize⟩ := by
  rw [Jokerix.initFs, h.loadLE (by decide), hblocks, kernelBlockAddr_eq h.fits (by decide)]
  rfl

/-! ### The entries of a directory -/

/-- The addresses of the inodes in the entries of a directory. -/
lemma DirAt.candidates {parent : ℕ} (h : DirAt z s k b parent name bs) (hi : PackInv s)
    (himg : ImageAt mem img s.image) (hbs : ∀ c ∈ bs, c < blockNum) (hfs : fs.img = img) :
    candidates fs mem (img + b * blockSize) = bs.map fun c => img + c * blockSize := by
  have hag := himg.inode (hi.lt_of_mem h.used)
  set node := readInode mem (img + b * blockSize) with hnode
  have hmax := h.max
  have hblocks : (BitVec.ofNat 32 node.blocks).toInt = 2 + bs.length := by
    rw [hag.blocks, h.blocks]
    simp only [directNum, indirectNum] at hmax
    rw [BitVec.toInt_eq_toNat_of_lt (by rw [BitVec.toNat_ofNat]; omega), BitVec.toNat_ofNat,
      Nat.mod_eq_of_lt (by omega)]
    push_cast
    rfl
  have hdirect : ∀ j (hj : j < bs.length), 2 + j < directNum →
      kernelBlockAddr img (node.direct (2 + j)) = img + bs[j] * blockSize := by
    intro j hj hlt
    have hentry := h.entry j hj
    rw [entryBlock, if_pos hlt] at hentry
    rw [hag.direct _ hlt, hentry, kernelBlockAddr_eq himg.fits (hbs _ (List.getElem_mem hj))]
  have hindirect : ∀ j (hj : j < bs.length), directNum ≤ 2 + j →
      kernelBlockAddr img (Bytes.loadLE 4 mem
        (kernelBlockAddr img node.indirect + 4 * (2 + j - 12))) = img + bs[j] * blockSize := by
    intro j hj hge
    have hentry := h.entry j hj
    have hu := hi.lt_of_mem (h.indirect (by omega))
    have hle := block_le hu
    rw [entryBlock, if_neg (by omega)] at hentry
    rw [hag.indirect, kernelBlockAddr_eq himg.fits hu, Nat.add_assoc, himg.loadLE ?_]
    · rw [directNum] at hentry
      rw [hentry, kernelBlockAddr_eq himg.fits (hbs _ (List.getElem_mem hj))]
    · simp only [directNum, indirectNum, blockSize] at *
      omega
  rw [Jokerix.candidates, hfs]
  simp only [← hnode, hblocks]
  by_cases hle : (2 + bs.length : ℤ) ≤ 12
  · rw [if_pos hle]
    refine List.ext_getElem (by simp; omega) fun j h1 h2 => ?_
    rw [List.length_map] at h2
    simp only [List.getElem_map, List.getElem_range', Nat.one_mul]
    exact hdirect j h2 (by simp only [directNum]; omega)
  · rw [if_neg hle]
    refine List.ext_getElem (by simp; omega) fun j h1 h2 => ?_
    rw [List.length_map] at h2
    by_cases hj : j < 10
    · rw [List.getElem_append_left (by simpa using hj)]
      simp only [List.getElem_map, List.getElem_range', Nat.one_mul]
      exact hdirect j h2 (by simp only [directNum]; omega)
    · rw [List.getElem_append_right (by simpa using hj)]
      simp only [List.getElem_map, List.getElem_range', Nat.one_mul, List.length_map,
        List.length_range']
      have hi := hindirect j h2 (by simp only [directNum]; omega)
      rwa [show 12 + (j - 10) = 2 + j by omega]

lemma strlenFrom_eq {str : ℕ → UInt8} {num len fuel : ℕ} (hne : ∀ i, num ≤ i → i < len → str i ≠ 0)
    (hend : str len = 0) (hle : num ≤ len) (hfuel : len < num + fuel) :
    strlenFrom str num fuel = len := by
  induction fuel generalizing num with
  | zero => omega
  | succ fuel ih =>
    rw [strlenFrom]
    rcases hle.eq_or_lt with rfl | hlt
    · rw [if_pos hend]
    · rw [if_neg (hne num le_rfl hlt)]
      exact ih (fun i h1 h2 => hne i (by omega) h2) hlt (by omega)

/-- The name of an inode reads as it was set. -/
lemma cString_setName {str old : ℕ → UInt8} (name : FileName)
    (h : ∀ i < 32, str i = setName old name.bytes i) : cString str = name.bytes := by
  have hlen := name.length_le
  have hget : ∀ i (hi : i < name.bytes.length), str i = name.bytes[i] := by
    intro i hi
    rw [h i (by omega), setName, if_pos hi, List.getD_eq_getElem _ _ hi]
  have hstrlen : strlen str = name.bytes.length := by
    refine strlenFrom_eq (fun i _ hi heq => ?_) ?_ (Nat.zero_le _) (by omega)
    · rw [hget i hi] at heq
      exact name.no_nul (heq ▸ List.getElem_mem hi)
    · rw [h _ (by omega), setName, if_neg (lt_irrefl _), if_pos rfl]
  rw [cString, hstrlen]
  refine List.ext_getElem (by simp) fun i h1 h2 => ?_
  simp only [List.getElem_map, List.getElem_range]
  exact hget i h2

/-- Looking for a name among the inodes of a directory. -/
lemma LaidOut.find? (h : LaidOut z s d now m bs) (hi : PackInv s) (himg : ImageAt mem img s.image)
    (target : List UInt8) :
    (bs.map fun c => img + c * blockSize).find? (fun candidate =>
      strcmp (cString (readInode mem candidate).filename) target = 0) =
    (d.find target).map fun e => img + bs.getD e.1 0 * blockSize := by
  have hname : ∀ {b k} {name : FileName}, (b, Use.inode k) ∈ s.uses →
      (∀ i < 32, (inodeAt s.image b).filename i = setName (z.inode k).filename name.bytes i) →
      (strcmp (cString (readInode mem (img + b * blockSize)).filename) target = 0 ↔
        name.bytes = target) := by
    intro b k name hu hfilename
    rw [strcmp_eq_zero_iff, cString_setName name fun i hi' =>
      ((himg.inode (hi.lt_of_mem hu)).filename i hi').trans (hfilename i hi')]
  induction d generalizing m bs with
  | nil =>
    obtain rfl : bs = [] := h
    rfl
  | other _ _ ih => exact ih h
  | file name content rest ih =>
    obtain ⟨b, bs', rfl, hfile, hrest⟩ := h
    rw [List.map_cons, Listing.find]
    have hiff := hname hfile.used hfile.filename
    split_ifs with heq
    · rw [List.find?_cons_of_pos (by simpa using hiff.mpr heq)]
      rfl
    · rw [List.find?_cons_of_neg (by simpa using fun h => heq (hiff.mp h)), ih hrest,
        Option.map_map]
      rfl
  | dir name sub rest _ ih =>
    obtain ⟨b, bs', subs, rfl, hdir, _, _, hrest⟩ := h
    rw [List.map_cons, Listing.find]
    have hiff := hname hdir.used hdir.filename
    split_ifs with heq
    · rw [List.find?_cons_of_pos (by simpa using hiff.mpr heq)]
      rfl
    · rw [List.find?_cons_of_neg (by simpa using fun h => heq (hiff.mp h)), ih hrest,
        Option.map_map]
      rfl

/-! ### The steps of `lookup` -/

/-- The path and the node without a leading slash. -/
lemma leadingSlash_eq (g : Paths.Graph UInt8 Node) (addr : Node → ℕ) (hroot : fs.root = addr g.root)
    (n : Node) (path : List UInt8) : leadingSlash fs (addr n) path =
      (addr (g.start slash n path), Paths.strip slash path) := by
  cases path with
  | nil => rfl
  | cons a p =>
    rw [leadingSlash, Paths.strip, Paths.Graph.start]
    simp only [List.head?_cons, Option.some.injEq]
    split_ifs
    · rw [hroot]
    · rfl

/-- The node that a search starts from: a null pointer stands for the root. -/
def startNode (fs : SimpleFs) (node : ℕ) (path : List UInt8) : ℕ :=
  if (leadingSlash fs node path).1 = 0 then fs.root else (leadingSlash fs node path).1

lemma lookup_of_nil {node : ℕ} {path : List UInt8} (h : (leadingSlash fs node path).2 = []) :
    lookup fs mem node path = startNode fs node path := by
  rw [lookup]
  split
  · rfl
  · simp_all

lemma lookup_of_ne {node : ℕ} {path : List UInt8} (h : (leadingSlash fs node path).2 ≠ []) :
    lookup fs mem node path =
      let node' := startNode fs node path
      let part := nextPart (leadingSlash fs node path).2
      if (Jokerix.readInode mem node').type ≠ typeDir then 0
      else if part.1 = dot then lookup fs mem node' part.2
      else if part.1 = dotdot then
        lookup fs mem (kernelBlockAddr fs.img ((Jokerix.readInode mem node').direct 1)) part.2
      else
        ((candidates fs mem node').find? fun candidate =>
          strcmp (cString (Jokerix.readInode mem candidate).filename) part.1 = 0).elim 0
            fun candidate => lookup fs mem candidate part.2 := by
  rw [lookup]
  split
  · contradiction
  case h_2 c cs heq =>
    simp only [startNode, strcmp_eq_zero_iff, eq_comm (a := dot), eq_comm (a := dotdot),
      congrArg nextPart heq]
    split_ifs
    · rfl
    · rfl
    · rfl
    · cases (candidates fs mem fs.root).find? _ <;> rfl
    · rfl
    · rfl
    · rfl
    · cases (candidates fs mem (leadingSlash fs node path).1).find? _ <;> rfl

lemma lookup_congr {node node' : ℕ} {path : List UInt8}
    (hstart : startNode fs node path = startNode fs node' path)
    (hpath : (leadingSlash fs node path).2 = (leadingSlash fs node' path).2) :
    lookup fs mem node path = lookup fs mem node' path := by
  by_cases h : (leadingSlash fs node path).2 = []
  · rw [lookup_of_nil h, lookup_of_nil (hpath ▸ h), hstart]
  · rw [lookup_of_ne h, lookup_of_ne (hpath ▸ h), hstart, hpath]

/-! ### The search over the tree -/

/-- The places of a tree are closed under the steps of a path. -/
lemma Listing.place_step {n' : Node} {c : List UInt8} (hn : (root.place n).isSome)
    (h : root.graph.step n c = some n') : (root.place n').isSome := by
  rw [Paths.Graph.step] at h
  split_ifs at h with hdir hdot hdotdot
  · cases h
    exact hn
  · cases h
    cases n with
    | nil => exact hn
    | cons c n =>
      obtain ⟨⟨k, e⟩, hplace⟩ := Option.isSome_iff_exists.mp hn
      obtain ⟨_, d, _, _, hparent, _⟩ := Listing.place_cons hplace
      change (root.place n).isSome
      rw [hparent]
      rfl
  · change (if (root.place (c :: n)).isSome then some (c :: n) else none) = some n' at h
    split_ifs at h with hchild
    cases h
    exact hchild

lemma EntryIn.type_eq_typeDir {e : Entry} {parent : ℕ} (h : EntryIn z s k b parent name e)
    (hi : PackInv s) (himg : ImageAt mem img s.image) :
    (Jokerix.readInode mem (img + b * blockSize)).type = typeDir ↔ ∃ d, e = .dir d := by
  rw [(himg.inode (hi.lt_of_mem h.used)).type]
  cases e with
  | file content =>
    rw [FileAt.type h]
    simp [typeFile, typeDir]
  | dir d =>
    obtain ⟨_, hdir, _⟩ := h
    simp [hdir.type]

/-- One part of a path: what `lookup` does at a node that is a directory. -/
lemma Packed.step (h : Packed z root s) (himg : ImageAt mem img s.image)
    (hn : root.place n = some (k, .dir d)) (hfs : fs.img = img) {c : List UInt8} (hc : c ≠ dot) :
    (c = dotdot → kernelBlockAddr img ((Jokerix.readInode mem
        (inodeAddr img s.image root (some n))).direct 1) =
      inodeAddr img s.image root (some n.tail)) ∧
    (c ≠ dotdot → (Jokerix.candidates fs mem (inodeAddr img s.image root (some n))).find?
        (fun candidate => strcmp (cString (Jokerix.readInode mem candidate).filename) c = 0) =
      (root.graph.step n c).map fun n' => inodeAddr img s.image root (some n')) := by
  obtain ⟨name, bs, hdir, hlaid, hlen⟩ := h.place hn
  have hag := himg.inode (h.inv.lt_of_mem hdir.used)
  have hdirn : root.graph.isDir n = true := by
    change root.isDir n = true
    rw [Listing.isDir, hn]
  constructor
  · rintro rfl
    have hparent : inodeBlock s.image root n.tail < blockNum := by
      have hstep : root.graph.step n dotdot = some n.tail := by
        rw [Paths.Graph.step, if_pos hdirn]
        rfl
      have hsome := Listing.place_step (by rw [hn]; rfl) hstep
      obtain ⟨⟨k', e'⟩, hk'⟩ := Option.isSome_iff_exists.mp hsome
      obtain ⟨_, hin⟩ := h.place hk'
      exact h.inv.lt_of_mem hin.used
    rw [inodeAddr, hag.direct 1 (by decide), hdir.parent, kernelBlockAddr_eq himg.fits hparent]
    rfl
  · intro hc'
    have hbs : ∀ b ∈ bs, b < blockNum := by
      intro b hb
      obtain ⟨_, hu⟩ := hlaid.used b hb
      exact h.inv.lt_of_mem hu
    have hstep : root.graph.step n c =
        if (root.place (c :: n)).isSome then some (c :: n) else none := by
      rw [Paths.Graph.step, if_pos hdirn, if_neg (show c ≠ root.graph.stay from hc),
        if_neg (show c ≠ root.graph.up from hc')]
      rfl
    rw [inodeAddr, hdir.candidates h.inv himg hbs hfs, hlaid.find? h.inv himg, hstep,
      Listing.place, hn]
    simp only [Option.isSome_map]
    cases hfind : d.find c with
    | none => rfl
    | some e =>
      obtain ⟨j, o, e⟩ := e
      obtain ⟨b, hb, _⟩ := hlaid.find hfind
      obtain ⟨hj, hb⟩ := List.getElem?_eq_some_iff.mp hb
      simp only [Option.map_some, Option.isSome_some, if_true, inodeAddr, inodeBlock, hn, hfind]
      rw [hdir.entry j hj, List.getD_eq_getElem _ _ hj]

lemma Packed.inodeAddr_ne_zero (h : Packed z root s) (img : ℕ) (hn : (root.place n).isSome) :
    inodeAddr img s.image root (some n) ≠ 0 := by
  obtain ⟨⟨k, e⟩, hplace⟩ := Option.isSome_iff_exists.mp hn
  obtain ⟨_, hin⟩ := h.place hplace
  have hb : inodeBlock s.image root n ≠ 0 := by
    intro hb
    have hu := hin.used
    rw [hb] at hu
    cases h.inv.oneUse 0 _ _ hu h.inv.superBlock
  have hpos : 0 < inodeBlock s.image root n * blockSize :=
    Nat.mul_pos (Nat.pos_of_ne_zero hb) (by decide)
  rw [inodeAddr]
  omega

/-- On a packed image, `lookup` is the search over the tree. -/
theorem Packed.lookup_eq (h : Packed z root s) (himg : ImageAt mem img s.image)
    (hn : (root.place n).isSome) (path : List UInt8) :
    lookup (Jokerix.initFs mem img) mem (inodeAddr img s.image root (some n)) path =
      inodeAddr img s.image root (root.graph.search slash n path) := by
  set fs := Jokerix.initFs mem img with hfs
  have hinit := himg.initFs h.freemapBlocks
  have hroot : fs.root = inodeAddr img s.image root (some root.graph.root) := by
    rw [hfs, hinit]
    rfl
  have hfsimg : fs.img = img := rfl
  induction hl : path.length using Nat.strong_induction_on generalizing n path with
  | h l ih =>
    subst hl
    have hlead := leadingSlash_eq root.graph (fun n => inodeAddr img s.image root (some n)) hroot n
      path
    have hstart : (root.place (root.graph.start slash n path)).isSome := by
      rw [Paths.Graph.start]
      split_ifs
      · rfl
      · exact hn
    obtain ⟨⟨k, e⟩, hplace⟩ := Option.isSome_iff_exists.mp hstart
    obtain ⟨name, hin⟩ := h.place hplace
    set n₀ := root.graph.start slash n path with hn₀
    have hne := h.inodeAddr_ne_zero img hstart
    have hstartNode : startNode fs (inodeAddr img s.image root (some n)) path =
        inodeAddr img s.image root (some n₀) := by
      rw [startNode, hlead, if_neg hne]
    by_cases hstrip : Paths.strip slash path = []
    · rw [lookup_of_nil (by rw [hlead, hstrip]), hstartNode,
        Paths.Graph.search_of_strip_nil hstrip]
    rw [lookup_of_ne (by rw [hlead]; exact hstrip), hstartNode,
      Paths.Graph.search_of_strip_ne hstrip, hlead]
    simp only [nextPart]
    set c := (Paths.strip slash path).takeWhile (· ≠ slash) with hc
    set rest := ((Paths.strip slash path).dropWhile (· ≠ slash)).tail with hrest
    have hlt : rest.length < path.length := by
      have h1 := (List.dropWhile_suffix (· ≠ slash) (l := Paths.strip slash path)).length_le
      have h2 := Paths.length_strip_le slash path
      have h3 := List.length_pos_iff.mpr hstrip
      rw [hrest, List.length_tail]
      omega
    have hih : ∀ n', (root.place n').isSome →
        lookup fs mem (inodeAddr img s.image root (some n')) rest =
          inodeAddr img s.image root (root.graph.search slash n' rest) := fun n' hn' =>
      ih _ hlt hn' rest rfl
    simp only [← hn₀, ← hc]
    have htype : (Jokerix.readInode mem (inodeAddr img s.image root (some n₀))).type = typeDir ↔
        ∃ d, e = .dir d := hin.type_eq_typeDir h.inv himg
    cases e with
    | file content =>
      have hdir : root.graph.isDir n₀ = false := by
        change root.isDir n₀ = false
        rw [Listing.isDir, hplace]
      rw [if_pos (show _ ≠ typeDir from fun ht => by simpa using htype.mp ht), Paths.Graph.step,
        if_neg (by simp [hdir])]
      rfl
    | dir d =>
      have hdir : root.graph.isDir n₀ = true := by
        change root.isDir n₀ = true
        rw [Listing.isDir, hplace]
      rw [if_neg (show ¬ _ ≠ typeDir from not_not.mpr (htype.mpr ⟨d, rfl⟩))]
      by_cases hdot : c = dot
      · rw [if_pos hdot, hih n₀ hstart, Paths.Graph.step, if_pos hdir,
          if_pos (show c = root.graph.stay from hdot)]
        rfl
      obtain ⟨hup, hchild⟩ := h.step himg hplace hfsimg hdot
      rw [if_neg hdot]
      by_cases hdotdot : c = dotdot
      · have hstep : root.graph.step n₀ c = some n₀.tail := by
          rw [Paths.Graph.step, if_pos hdir, if_neg (show c ≠ root.graph.stay from hdot),
            if_pos (show c = root.graph.up from hdotdot)]
          rfl
        rw [if_pos hdotdot, hfsimg, hup hdotdot, hih _ (Listing.place_step hstart hstep), hstep]
        rfl
      · rw [if_neg hdotdot, hchild hdotdot]
        cases hstep : root.graph.step n₀ c with
        | none => rfl
        | some n' => exact hih n' (Listing.place_step hstart hstep)

/-- The address of an inode shows the node. -/
lemma Packed.inodeAddr_injective (h : Packed z root s) (img : ℕ) {n n' : Option Node}
    (hn : ∀ m, n = some m → (root.place m).isSome) (hn' : ∀ m, n' = some m → (root.place m).isSome)
    (heq : inodeAddr img s.image root n = inodeAddr img s.image root n') : n = n' := by
  cases n with
  | none =>
    cases n' with
    | none => rfl
    | some m' => exact absurd heq.symm (h.inodeAddr_ne_zero img (hn' m' rfl))
  | some m =>
    cases n' with
    | none => exact absurd heq (h.inodeAddr_ne_zero img (hn m rfl))
    | some m' =>
      rw [inodeAddr, inodeAddr] at heq
      have hmul := Nat.add_left_cancel heq
      have hblock := Nat.eq_of_mul_eq_mul_right (show 0 < blockSize by decide) hmul
      rw [h.inodeBlock_injective (hn m rfl) (hn' m' rfl) hblock]

/-- The inode of a node, or of the root for a null pointer, as `lookup` finds it. -/
lemma Packed.lookup_start (h : Packed z root s) (himg : ImageAt mem img s.image)
    {start : Option Node}
    (hn : ∀ n, start = some n → (root.place n).isSome) (path : List UInt8) :
    lookup (Jokerix.initFs mem img) mem (inodeAddr img s.image root start) path =
      inodeAddr img s.image root (root.graph.search slash (start.getD []) path) := by
  cases start with
  | some n => exact h.lookup_eq himg (hn n rfl) path
  | none =>
    have hroot : (root.place []).isSome := rfl
    rw [Option.getD_none, ← h.lookup_eq himg hroot path]
    have hfs : (Jokerix.initFs mem img).root = inodeAddr img s.image root (some []) := by
      rw [himg.initFs h.freemapBlocks]
      rfl
    have hne := h.inodeAddr_ne_zero img hroot
    cases path with
    | nil => exact lookup_congr (by simp [startNode, leadingSlash, inodeAddr, hfs]) rfl
    | cons c cs =>
      by_cases hc : c = slash
      · have hlead : ∀ node, leadingSlash (Jokerix.initFs mem img) node (c :: cs) =
            ((Jokerix.initFs mem img).root, cs) := fun node => if_pos hc
        exact lookup_congr (by rw [startNode, startNode, hlead, hlead]) (by rw [hlead, hlead])
      · have hlead : ∀ node, leadingSlash (Jokerix.initFs mem img) node (c :: cs) =
            (node, c :: cs) := fun node => if_neg hc
        refine lookup_congr ?_ (by rw [hlead, hlead])
        rw [startNode, startNode, hlead, hlead]
        simp only [if_neg hne]
        rw [inodeAddr, if_pos rfl, hfs]

/-- On an image that the packer has written, `lookup` finds the inode of the node that a path means
exactly when the doubled slashes that the path leads to make no difference. -/
theorem lookup_eq_resolve_iff (hz : ∀ n, (z.inode n).indirect = 0) (hp : root.Proper)
    (hok : mksfs z root = .ok s) (himg : ImageAt mem img s.image) {start : Option Node}
    (hn : ∀ n, start = some n → (root.place n).isSome) (path : List UInt8) :
    lookup (Jokerix.initFs mem img) mem (inodeAddr img s.image root start) path =
        inodeAddr img s.image root (root.graph.resolve slash (start.getD []) path) ↔
      root.graph.Harmless slash (start.getD []) path := by
  have h := packed_of_mksfs (Listing.rootClear_of_zero hz _) hp hok
  have hplace : ∀ n, (root.packed.place n).isSome = (root.place n).isSome := by
    intro n
    rw [Listing.place_packed, Option.isSome_map]
  have haddr : inodeAddr img s.image root.packed = inodeAddr img s.image root := by
    funext n
    cases n with
    | none => rfl
    | some n => rw [inodeAddr, inodeBlock_packed, inodeAddr]
  have hn' : ∀ n, start = some n → (root.packed.place n).isSome := by
    simpa only [hplace] using hn
  have hlookup := h.lookup_start himg hn' path
  have hinj : ∀ n n' : Option Node, _ → _ → _ → n = n' := fun n n' =>
    h.inodeAddr_injective img
  rw [haddr, Listing.graph_packed] at hlookup
  simp only [haddr, hplace] at hinj
  have hstart : (root.place (start.getD [])).isSome := by
    cases start with
    | none => rfl
    | some n => exact hn n rfl
  rw [hlookup, ← Paths.Graph.search_eq_resolve_iff]
  constructor
  · intro heq
    refine hinj _ _ (fun m hm => ?_) (fun m hm => ?_) heq
    · exact Paths.Graph.search_induction (P := fun n => (root.place n).isSome) rfl
        (fun _ _ _ => Listing.place_step) hstart hm
    · exact Paths.Graph.resolve_induction (P := fun n => (root.place n).isSome) rfl
        (fun _ _ _ => Listing.place_step) hstart hm
  · intro heq
    rw [heq]

end

/-! ### A doubled slash -/

/-- A directory with a directory `bin`, which has an empty file `sh`. -/
def binDir : Listing :=
  .dir ⟨[98, 105, 110], by decide, by decide, by decide, by decide⟩
    (.file ⟨[115, 104], by decide, by decide, by decide, by decide⟩ [] .nil) .nil

/-- Local variables that hold zeros. -/
def leftoverZero : Leftover where
  inode := fun _ => ⟨0, 0, fun _ => 0, 0, fun _ => 0, 0⟩
  info := fun _ => 0
  usable := chunkBytes

lemma binDir_proper : binDir.Proper := by
  simp [binDir, Listing.Proper, dot, dotdot, Listing.names]

lemma binDir_fits : binDir.Fits := by
  rw [Listing.Fits]
  decide

lemma mksfs_binDir : ∃ s, mksfs leftoverZero binDir = .ok s ∧ Packed leftoverZero binDir s :=
  mksfs_ok binDir_proper binDir_fits ⟨by decide, ⟨by decide, trivial⟩, trivial⟩
    (Listing.rootClear_of_zero (z := leftoverZero) (fun _ => rfl) _)

/-- A memory with an image at the address `0x80300000`. -/
def imageMemory (image : Bytes.Memory) : Bytes.Memory := fun x => image (x - 0x80300000)

lemma imageAt_imageMemory (image : Bytes.Memory) :
    ImageAt (imageMemory image) 0x80300000 image := by
  refine ⟨fun x _ => ?_, by decide⟩
  rw [imageMemory, Nat.add_sub_cancel_left]

/-- The path `bin/sh`. -/
def binSh : List UInt8 := [98, 105, 110, 47, 115, 104]

/-- The path `bin//sh`. -/
def binSlashSh : List UInt8 := [98, 105, 110, 47, 47, 115, 104]

theorem lookup_eq_resolve_binSh : ∃ s, mksfs leftoverZero binDir = .ok s ∧
    lookup (initFs (imageMemory s.image) 0x80300000) (imageMemory s.image) 0 binSh =
      inodeAddr 0x80300000 s.image binDir (binDir.graph.resolve slash [] binSh) := by
  obtain ⟨s, hok, _⟩ := mksfs_binDir
  have hn : ∀ n, (none : Option Node) = some n → (binDir.place n).isSome := fun _ h => nomatch h
  have hcut : Paths.cut slash binSh = none := rfl
  exact ⟨s, hok, (lookup_eq_resolve_iff (fun _ => rfl) binDir_proper hok
    (imageAt_imageMemory s.image) hn binSh).mpr
      (Paths.Graph.search_eq_resolve_iff.mp (Paths.Graph.search_eq_resolve hcut))⟩

/-- The part behind the doubled slash is looked for in the root. -/
theorem lookup_binSlashSh : ∃ s, mksfs leftoverZero binDir = .ok s ∧
    binDir.graph.resolve slash [] binSlashSh = some [[115, 104], [98, 105, 110]] ∧
    lookup (initFs (imageMemory s.image) 0x80300000) (imageMemory s.image) 0 binSlashSh = 0 ∧
    inodeAddr 0x80300000 s.image binDir (some [[115, 104], [98, 105, 110]]) ≠ 0 := by
  obtain ⟨s, hok, hpacked⟩ := mksfs_binDir
  have hn : ∀ n, (none : Option Node) = some n → (binDir.place n).isSome := fun _ h => nomatch h
  have hlookup := hpacked.lookup_start (imageAt_imageMemory s.image) hn binSlashSh
  have hcut : Paths.cut slash binSlashSh = some ([98, 105, 110], [115, 104]) := rfl
  have hsearch : binDir.graph.search slash [] binSlashSh = none := by
    rw [Paths.Graph.search_of_cut hcut (by simp), Paths.Graph.search_sep (by decide),
      Paths.Graph.search_part (by simp) (by decide)]
    rfl
  refine ⟨s, hok, rfl, ?_, hpacked.inodeAddr_ne_zero _ rfl⟩
  rw [Option.getD_none, hsearch] at hlookup
  exact hlookup

end Jokerix
