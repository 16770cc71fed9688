import Jokerix.Lib.Paths
import Jokerix.Fs.Taken

/-!
# The tree of a directory

The nodes below a directory of the host, as places that a path can lead to, and where the inode of a
node lies in an image.
-/

namespace Jokerix

/-- What a directory has under a name. -/
inductive Entry where
  | file (content : List UInt8)
  | dir (d : Listing)

/-- A node below a directory: the names on the way to it, the last one first. -/
abbrev Node := List (List UInt8)

/-- The entry with a name: how many entries and how many inodes come before it, and what it is. -/
def Listing.find : Listing → List UInt8 → Option (ℕ × ℕ × Entry)
  | .nil, _ => none
  | .other _ rest, c => rest.find c
  | .file name content rest, c =>
    if name.bytes = c then some (0, 0, .file content)
    else (rest.find c).map fun e => (e.1 + 1, e.2.1 + 1, e.2.2)
  | .dir name sub rest, c =>
    if name.bytes = c then some (0, 0, .dir sub)
    else (rest.find c).map fun e => (e.1 + 1, e.2.1 + 1 + sub.inodes, e.2.2)

/-- The number of the inode of a node, and what it is. -/
def Listing.place (root : Listing) : Node → Option (ℕ × Entry)
  | [] => some (0, .dir root)
  | c :: n =>
    match root.place n with
    | some (k, .dir d) => (d.find c).map fun e => (k + 1 + e.2.1, e.2.2)
    | _ => none

def Listing.isDir (root : Listing) (n : Node) : Bool :=
  match root.place n with
  | some (_, .dir _) => true
  | _ => false

lemma Listing.find_nil (d : Listing) : d.find [] = none := by
  induction d with
  | nil => rfl
  | other _ _ ih => exact ih
  | file name _ _ ih => simp [Listing.find, name.ne_nil, ih]
  | dir name _ _ _ ih => simp [Listing.find, name.ne_nil, ih]

/-- The places of a tree. The root is its own parent. -/
def Listing.graph (root : Listing) : Paths.Graph UInt8 Node where
  root := []
  isDir := root.isDir
  stay := dot
  up := dotdot
  parent := List.tail
  child := fun n c => if (root.place (c :: n)).isSome then some (c :: n) else none
  stay_ne_nil := by decide
  up_ne_nil := by decide
  child_nil := by
    intro n
    have hnone : root.place ([] :: n) = none := by
      rw [Listing.place]
      split
      · rw [Listing.find_nil]
        rfl
      · rfl
    simp [hnone]

/-- The block of the inode of a node. -/
def inodeBlock (mem : Bytes.Memory) (root : Listing) : Node → ℕ
  | [] => rootBlock
  | c :: n =>
    match root.place n with
    | some (_, .dir d) =>
      match d.find c with
      | some (j, _) => entryBlock mem (inodeAt mem (inodeBlock mem root n)) (2 + j)
      | none => 0
    | _ => 0

section
variable {root d sub : Listing} {n n' : Node} {c : List UInt8} {e e' : Entry} {i j k o : ℕ}

/-! ### Numbers of inodes -/

/-- The names on the way to the inode with a number, from a directory on. -/
def Listing.route : Listing → ℕ → List (List UInt8)
  | .nil, _ => []
  | .other _ rest, o => rest.route o
  | .file name _ rest, o => if o = 0 then [name.bytes] else rest.route (o - 1)
  | .dir name sub rest, o =>
    if o = 0 then [name.bytes]
    else if o ≤ sub.inodes then name.bytes :: sub.route (o - 1)
    else rest.route (o - 1 - sub.inodes)

/-- The number of inodes below an entry. -/
def Entry.inodes : Entry → ℕ
  | .file _ => 0
  | .dir d => d.inodes

/-- The names on the way to the inode with a number, from an entry on. -/
def Entry.route : Entry → ℕ → List (List UInt8)
  | .file _, _ => []
  | .dir d, o => d.route o

lemma Listing.find_lt (h : d.find c = some (j, o, e)) : o + e.inodes < d.inodes := by
  induction d generalizing j o with
  | nil => cases h
  | other _ _ ih => exact ih h
  | file name content rest ih =>
    rw [Listing.find] at h
    split_ifs at h
    · cases h
      simp [Entry.inodes, Listing.inodes]
    · simp only [Option.map_eq_some_iff, Prod.exists, Prod.mk.injEq] at h
      obtain ⟨j', o', e', h', rfl, rfl, rfl⟩ := h
      have := ih h'
      simp only [Listing.inodes]
      omega
  | dir name sub rest _ ih =>
    rw [Listing.find] at h
    split_ifs at h
    · cases h
      simp only [Entry.inodes, Listing.inodes]
      omega
    · simp only [Option.map_eq_some_iff, Prod.exists, Prod.mk.injEq] at h
      obtain ⟨j', o', e', h', rfl, rfl, rfl⟩ := h
      have := ih h'
      simp only [Listing.inodes]
      omega

lemma Listing.route_find (h : d.find c = some (j, o, e)) :
    d.route o = [c] ∧ ∀ i < e.inodes, d.route (o + 1 + i) = c :: e.route i := by
  induction d generalizing j o with
  | nil => cases h
  | other _ _ ih => exact ih h
  | file name content rest ih =>
    rw [Listing.find] at h
    split_ifs at h with hname
    · cases h
      exact ⟨by simp [Listing.route, hname], fun i hi => absurd hi (Nat.not_lt_zero i)⟩
    · simp only [Option.map_eq_some_iff, Prod.exists, Prod.mk.injEq] at h
      obtain ⟨j', o', e', h', rfl, rfl, rfl⟩ := h
      obtain ⟨h1, h2⟩ := ih h'
      refine ⟨by simpa [Listing.route] using h1, fun i hi => ?_⟩
      rw [Listing.route, if_neg (by omega), ← h2 i hi]
      congr 1
      omega
  | dir name sub rest _ ih =>
    rw [Listing.find] at h
    split_ifs at h with hname
    · cases h
      refine ⟨by simp [Listing.route, hname], fun i hi => ?_⟩
      have hi : i < sub.inodes := hi
      rw [Listing.route, if_neg (by omega), if_pos (by omega), hname,
        show 0 + 1 + i - 1 = i by omega]
      rfl
    · simp only [Option.map_eq_some_iff, Prod.exists, Prod.mk.injEq] at h
      obtain ⟨j', o', e', h', rfl, rfl, rfl⟩ := h
      obtain ⟨h1, h2⟩ := ih h'
      refine ⟨?_, fun i hi => ?_⟩
      · rw [Listing.route, if_neg (by omega), if_neg (by omega), ← h1]
        congr 1
        omega
      · rw [Listing.route, if_neg (by omega), if_neg (by omega), ← h2 i hi]
        congr 1
        omega

lemma Listing.place_cons (h : root.place (c :: n) = some (k, e)) : ∃ m d j o,
    root.place n = some (m, .dir d) ∧ d.find c = some (j, o, e) ∧ k = m + 1 + o := by
  rw [Listing.place] at h
  split at h
  case h_1 m d hplace =>
    simp only [Option.map_eq_some_iff, Prod.exists, Prod.mk.injEq] at h
    obtain ⟨j, o, e', hfind, rfl, rfl⟩ := h
    exact ⟨m, d, j, o, hplace, hfind, rfl⟩
  case h_2 => cases h

/-- The number of the inode of a node shows the way to it. -/
lemma Listing.route_place (h : root.place n = some (k, e)) :
    (k = 0 ∧ n = [] ∨ 0 < k ∧ root.route (k - 1) = n.reverse) ∧
      ∀ i < e.inodes, root.route (k + i) = n.reverse ++ e.route i := by
  induction n generalizing k e with
  | nil =>
    cases h
    refine ⟨.inl ⟨rfl, rfl⟩, fun i _ => ?_⟩
    rw [Nat.zero_add]
    rfl
  | cons c n ih =>
    obtain ⟨m, d, j, o, hplace, hfind, rfl⟩ := Listing.place_cons h
    obtain ⟨_, hbelow⟩ := ih hplace
    have hlt := Listing.find_lt hfind
    obtain ⟨h1, h2⟩ := Listing.route_find hfind
    have hroute : ∀ i < d.inodes, root.route (m + i) = n.reverse ++ d.route i := hbelow
    refine ⟨.inr ⟨by omega, ?_⟩, fun i hi => ?_⟩
    · rw [show m + 1 + o - 1 = m + o by omega, hroute o (by omega), h1, List.reverse_cons]
    · rw [show m + 1 + o + i = m + (o + 1 + i) by omega, hroute _ (by omega), h2 i hi,
        List.reverse_cons, List.append_assoc]
      rfl

/-- Different nodes have different numbers. -/
lemma Listing.place_injective (h : root.place n = some (k, e)) (h' : root.place n' = some (k, e')) :
    n = n' := by
  rcases (Listing.route_place h).1 with ⟨h1, h2⟩ | ⟨h1, h2⟩ <;>
    rcases (Listing.route_place h').1 with ⟨h3, h4⟩ | ⟨h3, h4⟩
  · rw [h2, h4]
  · omega
  · omega
  · exact List.reverse_injective (h2.symm.trans h4)

/-! ### The bytes that are packed -/

def Entry.packed : Entry → Entry
  | .file content => .file (content.take (content.length % 2 ^ 32))
  | .dir d => .dir d.packed

lemma Listing.find_packed (d : Listing) (c : List UInt8) :
    d.packed.find c = (d.find c).map fun e => (e.1, e.2.1, e.2.2.packed) := by
  induction d with
  | nil => rfl
  | other _ _ ih => exact ih
  | file name _ _ ih =>
    simp only [Listing.packed, Listing.find, ih]
    split_ifs
    · rfl
    · simp only [Option.map_map]
      rfl
  | dir name _ _ _ ih =>
    simp only [Listing.packed, Listing.find, ih, Listing.packed_inodes]
    split_ifs
    · rfl
    · simp only [Option.map_map]
      rfl

lemma Listing.place_packed (root : Listing) (n : Node) :
    root.packed.place n = (root.place n).map fun e => (e.1, e.2.packed) := by
  induction n with
  | nil => rfl
  | cons c n ih =>
    rw [Listing.place, Listing.place, ih]
    rcases root.place n with _ | ⟨k, _ | d⟩
    · rfl
    · rfl
    · simp only [Option.map_some, Entry.packed, Listing.find_packed, Option.map_map]
      rfl

/-- The tree has the same places whatever the bytes of its files are. -/
lemma Listing.graph_packed (root : Listing) : root.packed.graph = root.graph := by
  have hdir : root.packed.isDir = root.isDir := by
    funext n
    rw [Listing.isDir, Listing.isDir, Listing.place_packed]
    rcases root.place n with _ | ⟨k, _ | d⟩ <;> rfl
  simp only [Listing.graph, hdir, Listing.place_packed, Option.isSome_map]

lemma inodeBlock_packed (mem : Bytes.Memory) (root : Listing) (n : Node) :
    inodeBlock mem root.packed n = inodeBlock mem root n := by
  induction n with
  | nil => rfl
  | cons c n ih =>
    rw [inodeBlock, inodeBlock, ih, Listing.place_packed]
    rcases root.place n with _ | ⟨k, _ | d⟩
    · rfl
    · rfl
    · simp only [Option.map_some, Entry.packed, Listing.find_packed]
      rcases d.find c with _ | ⟨j, o, e⟩ <;> rfl

/-! ### The inodes of a packed image -/

variable {z : Leftover} {s : Packer} {b now m : ℕ} {bs : List ℕ}

/-- What lies in the block of an entry, whose number is `k`. -/
def EntryIn (z : Leftover) (s : Packer) (k b parent : ℕ) (name : List UInt8) : Entry → Prop
  | .file content => FileAt z s k b name content
  | .dir d => ∃ bs, DirAt z s k b parent name bs ∧ LaidOut z s d b (k + 1) bs ∧ bs.length = d.count

lemma EntryIn.used {parent : ℕ} {name : List UInt8} (h : EntryIn z s k b parent name e) :
    (b, Use.inode k) ∈ s.uses := by
  cases e with
  | file content => exact FileAt.used h
  | dir d =>
    obtain ⟨bs, hdir, _⟩ := h
    exact hdir.used

lemma EntryIn.filename {parent : ℕ} {name : List UInt8} (h : EntryIn z s k b parent name e) :
    ∀ i < 32, (inodeAt s.image b).filename i = setName (z.inode k).filename name i := by
  cases e with
  | file content => exact FileAt.filename h
  | dir d =>
    obtain ⟨bs, hdir, _⟩ := h
    exact hdir.filename

lemma LaidOut.find (h : LaidOut z s d now m bs) (hfind : d.find c = some (j, o, e)) :
    ∃ b, bs[j]? = some b ∧ EntryIn z s (m + o) b now c e := by
  induction d generalizing m bs j o with
  | nil => cases hfind
  | other _ _ ih => exact ih h hfind
  | file name content rest ih =>
    obtain ⟨b, bs', rfl, hfile, hrest⟩ := h
    rw [Listing.find] at hfind
    split_ifs at hfind with hname
    · cases hfind
      exact ⟨b, rfl, hname ▸ hfile⟩
    · simp only [Option.map_eq_some_iff, Prod.exists, Prod.mk.injEq] at hfind
      obtain ⟨j', o', e', hfind, rfl, rfl, rfl⟩ := hfind
      obtain ⟨b', hb', he⟩ := ih hrest hfind
      exact ⟨b', by simpa using hb', by rwa [show m + (o' + 1) = m + 1 + o' by omega]⟩
  | dir name sub rest _ ih =>
    obtain ⟨b, bs', subs, rfl, hdir, hsub, hlen, hrest⟩ := h
    rw [Listing.find] at hfind
    split_ifs at hfind with hname
    · cases hfind
      exact ⟨b, rfl, subs, hname ▸ hdir, hsub, hlen⟩
    · simp only [Option.map_eq_some_iff, Prod.exists, Prod.mk.injEq] at hfind
      obtain ⟨j', o', e', hfind, rfl, rfl, rfl⟩ := hfind
      obtain ⟨b', hb', he⟩ := ih hrest hfind
      exact ⟨b', by simpa using hb',
        by rwa [show m + (o' + 1 + sub.inodes) = m + 1 + sub.inodes + o' by omega]⟩

/-- The inode of a node lies in its block. -/
lemma Packed.place (h : Packed z root s) (hplace : root.place n = some (k, e)) :
    ∃ name, EntryIn z s k (inodeBlock s.image root n) (inodeBlock s.image root n.tail) name e := by
  induction n generalizing k e with
  | nil =>
    cases hplace
    obtain ⟨bs, hdir, hlaid, hlen⟩ := h.laidOut
    exact ⟨[slash], bs, hdir, hlaid, hlen⟩
  | cons c n ih =>
    obtain ⟨m, d, j, o, hn, hfind, rfl⟩ := Listing.place_cons hplace
    obtain ⟨name, bs, hdir, hlaid, hlen⟩ := ih hn
    obtain ⟨b, hb, hentry⟩ := hlaid.find hfind
    obtain ⟨hj, hb⟩ := List.getElem?_eq_some_iff.mp hb
    have hblock : inodeBlock s.image root (c :: n) = b := by
      rw [inodeBlock, hn]
      simp only [hfind]
      rw [hdir.entry j hj, hb]
    exact ⟨c, by rw [hblock]; exact hentry⟩

/-- Different nodes have their inodes in different blocks. -/
lemma Packed.inodeBlock_injective (h : Packed z root s) (hn : (root.place n).isSome)
    (hn' : (root.place n').isSome) (heq : inodeBlock s.image root n = inodeBlock s.image root n') :
    n = n' := by
  obtain ⟨⟨k, e⟩, hk⟩ := Option.isSome_iff_exists.mp hn
  obtain ⟨⟨k', e'⟩, hk'⟩ := Option.isSome_iff_exists.mp hn'
  obtain ⟨_, hin⟩ := h.place hk
  obtain ⟨_, hin'⟩ := h.place hk'
  rw [heq] at hin
  cases h.inv.oneUse _ _ _ hin.used hin'.used
  exact Listing.place_injective hk hk'

end

end Jokerix
