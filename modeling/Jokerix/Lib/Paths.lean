import Mathlib.Data.List.Basic
import Mathlib.Data.List.TakeWhile
import Mathlib.Data.Nat.Init
import Mathlib.Data.Option.Basic

/-!
# Paths

Places with names, and paths through them: words over an alphabet with a separator. `resolve` is
what a path means: it is split at the separators, and its parts are followed one by one. `search`
goes through the path from left to right and looks for a leading separator again after each part.
The two agree unless a doubled separator is reached.
-/

namespace Paths

/-- Places, some of which contain others. No part of a path that means anything is empty. -/
structure Graph (α ν : Type*) where
  root : ν
  isDir : ν → Bool
  stay : List α
  up : List α
  parent : ν → ν
  child : ν → List α → Option ν
  stay_ne_nil : stay ≠ []
  up_ne_nil : up ≠ []
  child_nil : ∀ x, child x [] = none

section
variable {α ν : Type*} [DecidableEq α] (g : Graph α ν) (sep : α)

/-! ### What a path means -/

/-- Follow one part of a path. -/
def Graph.step (x : ν) (c : List α) : Option ν :=
  if g.isDir x then
    if c = g.stay then some x
    else if c = g.up then some (g.parent x)
    else g.child x c
  else none

/-- Follow parts one by one. -/
def Graph.follow (x : ν) (cs : List (List α)) : Option ν := cs.foldlM g.step x

/-- The parts of a path; runs of separators count as one. -/
def parts (path : List α) : List (List α) := (path.splitOn sep).filter (· ≠ [])

/-- A leading separator starts at the root. -/
def Graph.start (x : ν) (path : List α) : ν := if path.head? = some sep then g.root else x

/-- The place that a path leads to. -/
def Graph.resolve (x : ν) (path : List α) : Option ν :=
  g.follow (g.start sep x path) (parts sep path)

/-! ### Searching from left to right -/

/-- A path without its leading separator. -/
def strip : List α → List α
  | [] => []
  | a :: p => if a = sep then p else a :: p

lemma length_strip_le (path : List α) : (strip sep path).length ≤ path.length := by
  cases path with
  | nil => simp [strip]
  | cons a p =>
    rw [strip]
    split_ifs <;> simp

/-- Follow the first part of a path, and search the rest from there as a path of its own. -/
def Graph.search (x : ν) (path : List α) : Option ν :=
  match h : strip sep path with
  | [] => some (g.start sep x path)
  | a :: p =>
    (g.step (g.start sep x path) ((a :: p).takeWhile (· ≠ sep))).bind fun y =>
      have : ((a :: p).dropWhile (· ≠ sep)).tail.length < path.length := by
        have h1 := (List.dropWhile_suffix (· ≠ sep) (l := a :: p)).length_le
        have h2 := length_strip_le sep path
        rw [h] at h2
        rw [List.length_tail]
        simp only [List.length_cons] at *
        omega
      Graph.search y ((a :: p).dropWhile (· ≠ sep)).tail
termination_by path.length
decreasing_by exact this

/-! ### Doubled separators -/

/-- What lies before and behind the first doubled separator. -/
def cut : List α → Option (List α × List α)
  | a :: b :: p =>
    if a = sep ∧ b = sep then some ([], p) else (cut (b :: p)).map fun uv => (a :: uv.1, uv.2)
  | _ => none

lemma cut_eq {path u v : List α} (h : cut sep path = some (u, v)) :
    path = u ++ sep :: sep :: v := by
  induction path generalizing u with
  | nil => cases h
  | cons a p ih =>
    cases p with
    | nil => cases h
    | cons b p =>
      rw [cut] at h
      split_ifs at h with hab
      · obtain ⟨rfl, rfl⟩ := hab
        cases h
        rfl
      · rw [Option.map_eq_some_iff] at h
        obtain ⟨⟨u', v'⟩, h', heq⟩ := h
        cases heq
        rw [ih h']
        rfl

/-- Where a search starts from the root for the last time, and the path from there on. -/
def Graph.lastRestart (x : ν) (path : List α) : ν × List α :=
  match h : cut sep path with
  | none => (x, path)
  | some (u, v) =>
    if hu : u = [] ∨ (g.resolve sep x u).isNone then (x, path)
    else
      have : (sep :: v).length < path.length := by
        rw [cut_eq sep h]
        simp
        have := List.length_pos_iff.mpr (not_or.mp hu).1
        omega
      Graph.lastRestart g.root (sep :: v)
termination_by path.length

/-- No doubled separator is reached, or the path behind the last one leads from the root to where
the whole path leads; nothing follows if there is a third separator or if the path begins with
two. -/
def Graph.Harmless (x : ν) (path : List α) : Prop :=
  let rest := g.lastRestart sep x path
  if [sep, sep] <+: rest.2 then g.resolve sep x path = none
  else g.resolve sep rest.1 rest.2 = g.resolve sep x path

/-! ### Equations -/

variable {sep} {g} {x y : ν} {c p r path u v : List α}

@[simp] lemma Graph.follow_nil : g.follow x [] = some x := rfl

@[simp] lemma Graph.follow_cons {cs : List (List α)} :
    g.follow x (c :: cs) = (g.step x c).bind fun y => g.follow y cs := rfl

lemma Graph.step_nil : g.step x [] = none := by
  rw [Graph.step]
  split_ifs with h1 h2 h3
  · exact absurd h2.symm g.stay_ne_nil
  · exact absurd h3.symm g.up_ne_nil
  · exact g.child_nil x
  · rfl

@[simp] lemma parts_nil : parts sep [] = [] := by simp [parts]

lemma parts_append : parts sep (p ++ sep :: r) = parts sep p ++ parts sep r := by
  rw [parts, List.splitOn_append_cons_self, List.filter_append, parts, parts]

lemma parts_cons : parts sep (sep :: p) = parts sep p := by
  have h : parts sep ([] ++ sep :: p) = _ := parts_append
  simpa using h

lemma parts_of_not_mem (hc : c ≠ []) (hsep : sep ∉ c) : parts sep c = [c] := by
  rw [parts, List.splitOn_eq_singleton hsep]
  simp [hc]

omit [DecidableEq α] in
lemma head?_ne_of_not_mem (hsep : sep ∉ c) : c.head? ≠ some sep :=
  fun h => hsep (List.mem_of_head? h)

omit [DecidableEq α] in
lemma head?_append_ne (hc : c ≠ []) (hsep : sep ∉ c) : (c ++ r).head? ≠ some sep := by
  rw [List.head?_append_of_ne_nil c hc]
  exact head?_ne_of_not_mem hsep

@[simp] lemma Graph.start_sep : g.start sep x (sep :: p) = g.root := if_pos rfl

lemma Graph.start_of_ne (h : path.head? ≠ some sep) : g.start sep x path = x := if_neg h

lemma strip_of_ne (h : path.head? ≠ some sep) : strip sep path = path := by
  cases path with
  | nil => rfl
  | cons a p => exact if_neg fun ha => h (by rw [ha]; rfl)

@[simp] lemma strip_sep : strip sep (sep :: p) = p := if_pos rfl

@[simp] lemma Graph.resolve_nil : g.resolve sep x [] = some x := rfl

lemma Graph.resolve_sep (h : p.head? ≠ some sep) :
    g.resolve sep x (sep :: p) = g.resolve sep g.root p := by
  rw [resolve, resolve, start_sep, start_of_ne h, parts_cons]

lemma Graph.resolve_part (hc : c ≠ []) (hsep : sep ∉ c) : g.resolve sep x c = g.step x c := by
  rw [resolve, start_of_ne (head?_ne_of_not_mem hsep), parts_of_not_mem hc hsep]
  simp

lemma Graph.resolve_part_sep (hc : c ≠ []) (hsep : sep ∉ c) (hr : r.head? ≠ some sep) :
    g.resolve sep x (c ++ sep :: r) = (g.step x c).bind fun y => g.resolve sep y r := by
  rw [resolve, start_of_ne (head?_append_ne hc hsep), parts_append, parts_of_not_mem hc hsep]
  simp only [List.singleton_append, follow_cons, resolve, start_of_ne hr]

lemma Graph.search_of_strip_nil (h : strip sep path = []) :
    g.search sep x path = some (g.start sep x path) := by
  rw [search]
  split
  · rfl
  · simp_all

lemma Graph.search_of_strip_ne (h : strip sep path ≠ []) :
    g.search sep x path =
      (g.step (g.start sep x path) ((strip sep path).takeWhile (· ≠ sep))).bind fun y =>
        g.search sep y ((strip sep path).dropWhile (· ≠ sep)).tail := by
  rw [search]
  split
  · contradiction
  · simp_all

@[simp] lemma Graph.search_nil : g.search sep x [] = some x := search_of_strip_nil rfl

/-- A leading separator makes the place where the search starts irrelevant. -/
lemma Graph.search_sep_root : g.search sep x (sep :: p) = g.search sep g.root (sep :: p) := by
  by_cases hp : p = []
  · rw [search_of_strip_nil (by simpa), search_of_strip_nil (by simpa), start_sep, start_sep]
  · rw [search_of_strip_ne (by simpa), search_of_strip_ne (by simpa), start_sep, start_sep]

lemma Graph.search_sep (h : p.head? ≠ some sep) :
    g.search sep x (sep :: p) = g.search sep g.root p := by
  by_cases hp : p = []
  · subst hp
    rw [search_of_strip_nil (by simp), start_sep, search_nil]
  · rw [search_of_strip_ne (by simpa), search_of_strip_ne (by rwa [strip_of_ne h]), start_sep,
      start_of_ne h, strip_sep, strip_of_ne h]

/-- A doubled separator at the beginning looks for a part without a letter. -/
lemma Graph.search_sep_sep : g.search sep x (sep :: sep :: p) = none := by
  rw [search_of_strip_ne (by simp), strip_sep, List.takeWhile_cons_of_neg (by simp), step_nil]
  rfl

lemma Graph.search_part (hc : c ≠ []) (hsep : sep ∉ c) : g.search sep x c = g.step x c := by
  have hhead := head?_ne_of_not_mem hsep
  have hall : ∀ a ∈ c, (fun a => decide (a ≠ sep)) a = true := by
    intro a ha
    exact decide_eq_true fun h => hsep (h ▸ ha)
  rw [search_of_strip_ne (by rwa [strip_of_ne hhead]), start_of_ne hhead, strip_of_ne hhead,
    List.takeWhile_eq_self_iff.mpr hall, List.dropWhile_eq_nil_iff.mpr hall]
  simp

lemma Graph.search_part_sep (hc : c ≠ []) (hsep : sep ∉ c) :
    g.search sep x (c ++ sep :: r) = (g.step x c).bind fun y => g.search sep y r := by
  have hhead := head?_append_ne (r := sep :: r) hc hsep
  have hall : ∀ a ∈ c, (fun a => decide (a ≠ sep)) a = true := by
    intro a ha
    exact decide_eq_true fun h => hsep (h ▸ ha)
  rw [search_of_strip_ne (by rw [strip_of_ne hhead]; simp), start_of_ne hhead, strip_of_ne hhead,
    List.takeWhile_append_of_pos hall, List.dropWhile_append_of_pos hall,
    List.takeWhile_cons_of_neg (by simp), List.dropWhile_cons_of_neg (by simp), List.append_nil,
    List.tail_cons]

/-- The path with the given parts. -/
def join (sep : α) : List (List α) → List α
  | [] => []
  | [c] => c
  | c :: c' :: cs => c ++ sep :: join sep (c' :: cs)

omit [DecidableEq α] in
lemma head?_join_ne {cs : List (List α)} (h : ∀ c ∈ cs, c ≠ [] ∧ sep ∉ c) :
    (join sep cs).head? ≠ some sep := by
  match cs with
  | [] => simp [join]
  | [c] => exact head?_ne_of_not_mem (h c (by simp)).2
  | c :: c' :: cs =>
    obtain ⟨hc, hsep⟩ := h c (by simp)
    exact head?_append_ne hc hsep

/-- The search of a path follows its parts. -/
lemma Graph.search_join {x : ν} {cs : List (List α)} (h : ∀ c ∈ cs, c ≠ [] ∧ sep ∉ c) :
    g.search sep x (join sep cs) = g.follow x cs := by
  match cs with
  | [] => rw [join, search_nil, follow_nil]
  | [c] =>
    obtain ⟨hc, hsep⟩ := h c (by simp)
    rw [join, search_part hc hsep, follow_cons]
    simp
  | c :: c' :: cs =>
    obtain ⟨hc, hsep⟩ := h c (by simp)
    rw [join, search_part_sep hc hsep, follow_cons]
    congr 1
    funext y
    exact search_join fun d hd => h d (List.mem_cons_of_mem _ hd)

lemma Graph.follow_append {cs cs' : List (List α)} :
    g.follow x (cs ++ cs') = (g.follow x cs).bind fun y => g.follow y cs' := by
  rw [follow, List.foldlM_append]
  rfl

lemma cut_sep_sep : cut sep (sep :: sep :: p) = some ([], p) := if_pos ⟨rfl, rfl⟩

lemma cut_cons {a : α} (h : a ≠ sep ∨ p.head? ≠ some sep) :
    cut sep (a :: p) = (cut sep p).map fun uv => (a :: uv.1, uv.2) := by
  cases p with
  | nil => rfl
  | cons b p =>
    refine if_neg ?_
    rintro ⟨rfl, rfl⟩
    simp at h

lemma cut_append (hsep : sep ∉ c) :
    cut sep (c ++ p) = (cut sep p).map fun uv => (c ++ uv.1, uv.2) := by
  induction c with
  | nil => simp
  | cons a c ih =>
    rw [List.mem_cons, not_or] at hsep
    rw [List.cons_append, cut_cons (.inl (Ne.symm hsep.1)), ih hsep.2, Option.map_map]
    rfl

/-- A path is empty, or begins with a separator, or with a part. -/
lemma path_cases (sep : α) (path : List α) : path = [] ∨ (∃ p, path = sep :: p) ∨
    ∃ c, c ≠ [] ∧ sep ∉ c ∧ (path = c ∨ ∃ r, path = c ++ sep :: r) := by
  have hsplit := List.takeWhile_append_dropWhile (p := fun a => decide (a ≠ sep)) (l := path)
  have hsep : sep ∉ path.takeWhile fun a => decide (a ≠ sep) := by
    intro h
    simpa using List.mem_takeWhile_imp h
  cases hdrop : path.dropWhile fun a => decide (a ≠ sep) with
  | nil =>
    rw [hdrop, List.append_nil] at hsplit
    by_cases hp : path = []
    · exact .inl hp
    · exact .inr (.inr ⟨path, hp, hsplit ▸ hsep, .inl rfl⟩)
  | cons a r =>
    have ha : a = sep := by
      have h := List.head?_dropWhile_not (fun a => decide (a ≠ sep)) path
      rw [hdrop] at h
      simpa using h
    rw [hdrop, ha] at hsplit
    by_cases hc : (path.takeWhile fun a => decide (a ≠ sep)) = []
    · rw [hc, List.nil_append] at hsplit
      exact .inr (.inl ⟨r, hsplit.symm⟩)
    · exact .inr (.inr ⟨_, hc, hsep, .inr ⟨r, hsplit.symm⟩⟩)

/-! ### The search and the meaning -/

/-- Without a doubled separator the search finds the place that the path means. -/
theorem Graph.search_eq_resolve (h : cut sep path = none) :
    g.search sep x path = g.resolve sep x path := by
  induction hn : path.length using Nat.strong_induction_on generalizing x path with
  | h n ih =>
    subst hn
    rcases path_cases sep path with rfl | ⟨p, rfl⟩ | ⟨c, hc, hsep, rfl | ⟨r, rfl⟩⟩
    · simp
    · have hp : p.head? ≠ some sep := by
        intro hp
        obtain ⟨p, rfl⟩ := List.head?_eq_some_iff.mp hp
        rw [cut_sep_sep] at h
        cases h
      rw [cut_cons (.inr hp), Option.map_eq_none_iff] at h
      rw [search_sep hp, resolve_sep hp, ih _ (by simp) h rfl]
    · rw [search_part hc hsep, resolve_part hc hsep]
    · rw [cut_append hsep, Option.map_eq_none_iff] at h
      have hr : r.head? ≠ some sep := by
        intro hr
        obtain ⟨r, rfl⟩ := List.head?_eq_some_iff.mp hr
        rw [cut_sep_sep] at h
        cases h
      rw [cut_cons (.inr hr), Option.map_eq_none_iff] at h
      rw [search_part_sep hc hsep, resolve_part_sep hc hsep hr]
      congr 1
      funext y
      exact ih _ (by simp only [List.length_append, List.length_cons]; omega) h rfl

/-- At a doubled separator that is reached the search starts again from the root. -/
lemma Graph.search_of_cut (h : cut sep path = some (u, v)) (hu : u ≠ []) :
    g.search sep x path = (g.resolve sep x u).bind fun _ => g.search sep g.root (sep :: v) := by
  induction hn : path.length using Nat.strong_induction_on generalizing x path u with
  | h n ih =>
    subst hn
    rcases path_cases sep path with rfl | ⟨p, rfl⟩ | ⟨c, hc, hsep, rfl | ⟨r, rfl⟩⟩
    · cases h
    · have hp : p.head? ≠ some sep := by
        intro hp
        obtain ⟨p, rfl⟩ := List.head?_eq_some_iff.mp hp
        rw [cut_sep_sep] at h
        cases h
        exact hu rfl
      rw [cut_cons (.inr hp), Option.map_eq_some_iff] at h
      obtain ⟨⟨u', v'⟩, h, heq⟩ := h
      cases heq
      have hu' : u'.head? ≠ some sep ∧ u' ≠ [] := by
        have hpath := cut_eq sep h
        cases u' with
        | nil => simp [hpath] at hp
        | cons a u' => simpa [hpath] using hp
      rw [search_sep hp, resolve_sep hu'.1, ih _ (by simp) h hu'.2 rfl]
    · have hcut := cut_append (p := []) hsep
      rw [List.append_nil, h] at hcut
      cases hcut
    · rw [cut_append hsep, Option.map_eq_some_iff] at h
      obtain ⟨⟨u', v'⟩, h, heq⟩ := h
      cases heq
      rw [search_part_sep hc hsep]
      by_cases hr : r.head? = some sep
      · obtain ⟨r, rfl⟩ := List.head?_eq_some_iff.mp hr
        rw [cut_sep_sep] at h
        cases h
        rw [List.append_nil, resolve_part hc hsep]
        congr 1
        funext y
        exact search_sep_root
      · rw [cut_cons (.inr hr), Option.map_eq_some_iff] at h
        obtain ⟨⟨u'', v''⟩, h, heq⟩ := h
        cases heq
        have hu'' : u''.head? ≠ some sep ∧ u'' ≠ [] := by
          have hpath := cut_eq sep h
          cases u'' with
          | nil => simp [hpath] at hr
          | cons a u'' => simpa [hpath] using hr
        rw [resolve_part_sep hc hsep hu''.1, Option.bind_assoc]
        congr 1
        funext y
        exact ih _ (by simp only [List.length_append, List.length_cons]; omega) h hu''.2 rfl

/-- What the search finds: what the path means from the last restart on. -/
lemma Graph.search_eq_lastRestart (x : ν) (path : List α) : g.search sep x path =
    if [sep, sep] <+: (g.lastRestart sep x path).2 then none
    else g.resolve sep (g.lastRestart sep x path).1 (g.lastRestart sep x path).2 := by
  induction hn : path.length using Nat.strong_induction_on generalizing x path with
  | h n ih =>
    subst hn
    rw [lastRestart]
    split
    case h_1 h =>
      have hne : ¬ [sep, sep] <+: path := by
        rintro ⟨p, rfl⟩
        rw [List.cons_append, List.cons_append, cut_sep_sep] at h
        cases h
      rw [if_neg hne, search_eq_resolve h]
    case h_2 u v h =>
      have hpath := cut_eq sep h
      by_cases hu : u = []
      · rw [dif_pos (.inl hu), hpath, hu, if_pos ⟨v, rfl⟩]
        exact search_sep_sep
      have hne : ¬ [sep, sep] <+: path := by
        rintro ⟨p, rfl⟩
        rw [List.cons_append, List.cons_append, cut_sep_sep] at h
        cases h
        exact hu rfl
      by_cases hres : g.resolve sep x u = none
      · rw [dif_pos (.inr (by simp [hres])), if_neg hne, search_of_cut h hu, hres, Option.bind_none,
          hpath]
        symm
        have hstart : g.start sep x (u ++ sep :: sep :: v) = g.start sep x u := by
          rw [start, start, List.head?_append_of_ne_nil u hu]
        rw [resolve, hstart, parts_append, follow, List.foldlM_append]
        rw [resolve, follow] at hres
        rw [hres]
        rfl
      · obtain ⟨y, hy⟩ := Option.ne_none_iff_exists'.mp hres
        have hlen : (sep :: v).length < path.length := by
          have := List.length_pos_iff.mpr hu
          rw [hpath]
          simp only [List.length_cons, List.length_append]
          omega
        have hsearch : g.search sep x path = g.search sep g.root (sep :: v) := by
          rw [search_of_cut h hu, hy, Option.bind_some]
        rw [dif_neg (by simp [hu, hy]), hsearch, ih _ hlen g.root (sep :: v) rfl]

/-- The search finds the place that a path means exactly when the doubled separators that it reaches
make no difference. -/
theorem Graph.search_eq_resolve_iff :
    g.search sep x path = g.resolve sep x path ↔ g.Harmless sep x path := by
  rw [search_eq_lastRestart, Harmless]
  split_ifs
  · exact eq_comm
  · exact Iff.rfl

/-! ### Places that are reached -/

/-- What holds of the root and is kept by each part holds of all places that are found. -/
lemma Graph.search_induction {P : ν → Prop} (hroot : P g.root)
    (hstep : ∀ x c y, P x → g.step x c = some y → P y) (hx : P x)
    (h : g.search sep x path = some y) : P y := by
  induction hn : path.length using Nat.strong_induction_on generalizing x path with
  | h n ih =>
    subst hn
    have hstart : P (g.start sep x path) := by
      rw [start]
      split_ifs
      · exact hroot
      · exact hx
    rw [search] at h
    split at h
    · cases h
      exact hstart
    case h_2 a p hp =>
      obtain ⟨y', hy', h⟩ := Option.bind_eq_some_iff.mp h
      refine ih _ ?_ (hstep _ _ _ hstart hy') h rfl
      have h1 := (List.dropWhile_suffix (· ≠ sep) (l := a :: p)).length_le
      have h2 := length_strip_le sep path
      rw [hp] at h2
      rw [List.length_tail]
      simp only [List.length_cons] at *
      omega

lemma Graph.resolve_induction {P : ν → Prop} (hroot : P g.root)
    (hstep : ∀ x c y, P x → g.step x c = some y → P y) (hx : P x)
    (h : g.resolve sep x path = some y) : P y := by
  rw [resolve] at h
  have hstart : P (g.start sep x path) := by
    rw [start]
    split_ifs
    · exact hroot
    · exact hx
  generalize g.start sep x path = x' at h hstart
  generalize parts sep path = cs at h
  induction cs generalizing x' with
  | nil =>
    cases h
    exact hstart
  | cons c cs ih =>
    rw [follow_cons] at h
    obtain ⟨y', hy', h⟩ := Option.bind_eq_some_iff.mp h
    exact ih _ (hstep _ _ _ hstart hy') h

end

end Paths
