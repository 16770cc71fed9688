import Mathlib.Data.List.Basic
import Mathlib.Data.List.Induction
import Mathlib.Logic.Function.Basic
import Mathlib.Order.Basic
import Mathlib.Tactic.Common

/-!
# The shell

The line editor of `user/sh.c`, and which lines it executes. A line of blanks only is not executed,
and stays in the buffer for the next one.
-/

namespace Jokerix.User

def charLF : UInt8 := 0x0a
def charCR : UInt8 := 0x0d
def charBS : UInt8 := 0x08
def charDL : UInt8 := 0x7f
def charSpace : UInt8 := 0x20
def charTab : UInt8 := 0x09

/-- The locals of `main`; only the first 256 bytes of `line` are its array. -/
structure Shell where
  line : ℕ → UInt8
  /-- The number of bytes kept of the current line. -/
  lineCount : ℕ

/-- What the shell asks of the system. -/
inductive ShellOutput where
  | printf (text : String)
  | putchar (c : UInt8)
  | exec (path : List UInt8)
  deriving DecidableEq, Repr

/-- The loop of `isEmpty` from `i` on. -/
def isEmptyFrom (line : ℕ → UInt8) : ℕ → ℕ → Bool
  | _, 0 => true
  | i, n + 1 =>
    if line i = 0 then true
    else if line i ≠ charSpace ∧ line i ≠ charTab then false
    else isEmptyFrom line (i + 1) n

/-- Nothing but blanks comes before the end of the string. -/
def isEmpty (line : ℕ → UInt8) (length : ℕ) : Bool := isEmptyFrom line 0 length

def empty (line : ℕ → UInt8) (length : ℕ) : ℕ → UInt8 := fun i => if i < length then 0 else line i

/-- The NUL-terminated string from `i` on. -/
def cStringFrom (line : ℕ → UInt8) : ℕ → ℕ → List UInt8
  | _, 0 => []
  | i, n + 1 => if line i = 0 then [] else line i :: cStringFrom line (i + 1) n

/-- One turn of the loop of `main`: what it does with a byte. -/
def shellStep (sh : Shell) (c : UInt8) : List ShellOutput × Shell :=
  if c = charLF ∨ c = charCR then
    if isEmpty sh.line 256 = false then
      ([.printf "\n", .exec (cStringFrom sh.line 0 256), .printf "$ "], ⟨empty sh.line 256, 0⟩)
    else ([.printf "\n", .printf "$ "], sh)
  else if c = charDL then
    if 0 < sh.lineCount then
      ([.putchar charBS, .putchar charSpace, .putchar charBS],
        ⟨Function.update sh.line (sh.lineCount - 1) 0, sh.lineCount - 1⟩)
    else ([], sh)
  else if sh.lineCount < 255 then
    ([.putchar c], ⟨Function.update sh.line sh.lineCount c, sh.lineCount + 1⟩)
  else ([], sh)

def shellRun (sh : Shell) : List UInt8 → List ShellOutput × Shell
  | [] => ([], sh)
  | c :: cs =>
    let (out, sh) := shellStep sh c
    let (out', sh) := shellRun sh cs
    (out ++ out', sh)

/-- The empty state. -/
def Shell.start : Shell := ⟨fun _ => 0, 0⟩

/-- The state after a sequence of bytes. -/
def shellAfter (cs : List UInt8) : Shell := (shellRun .start cs).2

/-- The lines executed. -/
def execs (out : List ShellOutput) : List (List UInt8) :=
  out.filterMap fun | .exec path => some path | _ => none

/-! ### What was typed -/

def IsNewline (c : UInt8) : Prop := c = charLF ∨ c = charCR

/-- Some byte is neither a space nor a tab. -/
def IsCommand (w : List UInt8) : Prop := ∃ b ∈ w, b ≠ charSpace ∧ b ≠ charTab

instance (c : UInt8) : Decidable (IsNewline c) := inferInstanceAs (Decidable (_ ∨ _))

instance (w : List UInt8) : Decidable (IsCommand w) :=
  inferInstanceAs (Decidable (∃ b ∈ w, b ≠ charSpace ∧ b ≠ charTab))

/-- The current line after one more byte. -/
def typeByte (w : List UInt8) (c : UInt8) : List UInt8 :=
  if IsNewline c then []
  else if c = charDL then w.dropLast
  else if w.length < 255 then w ++ [c]
  else w

/-- The bytes typed since the last line ended. -/
def typedLine (cs : List UInt8) : List UInt8 := cs.foldl typeByte []

/-- At each end of a line exactly the line typed is executed, unless it is blank, and the next one
starts from the empty state. The buffer never overflows. -/
structure ExecutesTyped (cs : List UInt8) : Prop where
  line : ∀ pre c post, cs = pre ++ c :: post → IsNewline c →
    execs (shellStep (shellAfter pre) c).1 =
        (if IsCommand (typedLine pre) then [typedLine pre] else []) ∧
      (shellStep (shellAfter pre) c).2 = .start
  bound : ∀ pre post, cs = pre ++ post →
    (shellAfter pre).lineCount ≤ 255 ∧ (shellAfter pre).line 255 = 0

section
variable {sh : Shell} {w : List UInt8} {c : UInt8} {cs pre : List UInt8}

lemma shellAfter_snoc (cs : List UInt8) (c : UInt8) :
    shellAfter (cs ++ [c]) = (shellStep (shellAfter cs) c).2 := by
  have hrun : ∀ sh, (shellRun sh (cs ++ [c])).2 = (shellStep (shellRun sh cs).2 c).2 := by
    induction cs with
    | nil => exact fun _ => rfl
    | cons c' cs ih => exact fun sh => ih (shellStep sh c').2
  exact hrun .start

lemma typedLine_snoc (cs : List UInt8) (c : UInt8) :
    typedLine (cs ++ [c]) = typeByte (typedLine cs) c := by
  rw [typedLine, List.foldl_append]
  rfl

/-! ### The buffer -/

/-- The buffer holds the line `w` and zeroes behind it. -/
structure Buffered (sh : Shell) (w : List UInt8) : Prop where
  count : sh.lineCount = w.length
  le : w.length ≤ 255
  nonzero : (0 : UInt8) ∉ w
  line : ∀ i, sh.line i = w[i]?.getD 0

lemma buffered_start : Buffered .start [] := ⟨rfl, by simp, by simp, by simp [Shell.start]⟩

lemma Buffered.eq_start (h : Buffered sh []) : sh = .start := by
  obtain ⟨line, count⟩ := sh
  obtain ⟨hcount, _, _, hline⟩ := h
  simp only [List.length_nil, List.getElem?_nil, Option.getD_none] at hcount hline
  simp only [Shell.start, Shell.mk.injEq]
  exact ⟨funext hline, hcount⟩

/-- The string from a place on, when the list `v` is there and a zero behind it. -/
lemma cStringFrom_eq {line : ℕ → UInt8} {v : List UInt8} {i n : ℕ} (hlt : v.length < n)
    (hv : (0 : UInt8) ∉ v) (hline : ∀ j, line (i + j) = v[j]?.getD 0) :
    cStringFrom line i n = v ∧ (isEmptyFrom line i n = false ↔ IsCommand v) := by
  induction v generalizing i n with
  | nil =>
    obtain ⟨n, rfl⟩ := Nat.exists_eq_add_of_lt hlt
    have hzero : line i = 0 := hline 0
    simp [cStringFrom, isEmptyFrom, hzero, IsCommand]
  | cons b v ih =>
    obtain ⟨n, rfl⟩ := Nat.exists_eq_succ_of_ne_zero (Nat.ne_of_gt (Nat.zero_lt_of_lt hlt))
    rw [List.mem_cons, not_or] at hv
    have hb : line i = b := hline 0
    obtain ⟨hstring, hblank⟩ := ih (i := i + 1) (n := n) (by simpa using hlt) hv.2 (by
      intro j
      rw [Nat.add_right_comm, Nat.add_assoc, hline]
      simp)
    have hne : b ≠ 0 := fun h => hv.1 h.symm
    refine ⟨?_, ?_⟩
    · rw [cStringFrom, hb, if_neg hne, hstring]
    · rw [isEmptyFrom, hb, if_neg hne]
      split_ifs with hother
      · simp [IsCommand, hother]
      · rw [hblank]
        simp [IsCommand, hother]

lemma Buffered.command (h : Buffered sh w) :
    cStringFrom sh.line 0 256 = w ∧ (isEmpty sh.line 256 = false ↔ IsCommand w) :=
  cStringFrom_eq (Nat.lt_succ_of_le h.le) h.nonzero fun j => by rw [Nat.zero_add, h.line]

/-- A byte of a line. -/
lemma Buffered.type (h : Buffered sh w) (hc : c ≠ 0) (hline : ¬ IsNewline c) :
    Buffered (shellStep sh c).2 (typeByte w c) := by
  obtain ⟨hcount, hle, hnonzero, hbuf⟩ := h
  have hother : ¬ (c = charLF ∨ c = charCR) := hline
  rw [shellStep, if_neg hother, typeByte, if_neg hline, hcount]
  split_ifs with hdel hpos hroom
  · refine ⟨by simp, by simp; omega, fun hmem => hnonzero ((List.dropLast_sublist w).mem hmem), ?_⟩
    intro i
    dsimp only
    rw [Function.update_apply, List.getElem?_dropLast, hbuf]
    split_ifs with heq hlt hlt
    · omega
    · rfl
    · rfl
    · rw [List.getElem?_eq_none (by omega)]
  · have hnil : w = [] := by simpa using hpos
    subst hnil
    exact ⟨hcount, hle, hnonzero, hbuf⟩
  · refine ⟨by simp, by simp; omega, by simp [hnonzero, hc.symm], ?_⟩
    intro i
    dsimp only
    rw [Function.update_apply, List.getElem?_append, hbuf]
    split_ifs with heq hlt hlt
    · omega
    · simp [heq]
    · rfl
    · rw [List.getElem?_eq_none (by omega), List.getElem?_eq_none (by simp; omega)]
  · exact ⟨hcount, hle, hnonzero, hbuf⟩

/-- The end of a line: a command is executed, and the buffer is empty then or if it was before. -/
lemma Buffered.newline (h : Buffered sh w) (hc : IsNewline c) :
    execs (shellStep sh c).1 = (if IsCommand w then [w] else []) ∧
      ((shellStep sh c).2 = .start ↔ w = [] ∨ IsCommand w) := by
  obtain ⟨hstring, hcommand⟩ := h.command
  have hend : c = charLF ∨ c = charCR := hc
  rw [shellStep, if_pos hend]
  by_cases hw : IsCommand w
  · rw [if_pos (hcommand.mpr hw), if_pos hw, hstring]
    refine ⟨rfl, iff_of_true ?_ (.inr hw)⟩
    simp only [Shell.start, Shell.mk.injEq, and_true]
    funext i
    rw [empty, h.line]
    split_ifs with hi
    · rfl
    · rw [List.getElem?_eq_none (by have := h.le; omega), Option.getD_none]
  · rw [if_neg (mt hcommand.mp hw), if_neg hw]
    refine ⟨rfl, ?_⟩
    simp only [hw, or_false]
    constructor
    · intro hstart
      have hcount : sh.lineCount = 0 := by
        rw [show sh = .start from hstart]
        rfl
      exact List.length_eq_zero_iff.mp (h.count.symm.trans hcount)
    · rintro rfl
      exact h.eq_start

/-- While each line starts from the empty state, the buffer holds the line typed. -/
lemma buffered_after (hne : ∀ c ∈ cs, c ≠ 0)
    (hstart : ∀ pre c post, cs = pre ++ c :: post → IsNewline c →
      Buffered (shellAfter pre) (typedLine pre) → (shellStep (shellAfter pre) c).2 = .start) :
    Buffered (shellAfter cs) (typedLine cs) := by
  induction cs using List.reverseRecOn with
  | nil => exact buffered_start
  | append_singleton cs c ih =>
    have hbuf : Buffered (shellAfter cs) (typedLine cs) := by
      apply ih
      · exact fun b hb => hne b (List.mem_append_left _ hb)
      · intro pre c' post hcs
        exact hstart pre c' (post ++ [c]) (by simp [hcs])
    rw [shellAfter_snoc, typedLine_snoc]
    by_cases hc : IsNewline c
    · rw [hstart cs c [] rfl hc hbuf, typeByte, if_pos hc]
      exact buffered_start
    · exact hbuf.type (hne c (by simp)) hc

end

/-- On a sequence of bytes the shell executes what was typed on each line if and only if every line
that ends is either void or has a byte other than a space or a tab. -/
theorem shell_executes_typed_iff (cs : List UInt8) (hne : ∀ c ∈ cs, c ≠ 0) :
    ExecutesTyped cs ↔ ∀ pre c post, cs = pre ++ c :: post → IsNewline c →
      typedLine pre = [] ∨ IsCommand (typedLine pre) := by
  constructor
  · intro h pre c post hcs hc
    have hbuf : Buffered (shellAfter pre) (typedLine pre) := by
      apply buffered_after
      · exact fun b hb => hne b (by simp [hcs, hb])
      · intro pre' c' post' hpre hc' _
        exact (h.line pre' c' (post' ++ c :: post) (by simp [hcs, hpre]) hc').2
    exact (hbuf.newline hc).2.mp (h.line pre c post hcs hc).2
  · intro hcond
    have hbuf : ∀ pre post, cs = pre ++ post → Buffered (shellAfter pre) (typedLine pre) := by
      intro pre post hcs
      apply buffered_after
      · exact fun b hb => hne b (by simp [hcs, hb])
      · intro pre' c' post' hpre hc' hbuf'
        exact (hbuf'.newline hc').2.mpr (hcond pre' c' (post' ++ post) (by simp [hcs, hpre]) hc')
    refine ⟨?_, ?_⟩
    · intro pre c post hcs hc
      obtain ⟨hexec, hstart⟩ := (hbuf pre _ hcs).newline hc
      exact ⟨hexec, hstart.mpr (hcond pre c post hcs hc)⟩
    · intro pre post hcs
      obtain ⟨hcount, hle, _, hline⟩ := hbuf pre post hcs
      refine ⟨hcount.trans_le hle, ?_⟩
      rw [hline, List.getElem?_eq_none hle, Option.getD_none]

/-- The places of a list, by their index. -/
lemma splits_of_index {P : List UInt8 → UInt8 → Prop} {cs : List UInt8}
    (h : ∀ i : Fin cs.length, P (cs.take i) (cs.get i)) :
    ∀ pre c post, cs = pre ++ c :: post → P pre c := by
  rintro pre c post rfl
  simpa using h ⟨pre.length, by simp⟩

/-- Two commands with a deletion, and a void line. -/
theorem shell_executes_typed_iff_two :
    ExecutesTyped [0x6c, 0x78, 0x7f, 0x73, 0x0d, 0x0a, 0x20, 0x68, 0x0a] :=
  (shell_executes_typed_iff _ (by simp)).mpr (splits_of_index (by decide))

/-- After a line of one space the line `ls` is executed with that space in front. -/
theorem shell_keeps_blanks :
    execs (shellRun .start [0x20, 0x0a, 0x6c, 0x73, 0x0a]).1 = [[0x20, 0x6c, 0x73]] ∧
      ¬ ExecutesTyped [0x20, 0x0a, 0x6c, 0x73, 0x0a] := by
  refine ⟨by decide, ?_⟩
  intro h
  have hstart := (h.line [0x20] 0x0a [0x6c, 0x73, 0x0a] rfl (by decide)).2
  exact absurd (congrArg Shell.lineCount hstart) (by decide)

end Jokerix.User
