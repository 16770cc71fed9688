import Mathlib.Data.List.Basic
import Mathlib.Data.List.GetD
import Mathlib.Tactic.NormNum
import Mathlib.Tactic.Positivity
import Mathlib.Tactic.Ring

/-!
# Formatted output

`printf` of `kernel/printf.c`, and of `user/io.c` where a system call stands for `consolePutchar`.
What it prints is given as the list of its characters. A reader of that output, `scan`, gets the
arguments back.
-/

namespace Jokerix.Console

/-! ### Numbers -/

def digits : List UInt8 :=
  [48, 49, 50, 51, 52, 53, 54, 55, 56, 57, 97, 98, 99, 100, 101, 102]

/-- The size of `buf` in `printint`. -/
def sizeofBuf : ℕ := 16

/-- The first loop of `printint`, with `room` bytes of `buf` left. -/
def fillBuf (base : ℕ) : ℕ → ℕ → Option (List UInt8)
  | 0, _ => none
  | room + 1, x => do
    let c ← digits[x % base]?
    if x / base ≠ 0 then some (c :: (← fillBuf base room (x / base))) else some [c]

/-- `none` where C does not say what happens: the negation of the least number overflows. -/
def printint (xx : BitVec 32) (base : ℕ) (sign : Bool) : Option (List UInt8) :=
  if sign && xx.slt 0 then
    if xx = BitVec.intMin 32 then none
    else do
      let buf ← fillBuf base sizeofBuf (-xx).toNat
      if buf.length < sizeofBuf then some ('-'.toUInt8 :: buf.reverse) else none
  else (fillBuf base sizeofBuf xx.toNat).map List.reverse

/-- The loop of `printptr`. -/
def printNibbles : ℕ → BitVec 64 → List UInt8
  | 0, _ => []
  | n + 1, x => digits.getD (x >>> 60).toNat 0 :: printNibbles n (x <<< 4)

def printptr (x : BitVec 64) : List UInt8 := '0'.toUInt8 :: 'x'.toUInt8 :: printNibbles 16 x

/-! ### Formats -/

/-- The words that `va_arg` takes one after the other, the arguments and what lies behind them. -/
abbrev Args := ℕ → BitVec 64

/-- The words behind the first. -/
def Args.next (args : Args) : Args := fun n => args (n + 1)

/-- What `%` and the character `c` print. `string` gives the bytes from an address on up to a
NUL. -/
def printArg (string : BitVec 64 → List UInt8) (c : UInt8) (args : Args) :
    Option (List UInt8 × Args) :=
  if c = 'd'.toUInt8 then (printint ((args 0).setWidth 32) 10 true).map (·, args.next)
  else if c = 'x'.toUInt8 then (printint ((args 0).setWidth 32) 16 true).map (·, args.next)
  else if c = 'p'.toUInt8 then some (printptr (args 0), args.next)
  else if c = 's'.toUInt8 then
    -- "(null)" for a null pointer
    some (if args 0 = 0 then [40, 110, 117, 108, 108, 41] else string (args 0), args.next)
  else if c = '%'.toUInt8 then some (['%'.toUInt8], args)
  else some (['%'.toUInt8, c], args)

/-- The format is a string without its NUL; a `%` at its end prints nothing. -/
def printf (string : BitVec 64 → List UInt8) : List UInt8 → Args → Option (List UInt8)
  | [], _ => some []
  | [c], _ => if c ≠ '%'.toUInt8 then some [c] else some []
  | c :: c' :: fmt, args =>
    if c ≠ '%'.toUInt8 then do some (c :: (← printf string (c' :: fmt) args))
    else do
      let (out, args) ← printArg string c' args
      some (out ++ (← printf string fmt args))

/-! ### Reading the output -/

/-- An argument as it is printed: `%d` and `%x` print an `int`. -/
inductive Arg where
  | int (x : BitVec 32)
  | pointer (x : BitVec 64)
  deriving DecidableEq

/-- What the numbers consist of. -/
def isNumeral (c : UInt8) : Bool := c = '-'.toUInt8 || digits.contains c

def readNat (base : ℕ) (ds : List UInt8) : ℕ := ds.foldl (fun n c => base * n + digits.idxOf c) 0

def readInt (base : ℕ) : List UInt8 → BitVec 32
  | [] => 0
  | c :: ds =>
    if c = '-'.toUInt8 then -BitVec.ofNat 32 (readNat base ds)
    else BitVec.ofNat 32 (readNat base (c :: ds))

/-- The arguments behind an output, for a format without `%s`. -/
def scan : List UInt8 → List UInt8 → Option (List Arg)
  | [], out => if out = [] then some [] else none
  | [c], out => if out = (if c ≠ '%'.toUInt8 then [c] else []) then some [] else none
  | c :: c' :: fmt, out =>
    if c ≠ '%'.toUInt8 then
      if out.head? = some c then scan (c' :: fmt) out.tail else none
    else if c' = 'd'.toUInt8 then
      (scan fmt (out.dropWhile isNumeral)).map (.int (readInt 10 (out.takeWhile isNumeral)) :: ·)
    else if c' = 'x'.toUInt8 then
      (scan fmt (out.dropWhile isNumeral)).map (.int (readInt 16 (out.takeWhile isNumeral)) :: ·)
    else if c' = 'p'.toUInt8 then
      (scan fmt (out.drop 18)).map
        (.pointer (BitVec.ofNat 64 (readNat 16 ((out.take 18).drop 2))) :: ·)
    else if c' = '%'.toUInt8 then scan fmt out.tail
    else scan fmt out.tail.tail

/-- `%` and the character print an argument. -/
def TakesArg (c : UInt8) : Prop :=
  c = 'd'.toUInt8 ∨ c = 'x'.toUInt8 ∨ c = 'p'.toUInt8 ∨ c = 's'.toUInt8

instance (c : UInt8) : Decidable (TakesArg c) := inferInstanceAs (Decidable (_ ∨ _))

/-- What a format prints first is not part of a number. -/
def Separated : List UInt8 → Prop
  | [] => True
  | [c] => isNumeral c = false
  | c :: c' :: _ => isNumeral c = false ∧ (c = '%'.toUInt8 → ¬ TakesArg c')

/-- No strings are printed, and numbers end where another character comes. -/
def Readable : List UInt8 → Prop
  | [] => True
  | [_] => True
  | c :: c' :: fmt =>
    if c ≠ '%'.toUInt8 then Readable (c' :: fmt)
    else c' ≠ 's'.toUInt8 ∧ (c' = 'd'.toUInt8 ∨ c' = 'x'.toUInt8 → Separated fmt) ∧ Readable fmt

instance Separated.decidable : (fmt : List UInt8) → Decidable (Separated fmt)
  | [] => inferInstanceAs (Decidable True)
  | [c] => inferInstanceAs (Decidable (isNumeral c = false))
  | c :: c' :: _ =>
    inferInstanceAs (Decidable (isNumeral c = false ∧ (c = '%'.toUInt8 → ¬ TakesArg c')))

instance Readable.decidable : (fmt : List UInt8) → Decidable (Readable fmt)
  | [] => inferInstanceAs (Decidable True)
  | [_] => inferInstanceAs (Decidable True)
  | c :: c' :: fmt =>
    have := Readable.decidable fmt
    have := Readable.decidable (c' :: fmt)
    inferInstanceAs (Decidable (if c ≠ '%'.toUInt8 then Readable (c' :: fmt)
      else c' ≠ 's'.toUInt8 ∧ (c' = 'd'.toUInt8 ∨ c' = 'x'.toUInt8 → Separated fmt) ∧ Readable fmt))

/-- The characters behind each `%` that take an argument, in order. -/
def conversions : List UInt8 → List UInt8
  | [] => []
  | [_] => []
  | c :: c' :: fmt =>
    if c ≠ '%'.toUInt8 then conversions (c' :: fmt)
    else if TakesArg c' then c' :: conversions fmt
    else conversions fmt

/-- What these conversions print. -/
def shown : List UInt8 → Args → List Arg
  | [], _ => []
  | c :: cs, args =>
    (if c = 'd'.toUInt8 ∨ c = 'x'.toUInt8 then .int ((args 0).setWidth 32)
      else .pointer (args 0)) :: shown cs args.next

/-! ### Numbers are read back -/

section
variable {base x n : ℕ} {c : UInt8} {ds out : List UInt8}

lemma idxOf_digit {d : ℕ} (h : digits[d]? = some c) : digits.idxOf c = d := by
  obtain ⟨hlt, rfl⟩ := List.getElem?_eq_some_iff.mp h
  exact List.Nodup.idxOf_getElem (by decide) d hlt

lemma isNumeral_digit (h : c ∈ digits) : isNumeral c = true := by
  simp [isNumeral, h]

lemma digit_ne_minus (h : c ∈ digits) : c ≠ '-'.toUInt8 := by
  rintro rfl
  exact absurd h (by decide)

lemma readNat_append (base : ℕ) (ds ds' : List UInt8) : readNat base (ds ++ ds') =
    ds'.foldl (fun n c => base * n + digits.idxOf c) (readNat base ds) := List.foldl_append

/-- A number of `n + 1` digits at most is in the buffer, its lowest digit first. -/
lemma fillBuf_ok (h2 : 2 ≤ base) (h16 : base ≤ 16) (hx : x < base ^ (n + 1)) {room : ℕ}
    (hn : n < room) : ∃ ds, fillBuf base room x = some ds ∧ ds.length ≤ n + 1 ∧ ds ≠ [] ∧
    (∀ c ∈ ds, c ∈ digits) ∧
      readNat base ds.reverse = x := by
  induction n generalizing room x with
  | zero =>
    obtain ⟨room, rfl⟩ := Nat.exists_eq_succ_of_ne_zero (Nat.ne_of_gt hn)
    rw [Nat.zero_add, pow_one] at hx
    have hlt : x % base < digits.length := (Nat.mod_lt x (by omega)).trans_le h16
    have hdigit := List.getElem?_eq_getElem hlt
    refine ⟨[digits[x % base]], ?_, le_refl _, by simp, by simp, ?_⟩
    · rw [fillBuf, hdigit, Option.bind_eq_bind, Option.bind_some]
      exact if_neg (not_not.mpr (Nat.div_eq_of_lt hx))
    · rw [List.reverse_singleton, readNat, List.foldl_cons, List.foldl_nil, idxOf_digit hdigit,
        Nat.mod_eq_of_lt hx, Nat.mul_zero, Nat.zero_add]
  | succ n ih =>
    obtain ⟨room, rfl⟩ := Nat.exists_eq_succ_of_ne_zero (Nat.ne_of_gt (Nat.zero_lt_of_lt hn))
    have hlt : x % base < digits.length := (Nat.mod_lt x (by omega)).trans_le h16
    have hdigit := List.getElem?_eq_getElem hlt
    rw [fillBuf, hdigit, Option.bind_eq_bind, Option.bind_some]
    by_cases hrest : x / base = 0
    · refine ⟨[digits[x % base]], if_neg (not_not.mpr hrest), by simp, by simp, by simp, ?_⟩
      have hsmall : x < base := (Nat.div_eq_zero_iff_lt (by omega)).mp hrest
      rw [List.reverse_singleton, readNat, List.foldl_cons, List.foldl_nil, idxOf_digit hdigit,
        Nat.mod_eq_of_lt hsmall, Nat.mul_zero, Nat.zero_add]
    · have hdiv : x / base < base ^ (n + 1) := Nat.div_lt_of_lt_mul (by rwa [← pow_succ'])
      obtain ⟨ds, hok, hlength, _, hdigits, hread⟩ := ih hdiv (Nat.lt_of_succ_lt_succ hn)
      refine ⟨digits[x % base] :: ds, ?_, by simpa using hlength, by simp, ?_, ?_⟩
      · rw [if_pos hrest, hok]
        rfl
      · intro c hc
        rcases List.mem_cons.mp hc with rfl | hc
        · exact List.getElem_mem _
        · exact hdigits c hc
      · rw [List.reverse_cons, readNat_append, hread, List.foldl_cons, List.foldl_nil,
          idxOf_digit hdigit, Nat.div_add_mod]

lemma readInt_digits (hne : ds ≠ []) (hdigits : ∀ c ∈ ds, c ∈ digits) :
    readInt base ds = BitVec.ofNat 32 (readNat base ds) := by
  obtain ⟨c, ds, rfl⟩ := List.exists_cons_of_ne_nil hne
  rw [readInt, if_neg (digit_ne_minus (hdigits c List.mem_cons_self))]

/-- The buffer has room for every number but the least, and the number can be read from what is
printed. -/
lemma printint_ok (h5 : 5 ≤ base) (h16 : base ≤ 16) {xx : BitVec 32} (hxx : xx ≠ BitVec.intMin 32) :
    ∃ out, printint xx base true = some out ∧ (∀ c ∈ out, isNumeral c = true) ∧
      readInt base out = xx := by
  have hbound : ∀ x : BitVec 32, x.toNat < base ^ (14 + 1) := fun x =>
    x.isLt.trans (lt_of_lt_of_le (by norm_num) (Nat.pow_le_pow_left h5 15))
  have hfill := fun x : BitVec 32 =>
    fillBuf_ok (by omega) h16 (hbound x) (show 14 < sizeofBuf by decide)
  rw [printint, Bool.true_and]
  cases hsign : xx.slt 0 with
  | true =>
    obtain ⟨ds, hok, hlength, _, hdigits, hread⟩ := hfill (-xx)
    refine ⟨'-'.toUInt8 :: ds.reverse, ?_, ?_, ?_⟩
    · have hroom : ds.length < sizeofBuf := Nat.lt_succ_of_le hlength
      rw [if_pos rfl, if_neg hxx, hok, Option.bind_eq_bind, Option.bind_some, if_pos hroom]
    · intro c hc
      rcases List.mem_cons.mp hc with rfl | hc
      · decide
      · exact isNumeral_digit (hdigits c (List.mem_reverse.mp hc))
    · rw [readInt, if_pos rfl, hread, BitVec.ofNat_toNat, BitVec.setWidth_eq, BitVec.neg_neg]
  | false =>
    obtain ⟨ds, hok, _, hne, hdigits, hread⟩ := hfill xx
    have hdigits : ∀ c ∈ ds.reverse, c ∈ digits := fun c hc => hdigits c (List.mem_reverse.mp hc)
    refine ⟨ds.reverse, ?_, fun c hc => isNumeral_digit (hdigits c hc), ?_⟩
    · rw [if_neg (by decide), hok, Option.map_some]
    · rw [readInt_digits (by simpa using hne) hdigits, hread, BitVec.ofNat_toNat,
        BitVec.setWidth_eq]

lemma printint_intMin (base : ℕ) : printint (BitVec.intMin 32) base true = none := by
  rw [printint, if_pos (by decide), if_pos rfl]

/-- One nibble after the other, from the top. -/
lemma foldl_printNibbles (hn : n ≤ 16) (x : BitVec 64) (acc : ℕ) :
    (printNibbles n x).foldl (fun n c => 16 * n + digits.idxOf c) acc =
      acc * 16 ^ n + x.toNat / 2 ^ (64 - 4 * n) := by
  induction n generalizing x acc with
  | zero =>
    have hx : x.toNat < 2 ^ 64 := x.isLt
    simpa [printNibbles] using hx
  | succ n ih =>
    have hx := x.isLt
    have htop : (x >>> 60).toNat = x.toNat / 2 ^ 60 := by
      rw [BitVec.toNat_ushiftRight, Nat.shiftRight_eq_div_pow]
    have hlt : x.toNat / 2 ^ 60 < digits.length := Nat.div_lt_of_lt_mul (by simpa [digits] using hx)
    have hdigit : digits.idxOf (digits.getD (x >>> 60).toNat 0) = x.toNat / 2 ^ 60 := by
      rw [htop, List.getD_eq_getElem _ _ hlt]
      exact List.Nodup.idxOf_getElem (by decide) _ hlt
    have hnext : (x <<< 4).toNat = x.toNat % 2 ^ 60 * 2 ^ 4 := by
      rw [BitVec.toNat_shiftLeft, Nat.shiftLeft_eq]
      omega
    obtain ⟨k, hk⟩ : ∃ k, 60 = k + 4 * n := ⟨60 - 4 * n, by omega⟩
    have hpow : (2 : ℕ) ^ 60 = 2 ^ k * 16 ^ n := by rw [hk, pow_add, pow_mul]; norm_num
    rw [printNibbles, List.foldl_cons, hdigit, ih (by omega), hnext,
      show 64 - 4 * n = k + 4 by omega, show 64 - 4 * (n + 1) = k by omega, pow_add,
      Nat.mul_div_mul_right _ _ (by norm_num)]
    have hsplit : x.toNat / 2 ^ k = x.toNat / 2 ^ 60 * 16 ^ n + x.toNat % 2 ^ 60 / 2 ^ k := by
      conv_lhs => rw [← Nat.div_add_mod x.toNat (2 ^ 60)]
      rw [hpow, Nat.mul_assoc, Nat.mul_add_div (by positivity), Nat.mul_comm (16 ^ n)]
    rw [hsplit, pow_succ]
    ring

lemma length_printNibbles (n : ℕ) (x : BitVec 64) : (printNibbles n x).length = n := by
  induction n generalizing x with
  | zero => rfl
  | succ n ih => rw [printNibbles, List.length_cons, ih]

lemma length_printptr (x : BitVec 64) : (printptr x).length = 18 := by
  rw [printptr, List.length_cons, List.length_cons, length_printNibbles]

lemma readNat_printptr (x : BitVec 64) :
    BitVec.ofNat 64 (readNat 16 ((printptr x).drop 2)) = x := by
  have hread := foldl_printNibbles le_rfl x 0
  rw [printptr, List.drop_succ_cons, List.drop_succ_cons, List.drop_zero, readNat, hread]
  simp

/-! ### Arguments are read back -/

variable {string : BitVec 64 → List UInt8} {fmt : List UInt8} {args args' : Args}

/-- What a conversion prints, and what becomes of the arguments. -/
lemma printArg_cases (hok : printArg string c args = some (out, args')) :
    (∃ base, args' = args.next ∧ printint ((args 0).setWidth 32) base true = some out ∧
      (c = 'd'.toUInt8 ∧ base = 10 ∨ c = 'x'.toUInt8 ∧ base = 16)) ∨
    (args' = args.next ∧ (c = 'p'.toUInt8 ∧ out = printptr (args 0) ∨ c = 's'.toUInt8)) ∨
    ¬ TakesArg c ∧ args' = args ∧
      out = if c = '%'.toUInt8 then ['%'.toUInt8] else ['%'.toUInt8, c] := by
  unfold printArg at hok
  split_ifs at hok with hd hx hp hs hnull hpercent
  · obtain ⟨out', hprint, hok⟩ := Option.map_eq_some_iff.mp hok
    obtain ⟨rfl, rfl⟩ := Prod.mk.inj hok
    exact .inl ⟨10, rfl, hprint, .inl ⟨hd, rfl⟩⟩
  · obtain ⟨out', hprint, hok⟩ := Option.map_eq_some_iff.mp hok
    obtain ⟨rfl, rfl⟩ := Prod.mk.inj hok
    exact .inl ⟨16, rfl, hprint, .inr ⟨hx, rfl⟩⟩
  · obtain ⟨rfl, rfl⟩ := Prod.mk.inj (Option.some.inj hok)
    exact .inr (.inl ⟨rfl, .inl ⟨hp, rfl⟩⟩)
  · obtain ⟨_, rfl⟩ := Prod.mk.inj (Option.some.inj hok)
    exact .inr (.inl ⟨rfl, .inr hs⟩)
  · obtain ⟨_, rfl⟩ := Prod.mk.inj (Option.some.inj hok)
    exact .inr (.inl ⟨rfl, .inr hs⟩)
  · obtain ⟨rfl, rfl⟩ := Prod.mk.inj (Option.some.inj hok)
    exact .inr (.inr ⟨by simp [TakesArg, hd, hx, hp, hs], rfl, (if_pos hpercent).symm⟩)
  · obtain ⟨rfl, rfl⟩ := Prod.mk.inj (Option.some.inj hok)
    exact .inr (.inr ⟨by simp [TakesArg, hd, hx, hp, hs], rfl, (if_neg hpercent).symm⟩)

/-- Everything but the least number is printed. -/
lemma printArg_ok (string : BitVec 64 → List UInt8) (c : UInt8)
    (h : c = 'd'.toUInt8 ∨ c = 'x'.toUInt8 → (args 0).setWidth 32 ≠ BitVec.intMin 32) :
    ∃ out args', printArg string c args = some (out, args') := by
  unfold printArg
  split_ifs with hd hx
  · obtain ⟨out, hok, _⟩ := printint_ok (show 5 ≤ 10 by decide) (by decide) (h (.inl hd))
    rw [hok]
    exact ⟨_, _, rfl⟩
  · obtain ⟨out, hok, _⟩ := printint_ok (show 5 ≤ 16 by decide) (by decide) (h (.inr hx))
    rw [hok]
    exact ⟨_, _, rfl⟩
  all_goals exact ⟨_, _, rfl⟩

lemma Separated.head (h : Separated fmt) (hok : printf string fmt args = some out) :
    ∀ b ∈ out.head?, isNumeral b = false := by
  match fmt with
  | [] =>
    obtain rfl := Option.some.inj hok
    simp
  | [c] =>
    rw [printf] at hok
    split_ifs at hok
    · obtain rfl := Option.some.inj hok
      simpa [Separated] using h
    · obtain rfl := Option.some.inj hok
      simp
  | c :: c' :: fmt =>
    obtain ⟨hc, harg⟩ := h
    rw [printf] at hok
    split_ifs at hok with hpercent
    · obtain ⟨out', _, hok⟩ := Option.bind_eq_some_iff.mp hok
      obtain rfl := Option.some.inj hok
      simpa using hc
    · have hnot := harg (not_not.mp hpercent)
      obtain ⟨⟨first, args'⟩, hfirst, hok⟩ := Option.bind_eq_some_iff.mp hok
      obtain ⟨rest, _, hok⟩ := Option.bind_eq_some_iff.mp hok
      obtain rfl := Option.some.inj hok
      rcases printArg_cases hfirst with ⟨_, _, _, hd | hx⟩ | ⟨_, hp | hs⟩ | ⟨_, _, rfl⟩
      · exact absurd (.inl hd.1) hnot
      · exact absurd (.inr (.inl hx.1)) hnot
      · exact absurd (.inr (.inr (.inl hp.1))) hnot
      · exact absurd (.inr (.inr (.inr hs))) hnot
      · split_ifs <;> simp <;> decide

/-- A number ends where the rest of the output begins. -/
lemma span_numeral {rest : List UInt8} (hout : ∀ c ∈ out, isNumeral c = true)
    (hrest : ∀ b ∈ rest.head?, isNumeral b = false) :
    (out ++ rest).takeWhile isNumeral = out ∧ (out ++ rest).dropWhile isNumeral = rest := by
  have hnil : rest.takeWhile isNumeral = [] ∧ rest.dropWhile isNumeral = rest := by
    cases rest with
    | nil => exact ⟨rfl, rfl⟩
    | cons b rest => simp [hrest b rfl]
  rw [List.takeWhile_append_of_pos hout, List.dropWhile_append_of_pos hout, hnil.1, hnil.2,
    List.append_nil]
  exact ⟨rfl, rfl⟩

/-- A number that was printed is not the least one. -/
lemma ne_intMin_of_printint (h : printint ((args 0).setWidth 32) base true = some out) :
    (args 0).setWidth 32 ≠ BitVec.intMin 32 := by
  intro hmin
  rw [hmin, printint_intMin] at h
  cases h

/-- Whatever is printed, the least number is not. -/
lemma intMin_not_shown {fmt out : List UInt8} {args : Args}
    (hok : printf string fmt args = some out) :
    Arg.int (BitVec.intMin 32) ∉ shown (conversions fmt) args := by
  match fmt with
  | [] => simp [conversions, shown]
  | [c] => simp [conversions, shown]
  | c :: c' :: fmt =>
    rw [printf] at hok
    rw [conversions]
    split_ifs at hok with hc
    · obtain ⟨out', hrest, _⟩ := Option.bind_eq_some_iff.mp hok
      rw [if_pos hc]
      exact intMin_not_shown hrest
    · obtain ⟨⟨first, args'⟩, hfirst, hok⟩ := Option.bind_eq_some_iff.mp hok
      obtain ⟨out', hrest, _⟩ := Option.bind_eq_some_iff.mp hok
      have ih := intMin_not_shown hrest
      rw [if_neg hc]
      rcases printArg_cases hfirst with ⟨base, rfl, hprint, hd⟩ | ⟨rfl, hp⟩ | ⟨hnot, rfl, _⟩
      · have hd : c' = 'd'.toUInt8 ∨ c' = 'x'.toUInt8 := hd.imp And.left And.left
        rw [if_pos (show TakesArg c' from hd.imp_right .inl), shown, if_pos hd,
          List.mem_cons, not_or, Arg.int.injEq]
        exact ⟨(ne_intMin_of_printint hprint).symm, ih⟩
      · have hd : ¬ (c' = 'd'.toUInt8 ∨ c' = 'x'.toUInt8) := by
          rcases hp with ⟨rfl, _⟩ | rfl <;> decide
        have htakes : TakesArg c' := .inr (.inr (hp.imp_left And.left))
        rw [if_pos htakes, shown, if_neg hd, List.mem_cons, not_or]
        exact ⟨by simp, ih⟩
      · rwa [if_neg hnot]

/-- Without it everything is printed. -/
lemma printf_ok (string : BitVec 64 → List UInt8) {fmt : List UInt8} {args : Args}
    (h : Arg.int (BitVec.intMin 32) ∉ shown (conversions fmt) args) :
    ∃ out, printf string fmt args = some out := by
  match fmt with
  | [] => exact ⟨[], rfl⟩
  | [c] =>
    rw [printf]
    split_ifs
    · exact ⟨_, rfl⟩
    · exact ⟨_, rfl⟩
  | c :: c' :: fmt =>
    rw [conversions] at h
    rw [printf]
    by_cases hc : c ≠ '%'.toUInt8
    · rw [if_pos hc] at h
      obtain ⟨out, hok⟩ := printf_ok string h
      rw [if_pos hc, hok]
      exact ⟨_, rfl⟩
    · rw [if_neg hc] at h
      have hfirst : c' = 'd'.toUInt8 ∨ c' = 'x'.toUInt8 →
          (args 0).setWidth 32 ≠ BitVec.intMin 32 := by
        intro hd hmin
        rw [if_pos (show TakesArg c' from hd.imp_right .inl), shown, if_pos hd, hmin] at h
        exact h List.mem_cons_self
      obtain ⟨first, args', hprint⟩ := printArg_ok string c' hfirst
      have hrest : Arg.int (BitVec.intMin 32) ∉ shown (conversions fmt) args' := by
        rcases printArg_cases hprint with ⟨base, rfl, _, hd⟩ | ⟨rfl, hp⟩ | ⟨hnot, rfl, _⟩
        · have htakes : TakesArg c' := (hd.imp And.left And.left).imp_right .inl
          rw [if_pos htakes, shown] at h
          exact fun hmem => h (List.mem_cons_of_mem _ hmem)
        · have htakes : TakesArg c' := .inr (.inr (hp.imp_left And.left))
          rw [if_pos htakes, shown] at h
          exact fun hmem => h (List.mem_cons_of_mem _ hmem)
        · rwa [if_neg hnot] at h
      obtain ⟨out, hok⟩ := printf_ok string hrest
      rw [if_neg hc, hprint, Option.bind_eq_bind, Option.bind_some]
      simp only
      rw [hok]
      exact ⟨_, rfl⟩

/-- The output gives the arguments back. -/
lemma printf_scan {fmt out : List UInt8} {args : Args} (h : Readable fmt)
    (hok : printf string fmt args = some out) :
    scan fmt out = some (shown (conversions fmt) args) := by
  match fmt with
  | [] =>
    obtain rfl := Option.some.inj hok
    rfl
  | [c] =>
    rw [printf] at hok
    rw [scan, conversions, shown]
    split_ifs at hok with hc
    · obtain rfl := Option.some.inj hok
      rw [if_pos hc, if_pos rfl]
    · obtain rfl := Option.some.inj hok
      rw [if_neg hc, if_pos rfl]
  | c :: c' :: fmt =>
    rw [printf] at hok
    rw [Readable] at h
    by_cases hc : c ≠ '%'.toUInt8
    · rw [if_pos hc] at h hok
      obtain ⟨out', hrest, hok⟩ := Option.bind_eq_some_iff.mp hok
      obtain rfl := Option.some.inj hok
      rw [scan, if_pos hc, if_pos (show (c :: out').head? = some c from rfl),
        conversions, if_pos hc]
      exact printf_scan h hrest
    · rw [if_neg hc] at h hok
      obtain ⟨hs, hsep, hreadable⟩ := h
      obtain ⟨⟨first, args'⟩, hfirst, hok⟩ := Option.bind_eq_some_iff.mp hok
      obtain ⟨out', hrest, hok⟩ := Option.bind_eq_some_iff.mp hok
      obtain rfl := Option.some.inj hok
      have hscan := printf_scan hreadable hrest
      rw [conversions, if_neg hc, scan, if_neg hc]
      rcases printArg_cases hfirst with ⟨base, rfl, hprint, hbase⟩ | ⟨rfl, hp⟩ | ⟨hnot, rfl, rfl⟩
      · -- a number, which ends where the rest of the format prints something else
        have hd : c' = 'd'.toUInt8 ∨ c' = 'x'.toUInt8 := hbase.imp And.left And.left
        obtain ⟨h5, h16⟩ : 5 ≤ base ∧ base ≤ 16 := by
          rcases hbase with ⟨_, rfl⟩ | ⟨_, rfl⟩ <;> decide
        obtain ⟨_, hprint', hnumeral, hread⟩ := printint_ok h5 h16 (ne_intMin_of_printint hprint)
        obtain rfl := Option.some.inj (hprint.symm.trans hprint')
        obtain ⟨htake, hdrop⟩ := span_numeral hnumeral ((hsep hd).head hrest)
        rw [if_pos (show TakesArg c' from hd.imp_right .inl), shown, if_pos hd, htake, hdrop, hscan]
        rcases hbase with ⟨rfl, rfl⟩ | ⟨rfl, rfl⟩
        · rw [if_pos rfl, hread]
          rfl
        · rw [if_neg (by decide), if_pos rfl, hread]
          rfl
      · obtain ⟨rfl, rfl⟩ := hp.resolve_right hs
        rw [if_neg (by decide), if_neg (by decide), if_pos rfl, List.drop_left' (length_printptr _),
          List.take_left' (length_printptr _), hscan, readNat_printptr, if_pos (by decide), shown,
          if_neg (by decide)]
        rfl
      · rw [if_neg hnot]
        simp only [TakesArg, not_or] at hnot
        obtain ⟨hd, hx, hp, _⟩ := hnot
        rw [if_neg hd, if_neg hx, if_neg hp]
        split_ifs
        · exact hscan
        · exact hscan

end

/-- Whatever words its arguments are, `printf` goes through unless it has to print the least `int`.
From what it prints for a format that keeps its numbers apart, all that it was to print can be read
back. -/
theorem printf_reads_back (string : BitVec 64 → List UInt8) (fmt : List UInt8) (args : Args) :
    ((∃ out, printf string fmt args = some out) ↔
      Arg.int (BitVec.intMin 32) ∉ shown (conversions fmt) args) ∧
    (Readable fmt → ∀ out, printf string fmt args = some out →
      scan fmt out = some (shown (conversions fmt) args)) :=
  ⟨⟨fun ⟨_, hok⟩ => intMin_not_shown hok, printf_ok string⟩, fun h _ hok => printf_scan h hok⟩

/-- The message of `exitFromCPU`, and what the exit of thread 3 with code -1 prints. The code is a
`usize`, and `%d` prints its lower half. -/
theorem printf_reads_back_exit :
    printf (fun _ => []) "Thread %d exited, exit code = %d\n".toUTF8.toList
      (fun n => if n = 0 then 3 else -1) = some "Thread 3 exited, exit code = -1\n".toUTF8.toList ∧
    scan "Thread %d exited, exit code = %d\n".toUTF8.toList
      "Thread 3 exited, exit code = -1\n".toUTF8.toList = some [.int 3, .int (-1)] := by
  have hprint : printf (fun _ => []) "Thread %d exited, exit code = %d\n".toUTF8.toList
      (fun n => if n = 0 then 3 else -1) =
        some "Thread 3 exited, exit code = -1\n".toUTF8.toList := by decide +kernel
  have hreads := (printf_reads_back (fun _ => []) _ (fun n => if n = 0 then 3 else -1)).2
    (by decide +kernel) _ hprint
  exact ⟨hprint, hreads.trans (by decide +kernel)⟩

end Jokerix.Console
