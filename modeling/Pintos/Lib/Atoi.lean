import Pintos.Lib.FormatInteger
import Pintos.Lib.StringOps

/-! `atoi` (`lib/stdlib.c`), where an overflow of `int` is a fault, and numbers that are written by
`format_integer` and read back. -/

namespace Pintos

/-- `isspace`. -/
def isspace (c : UInt8) : Bool :=
  c = ascii ' ' || c = 0x0c || c = 0x0a || c = 0x0d || c = 0x09 || c = 0x0b

/-- `isdigit`. -/
def isdigit (c : UInt8) : Bool := ascii '0' ≤ c && c ≤ ascii '9'

/-- `c - '0'`. -/
def digitValue (c : UInt8) : Nat := c.toNat - (ascii '0').toNat

/-- An `int` holds it. -/
def FitsInt (v : Int) : Prop := -2 ^ 31 ≤ v ∧ v < 2 ^ 31

instance decidableFitsInt (v : Int) : Decidable (FitsInt v) :=
  inferInstanceAs (Decidable (_ ∧ _))

namespace InMemory

/-- The result of an operation on `int`. -/
def int (v : Int) : MemoryRoutine Int :=
  if FitsInt v then pure v else throw (.undefined "overflow of int")

/-- The loop of `atoi` over white space. -/
def skipSpace : (fuel s : Nat) → MemoryRoutine Nat
  | 0, _ => throw .spin
  | fuel + 1, s => do
    let m ← get
    if isspace (m s) then skipSpace fuel (s + 1) else pure s

/-- The loop of `atoi` over the digits, which keeps the value negative. -/
def parseDigits : (fuel s : Nat) → (value : Int) → MemoryRoutine Int
  | 0, _, _ => throw .spin
  | fuel + 1, s, value => do
    let m ← get
    if isdigit (m s) then do
      let tens ← int (value * 10)
      let value ← int (tens - digitValue (m s))
      parseDigits fuel (s + 1) value
    else pure value

/-- `atoi`. -/
def atoi (fuel s : Nat) : MemoryRoutine Int := do
  assertThat "s != NULL" (s ≠ 0)
  let s ← skipSpace fuel s
  let m ← get
  let negative := m s ≠ ascii '+' ∧ m s = ascii '-'
  let value ← parseDigits fuel (if m s = ascii '+' ∨ m s = ascii '-' then s + 1 else s) 0
  if negative then pure value else int (-value)

end InMemory

/-! ### What a text denotes -/

/-- The number that the digits at the start of a text continue, with `n` before them. -/
def numeral : (n : Nat) → List UInt8 → Nat
  | n, [] => n
  | n, c :: t => if isdigit c then numeral (10 * n + digitValue c) t else n

/-- The number at the start of a text, after a sign. -/
def signedNumeral : List UInt8 → Int
  | [] => 0
  | c :: t =>
    if c = ascii '+' then numeral 0 t
    else if c = ascii '-' then -numeral 0 t
    else numeral 0 (c :: t)

/-- The number that a text denotes. -/
def denotes (t : List UInt8) : Int := signedNumeral (t.dropWhile isspace)

theorem le_numeral (n : Nat) (t : List UInt8) : n ≤ numeral n t := by
  induction t generalizing n with
  | nil => exact Nat.le_refl n
  | cons c t ih =>
    rw [numeral]
    split_ifs
    · have hle := ih (10 * n + digitValue c)
      omega
    · exact Nat.le_refl n

/-- Digits and then something else. -/
theorem numeral_append {digits rest : List UInt8} (hdigits : ∀ c ∈ digits, isdigit c = true)
    (hrest : ∀ c, rest.head? = some c → isdigit c = false) (n : Nat) :
    numeral n (digits ++ rest) = digits.foldl (fun n c => 10 * n + digitValue c) n := by
  induction digits generalizing n with
  | nil =>
    cases rest with
    | nil => rfl
    | cons c rest => rw [List.nil_append, numeral, hrest c rfl, if_neg Bool.false_ne_true,
        List.foldl_nil]
  | cons c digits ih =>
    rw [List.cons_append, numeral, if_pos (hdigits c List.mem_cons_self), List.foldl_cons,
      ih fun c' hc' => hdigits c' (List.mem_cons_of_mem c hc')]

/-! ### The loops -/

namespace InMemory

variable {m : Memory} {s fuel : Nat} {t : List UInt8}

theorem isspace_zero : isspace 0 = false := by decide

theorem isdigit_zero : isdigit 0 = false := by decide

theorem skipSpace_ok (h : m.Holds s (t ++ [0])) (hfuel : t.length < fuel) :
    ∃ s', skipSpace fuel s m = .ok (s', m) ∧ m.Holds s' (t.dropWhile isspace ++ [0]) := by
  induction t generalizing s fuel with
  | nil =>
    obtain ⟨fuel, rfl⟩ := Nat.exists_eq_add_of_lt hfuel
    refine ⟨s, ?_, h⟩
    rw [skipSpace, Routine.get_bind_apply, (Memory.holds_cons.mp h).1, isspace_zero,
      if_neg Bool.false_ne_true]
    rfl
  | cons c t ih =>
    obtain ⟨hc, hrest⟩ := Memory.holds_cons.mp h
    cases fuel with
    | zero => cases hfuel
    | succ fuel =>
      rw [skipSpace, Routine.get_bind_apply, hc]
      by_cases hspace : isspace c = true
      · rw [if_pos hspace, List.dropWhile_cons_of_pos hspace]
        exact ih hrest (Nat.lt_of_succ_lt_succ hfuel)
      · rw [if_neg hspace, List.dropWhile_cons_of_neg hspace]
        exact ⟨s, rfl, h⟩

/-- The value may go down to the least `int`. -/
theorem int_neg (n : Nat) : int (-n) m =
    if n ≤ 2 ^ 31 then .ok (-n, m) else .error (.undefined "overflow of int") := by
  have hfits : FitsInt (-n) ↔ n ≤ 2 ^ 31 := by
    rw [FitsInt]
    omega
  rw [int]
  split_ifs with hn hle
  · rfl
  · exact absurd (hfits.mp hn) hle
  · exact absurd (hfits.mpr ‹_›) hn
  · rfl

/-- The loop invariant: `value` is the negative of what has been read. -/
theorem parseDigits_eq {n : Nat} (h : m.Holds s (t ++ [0])) (hn : n ≤ 2 ^ 31)
    (hfuel : t.length < fuel) : parseDigits fuel s (-n) m =
      if numeral n t ≤ 2 ^ 31 then .ok (-numeral n t, m)
      else .error (.undefined "overflow of int") := by
  induction t generalizing s fuel n with
  | nil =>
    obtain ⟨fuel, rfl⟩ := Nat.exists_eq_add_of_lt hfuel
    rw [parseDigits, Routine.get_bind_apply, (Memory.holds_cons.mp h).1, isdigit_zero,
      if_neg Bool.false_ne_true, numeral, if_pos hn]
    rfl
  | cons c t ih =>
    obtain ⟨hc, hrest⟩ := Memory.holds_cons.mp h
    cases fuel with
    | zero => cases hfuel
    | succ fuel =>
      rw [parseDigits, Routine.get_bind_apply, hc, numeral]
      by_cases hdigit : isdigit c = true
      · rw [if_pos hdigit, if_pos hdigit]
        have hle := le_numeral (10 * n + digitValue c) t
        have htens : (-(n : Int)) * 10 = -((10 * n : Nat) : Int) := by omega
        have hvalue : -((10 * n : Nat) : Int) - (digitValue c : Int) =
            -((10 * n + digitValue c : Nat) : Int) := by omega
        have hfirst := @int_neg m (10 * n)
        have hsecond := @int_neg m (10 * n + digitValue c)
        rw [htens]
        by_cases hroom : 10 * n + digitValue c ≤ 2 ^ 31
        · rw [if_pos (Nat.le_trans (Nat.le_add_right _ _) hroom)] at hfirst
          rw [if_pos hroom] at hsecond
          rw [Routine.bind_of_ok hfirst, hvalue, Routine.bind_of_ok hsecond]
          exact ih hrest hroom (Nat.lt_of_succ_lt_succ hfuel)
        · rw [if_neg (by omega)]
          by_cases htimes : 10 * n ≤ 2 ^ 31
          · rw [if_pos htimes] at hfirst
            rw [if_neg hroom] at hsecond
            rw [Routine.bind_of_ok hfirst, hvalue, Routine.bind_of_error hsecond]
          · rw [if_neg htimes] at hfirst
            rw [Routine.bind_of_error hfirst]
      · rw [if_neg hdigit, if_neg hdigit, if_pos hn]
        rfl

/-- The end of `atoi` on a number without a minus sign. -/
theorem parsePositive_eq (h : m.Holds s (t ++ [0])) (hfuel : t.length < fuel) :
    (parseDigits fuel s 0 >>= fun value => int (-value)) m =
      if FitsInt (numeral 0 t) then .ok ((numeral 0 t : Int), m)
      else .error (.undefined "overflow of int") := by
  have hparse := parseDigits_eq h (Nat.zero_le (2 ^ 31)) hfuel
  rw [Int.natCast_zero, Int.neg_zero] at hparse
  by_cases hroom : numeral 0 t ≤ 2 ^ 31
  · rw [if_pos hroom] at hparse
    rw [Routine.bind_of_ok hparse, Int.neg_neg, int]
    split_ifs <;> rfl
  · rw [if_neg hroom] at hparse
    have hfits : ¬ FitsInt (numeral 0 t) := fun hfits => by
      have hlt := hfits.2
      omega
    rw [Routine.bind_of_error hparse, if_neg hfits]

/-- The end of `atoi` on a number with a minus sign. -/
theorem parseNegative_eq (h : m.Holds s (t ++ [0])) (hfuel : t.length < fuel) :
    (parseDigits fuel s 0 >>= fun value => pure value) m =
      if FitsInt (-numeral 0 t) then .ok (-(numeral 0 t : Int), m)
      else .error (.undefined "overflow of int") := by
  have hparse := parseDigits_eq h (Nat.zero_le (2 ^ 31)) hfuel
  rw [Int.natCast_zero, Int.neg_zero] at hparse
  have hfits : FitsInt (-numeral 0 t) ↔ numeral 0 t ≤ 2 ^ 31 := by
    rw [FitsInt]
    omega
  by_cases hroom : numeral 0 t ≤ 2 ^ 31
  · rw [if_pos hroom] at hparse
    rw [Routine.bind_of_ok hparse, if_pos (hfits.mpr hroom)]
    rfl
  · rw [if_neg hroom] at hparse
    rw [Routine.bind_of_error hparse, if_neg (mt hfits.mp hroom)]

/-- `atoi` gives the number that the string denotes, unless it is no `int`. -/
theorem atoi_eq (h : m.Holds s (t ++ [0])) (hs : s ≠ 0) (hfuel : t.length < fuel) :
    atoi fuel s m = if FitsInt (denotes t) then .ok (denotes t, m)
      else .error (.undefined "overflow of int") := by
  obtain ⟨s', hskip, h'⟩ := skipSpace_ok h hfuel
  have hlength := (List.dropWhile_suffix isspace (l := t)).length_le
  rw [atoi, Routine.bind_of_ok (assertThat_ok (by simpa using hs)), Routine.bind_of_ok hskip,
    Routine.get_bind_apply, denotes]
  generalize t.dropWhile isspace = u at *
  have hplus : ascii '-' ≠ ascii '+' := by decide
  cases u with
  | nil =>
    have hzero : m s' = 0 := (Memory.holds_cons.mp h').1
    have hparse := parsePositive_eq h' (Nat.lt_of_le_of_lt hlength hfuel)
    rw [if_neg (by rw [hzero]; decide)]
    simp only [hzero, if_neg (show ¬ ((0 : UInt8) ≠ ascii '+' ∧ (0 : UInt8) = ascii '-') by decide)]
    exact hparse
  | cons c u =>
    obtain ⟨hc, hrest⟩ := Memory.holds_cons.mp h'
    have hfuel' : u.length < fuel := by
      rw [List.length_cons] at hlength
      omega
    simp only [hc]
    by_cases hpos : c = ascii '+'
    · rw [if_pos (.inl hpos), signedNumeral, if_pos hpos]
      simp only [hpos, ne_eq, not_true_eq_false, false_and, if_false]
      exact parsePositive_eq hrest hfuel'
    · by_cases hneg : c = ascii '-'
      · rw [if_pos (.inr hneg), signedNumeral, if_neg hpos, if_pos hneg]
        simp only [hneg, ne_eq, hplus, not_false_eq_true, and_self, if_true]
        exact parseNegative_eq hrest hfuel'
      · rw [if_neg (not_or.mpr ⟨hpos, hneg⟩), signedNumeral, if_neg hpos, if_neg hneg]
        simp only [hneg, and_false, if_false]
        exact parsePositive_eq h' (Nat.lt_of_le_of_lt hlength hfuel)

end InMemory

/-! ### What `format_integer` writes -/

theorem digitValue_digitChar : ∀ d < 10, digitValue (digitChar baseD d) = d := by decide

theorem isdigit_digitChar : ∀ d < 10, isdigit (digitChar baseD d) = true := by decide

theorem isspace_of_isdigit {c : UInt8} (h : isdigit c = true) : isspace c = false := by
  rw [Bool.eq_false_iff]
  intro hspace
  simp only [isspace, Bool.or_eq_true, decide_eq_true_eq] at hspace
  rcases hspace with ((((rfl | rfl) | rfl) | rfl) | rfl) | rfl <;> exact absurd h (by decide)

/-- Zeros and then the digits of a number are a numeral of it. -/
theorem foldl_digits (zeros n : Nat) :
    (List.replicate zeros (ascii '0') ++
      ((Nat.digits 10 n).map (digitChar baseD)).reverse).foldl
        (fun n c => 10 * n + digitValue c) 0 = n := by
  have hzeros : (List.replicate zeros (ascii '0')).foldl
      (fun n c => 10 * n + digitValue c) 0 = 0 := by
    induction zeros with
    | zero => rfl
    | succ zeros ih => exact ih
  have hdigits : ∀ l : List Nat, (∀ d ∈ l, d < 10) → ((l.map (digitChar baseD)).reverse).foldl
      (fun n c => 10 * n + digitValue c) 0 = Nat.ofDigits 10 l := by
    intro l
    induction l with
    | nil => exact fun _ => rfl
    | cons d l ih =>
      intro hl
      rw [List.map_cons, List.reverse_cons, List.foldl_append,
        ih fun d' hd' => hl d' (List.mem_cons_of_mem d hd'), List.foldl_cons, List.foldl_nil,
        digitValue_digitChar d (hl d List.mem_cons_self), Nat.ofDigits_cons, Nat.add_comm]
  rw [List.foldl_append, hzeros, hdigits _ fun d => Nat.digits_lt_base (by decide),
    Nat.ofDigits_digits]

/-- Without commas, the output is blanks, a sign, zeros, the digits, and blanks. -/
theorem formatInteger_shape {n : Nat} (hn : n < 2 ^ 64) (negative : Bool) {c : PrintfConversion}
    (hgroup : c.group = false) : ∃ left zeros right,
      formatInteger n true negative baseD c = List.replicate left (ascii ' ') ++
        ((signChar true negative c).toList ++ ((List.replicate zeros (ascii '0') ++
          ((Nat.digits 10 n).map (digitChar baseD)).reverse) ++
            List.replicate right (ascii ' '))) := by
  have hbase := isBase_of_mem (b := baseD) List.mem_cons_self
  have hx : (if c.pound ∧ n ≠ 0 then baseD.x else none) = none := by
    split_ifs <;> rfl
  have hdigits : digitLoop baseD false 64 n [] 0 =
      ((Nat.digits 10 n).map (digitChar baseD)).reverse := by
    rw [digitLoop_eq hbase.base (hbase.lt_pow hn), List.append_nil]
    rfl
  have hpad : ∀ (p : Bool) (k : Nat) (ch : UInt8), ∃ j,
      (if p then List.replicate k ch else []) = List.replicate j ch := fun p k ch => by
    cases p
    · exact ⟨0, rfl⟩
    · exact ⟨k, rfl⟩
  rw [formatInteger, hx, integerBuf_eq hbase hn, hgroup, hdigits]
  dsimp only
  generalize Int.toNat _ = padCnt
  obtain ⟨left, hleft⟩ := hpad (!c.minus && !c.zero) padCnt (ascii ' ')
  obtain ⟨middle, hmiddle⟩ := hpad c.zero padCnt (ascii '0')
  obtain ⟨right, hright⟩ := hpad c.minus padCnt (ascii ' ')
  refine ⟨left, middle + bufferZeros n baseD c, right, ?_⟩
  rw [hleft, hmiddle, hright, List.replicate_add]
  simp only [List.append_assoc, List.append_nil]

theorem dropWhile_blanks (k : Nat) (t : List UInt8) :
    (List.replicate k (ascii ' ') ++ t).dropWhile isspace = t.dropWhile isspace := by
  induction k with
  | zero => rfl
  | succ k ih =>
    rw [List.replicate_succ, List.cons_append, List.dropWhile_cons_of_pos (by decide)]
    exact ih

theorem head?_blanks {k : Nat} {c : UInt8} (h : (List.replicate k (ascii ' ')).head? = some c) :
    isdigit c = false := by
  obtain rfl := List.eq_of_mem_replicate (List.mem_of_mem_head? h)
  decide

/-- A numeral without a sign. -/
theorem denotes_unsigned {digits : List UInt8} (hdigits : ∀ c ∈ digits, isdigit c = true)
    (right : Nat) : denotes (digits ++ List.replicate right (ascii ' ')) =
      digits.foldl (fun n c => 10 * n + digitValue c) 0 := by
  cases digits with
  | nil =>
    have hdrop := dropWhile_blanks right []
    rw [List.append_nil] at hdrop
    rw [denotes, List.nil_append, hdrop]
    rfl
  | cons d digits =>
    have hd := hdigits d List.mem_cons_self
    have hplus : d ≠ ascii '+' := by
      rintro rfl
      exact absurd hd (by decide)
    have hminus : d ≠ ascii '-' := by
      rintro rfl
      exact absurd hd (by decide)
    rw [denotes, List.cons_append,
      List.dropWhile_cons_of_neg (by simp [isspace_of_isdigit hd]), signedNumeral, if_neg hplus,
      if_neg hminus, ← List.cons_append, numeral_append hdigits fun c => head?_blanks]

theorem signChar_negative (c : PrintfConversion) :
    signChar true true c = some (ascii '-') := by
  rw [signChar]
  cases c.plus <;> cases c.space <;> rfl

theorem signChar_positive (c : PrintfConversion) :
    signChar true false c = some (ascii '+') ∨ signChar true false c = some (ascii ' ') ∨
      signChar true false c = none := by
  rw [signChar]
  cases c.plus with
  | true => exact .inl rfl
  | false =>
    cases c.space with
    | true => exact .inr (.inl rfl)
    | false => exact .inr (.inr rfl)

/-- The sign that `format_integer` writes counts as it should. -/
theorem denotes_signed {digits : List UInt8} (hdigits : ∀ c ∈ digits, isdigit c = true)
    (negative : Bool) (c : PrintfConversion) (right : Nat) :
    denotes ((signChar true negative c).toList ++
        (digits ++ List.replicate right (ascii ' '))) =
      if negative then -((digits.foldl (fun n c => 10 * n + digitValue c) 0 : Nat) : Int)
      else ((digits.foldl (fun n c => 10 * n + digitValue c) 0 : Nat) : Int) := by
  have hnumeral := numeral_append hdigits (fun c => @head?_blanks right c) 0
  have hplus : ∀ t, denotes (ascii '+' :: t) = numeral 0 t := fun t => rfl
  have hminus : ∀ t, denotes (ascii '-' :: t) = -numeral 0 t := fun t => rfl
  have hspace : ∀ t, denotes (ascii ' ' :: t) = denotes t := fun t => rfl
  have hunsigned := denotes_unsigned hdigits right
  cases negative with
  | false =>
    obtain hsign | hsign | hsign := signChar_positive c
    · rw [hsign, Option.toList_some, List.singleton_append, hplus, hnumeral,
        if_neg Bool.false_ne_true]
    · rw [hsign, Option.toList_some, List.singleton_append, hspace, hunsigned,
        if_neg Bool.false_ne_true]
    · rw [hsign, Option.toList_none, List.nil_append, hunsigned, if_neg Bool.false_ne_true]
  | true =>
    rw [signChar_negative, Option.toList_some, List.singleton_append, hminus, hnumeral, if_pos rfl]

/-- What `format_integer` writes for `%d` denotes the argument. -/
theorem denotes_formatInteger {v : Int} (hv : v.natAbs < 2 ^ 64) {c : PrintfConversion}
    (hgroup : c.group = false) :
    denotes (formatInteger v.natAbs true (v < 0) baseD c) = v := by
  obtain ⟨left, zeros, right, hshape⟩ := formatInteger_shape hv (decide (v < 0)) hgroup
  have hdigits : ∀ ch ∈ List.replicate zeros (ascii '0') ++
      ((Nat.digits 10 v.natAbs).map (digitChar baseD)).reverse, isdigit ch = true := by
    intro ch hch
    obtain hzero | hdigit := List.mem_append.mp hch
    · rw [List.eq_of_mem_replicate hzero]
      decide
    · obtain ⟨d, hd, rfl⟩ := List.mem_map.mp (List.mem_reverse.mp hdigit)
      exact isdigit_digitChar d (Nat.digits_lt_base (by decide) hd)
  have hsigned := denotes_signed hdigits (decide (v < 0)) c right
  rw [foldl_digits] at hsigned
  rw [hshape, denotes, dropWhile_blanks, ← denotes, hsigned]
  simp only [decide_eq_true_eq]
  split_ifs <;> omega

/-! ### Main results -/

/-- `atoi` returns exactly the number that its string denotes, and does so exactly for the numbers
that an `int` holds; on every other text an `int` overflows. -/
theorem atoi_returns_iff {m : Memory} {s fuel : Nat} {t : List UInt8} (h : m.Holds s (t ++ [0]))
    (hs : s ≠ 0) (hfuel : t.length < fuel) (r : Int) (m' : Memory) :
    (InMemory.atoi fuel s m = .ok (r, m') ↔ r = denotes t ∧ m' = m ∧ FitsInt (denotes t)) ∧
      (InMemory.atoi fuel s m = .error (.undefined "overflow of int") ↔ ¬ FitsInt (denotes t)) := by
  rw [InMemory.atoi_eq h hs hfuel]
  split_ifs with hfits
  · refine ⟨?_, iff_of_false (by simp) (not_not_intro hfits)⟩
    rw [Except.ok.injEq, Prod.mk.injEq]
    constructor
    · rintro ⟨rfl, rfl⟩
      exact ⟨rfl, rfl, hfits⟩
    · rintro ⟨rfl, rfl, -⟩
      exact ⟨rfl, rfl⟩
  · refine ⟨?_, iff_of_true rfl hfits⟩
    constructor
    · intro hrun
      cases hrun
    · rintro ⟨-, -, hr⟩
      exact absurd hr hfits

/-- The least `int` is read, and the number after the greatest overflows. -/
theorem atoi_returns_iff_least :
    InMemory.atoi 12 8 (Memory.store (fun _ => 0) 8 (asciiBytes "-2147483648" ++ [0])) =
      .ok (-2147483648, Memory.store (fun _ => 0) 8 (asciiBytes "-2147483648" ++ [0])) ∧
    InMemory.atoi 12 8 (Memory.store (fun _ => 0) 8 (asciiBytes "2147483648" ++ [0])) =
      .error (.undefined "overflow of int") := by
  have hleast : denotes (asciiBytes "-2147483648") = -2147483648 := by decide +kernel
  have hlarge : denotes (asciiBytes "2147483648") = 2147483648 := by decide +kernel
  constructor
  · refine (atoi_returns_iff (Memory.holds_store _ _ _) (by decide) (by decide) _ _).1.mpr
      ⟨hleast.symm, rfl, ?_⟩
    rw [hleast]
    decide
  · refine (atoi_returns_iff (Memory.holds_store _ _ _) (by decide) (by decide) 0
      (fun _ => 0)).2.mpr ?_
    rw [hlarge]
    decide

/-- Every number that `format_integer` writes for `%d`, whatever its width, precision and flags
other than the one for commas, is read back by `atoi`. -/
theorem atoi_reads_formatted {m : Memory} {s fuel : Nat} {v : Int} {c : PrintfConversion}
    {garbage : Vector UInt8 64} {out : List UInt8}
    (hformat : formatIntegerIn garbage v.natAbs true (v < 0) baseD c = .ok out)
    (hgroup : c.group = false) (hv : FitsInt v) (h : m.Holds s (out ++ [0])) (hs : s ≠ 0)
    (hfuel : out.length < fuel) : InMemory.atoi fuel s m = .ok (v, m) := by
  have habs : v.natAbs < 2 ^ 64 := by
    rw [FitsInt] at hv
    omega
  have hout := (formatIntegerIn_ok (isBase_of_mem (b := baseD) List.mem_cons_self) habs garbage
    true (v < 0) c).symm.trans hformat
  cases hout
  rw [InMemory.atoi_eq h hs hfuel, denotes_formatInteger habs hgroup, if_pos hv]

/-- `"%5d"` of -7. -/
theorem atoi_reads_formatted_minus7 :
    InMemory.atoi 6 8 (Memory.store (fun _ => 0) 8 (asciiBytes "   -7" ++ [0])) =
      .ok (-7, Memory.store (fun _ => 0) 8 (asciiBytes "   -7" ++ [0])) := by
  have hformat : formatIntegerIn (Vector.replicate 64 0) (-7 : Int).natAbs true ((-7 : Int) < 0)
      baseD ⟨false, false, false, false, false, false, 5, -1, .int⟩ = .ok (asciiBytes "   -7") := by
    decide +kernel
  exact atoi_reads_formatted hformat rfl (by decide) (Memory.holds_store _ _ _) (by decide)
    (by decide)

end Pintos
