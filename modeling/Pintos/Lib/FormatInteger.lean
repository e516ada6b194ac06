import Pintos.Devices.Block
import Pintos.Lib.Stdio
import Pintos.Library.Grouping

/-! `format_integer` and `vsnprintf` with the buffers that they write to: the 64 bytes where the
digits collect, and the caller's buffer.  A write outside one of them is a fault, and so is an
overflow of the output's length. -/

namespace Pintos

/-- `buf` and `cp` in `format_integer`, which is the index of the next byte. -/
structure DigitBuf where
  bytes : Vector UInt8 64
  cp : Nat

namespace DigitBuf

/-- `*cp++ = ch`. -/
def put (buf : DigitBuf) (ch : UInt8) : Except Fault DigitBuf :=
  if h : buf.cp < 64 then .ok ⟨buf.bytes.set buf.cp ch, buf.cp + 1⟩
  else .error (.undefined "write outside of buf")

/-- The loop that outputs the buffer from its last byte back. -/
def output (bytes : Vector UInt8 64) : (cp : Nat) → Except Fault (List UInt8)
  | 0 => pure []
  | cp + 1 =>
    match bytes[cp]? with
    | none => .error (.undefined "read outside of buf")
    | some ch => do return ch :: (← output bytes cp)

end DigitBuf

/-- The loop of `format_integer` over the digits. -/
def accumulateDigits (b : IntegerBase) (group : Bool) :
    (fuel : Nat) → (value digitCnt : Nat) → DigitBuf → Except Fault DigitBuf
  | 0, _, _, _ => .error .spin
  | fuel + 1, value, digitCnt, buf =>
    if value = 0 then pure buf
    else do
      let buf ← (if group ∧ 0 < digitCnt ∧ digitCnt % b.group = 0 then buf.put (ascii ',')
        else pure buf : Except Fault DigitBuf)
      let buf ← buf.put (b.digits.getD (value % b.base) 0)
      accumulateDigits b group fuel (value / b.base) (digitCnt + 1) buf

/-- The loop of `format_integer` over the zeros of the precision. -/
def appendZeros (precision : Int) : (fuel : Nat) → DigitBuf → Except Fault DigitBuf
  | 0, _ => .error .spin
  | fuel + 1, buf =>
    if buf.cp < precision ∧ buf.cp < 64 - 1 then do
      let buf ← buf.put (ascii '0')
      appendZeros precision fuel buf
    else pure buf

/-- `format_integer`, where `garbage` is what the stack holds in `buf`. -/
def formatIntegerIn (garbage : Vector UInt8 64) (value : Nat) (isSigned negative : Bool)
    (b : IntegerBase) (c : PrintfConversion) : Except Fault (List UInt8) := do
  let sign := signChar isSigned negative c
  let x := if c.pound ∧ value ≠ 0 then b.x else none
  let buf ← accumulateDigits b c.group 65 value 0 ⟨garbage, 0⟩
  let precision := if c.precision < 0 then 1 else c.precision
  let buf ← appendZeros precision 65 buf
  let buf ← (if c.pound ∧ b.base = 8 ∧ (buf.cp = 0 ∨ buf.bytes[buf.cp - 1]? ≠ some (ascii '0'))
    then buf.put (ascii '0') else pure buf : Except Fault DigitBuf)
  let padCnt := c.width - buf.cp - (if x.isSome then 2 else 0) - (if sign.isSome then 1 else 0)
  let padCnt := if padCnt < 0 then 0 else padCnt.toNat
  let number ← DigitBuf.output buf.bytes buf.cp
  return (if !c.minus && !c.zero then List.replicate padCnt (ascii ' ') else []) ++
    sign.toList ++
    (match x with
      | some x => [ascii '0', x]
      | none => []) ++
    (if c.zero then List.replicate padCnt (ascii '0') else []) ++
    number ++
    (if c.minus then List.replicate padCnt (ascii ' ') else [])

/-! ### The buffer -/

namespace DigitBuf

/-- The buffer holds `l`, from its last byte back. -/
structure Holds (buf : DigitBuf) (l : List UInt8) : Prop where
  cp : buf.cp = l.length
  bytes : buf.bytes.toList.take buf.cp = l.reverse

variable {buf : DigitBuf} {l : List UInt8}

theorem holds_nil (garbage : Vector UInt8 64) : Holds ⟨garbage, 0⟩ [] := ⟨rfl, rfl⟩

theorem Holds.put (h : buf.Holds l) (hroom : l.length < 64) (ch : UInt8) :
    ∃ buf', buf.put ch = .ok buf' ∧ buf'.Holds (ch :: l) := by
  have hcp : buf.cp < 64 := h.cp ▸ hroom
  refine ⟨_, by rw [DigitBuf.put, dif_pos hcp], congrArg (· + 1) h.cp, ?_⟩
  have hlength : buf.cp < (buf.bytes.toList.set buf.cp ch).length := by simpa using hcp
  rw [Vector.toList_set, List.take_add_one, List.take_set_of_le (Nat.le_refl _), h.bytes,
    List.reverse_cons, List.getElem?_set_self (by simpa using hcp)]
  rfl

theorem Holds.getElem? (h : buf.Holds l) {i : Nat} (hi : i < buf.cp) :
    buf.bytes[i]? = l.reverse[i]? := by
  rw [← h.bytes, List.getElem?_take_of_lt hi, Vector.getElem?_toList]

/-- `cp == buf || cp[-1] != ch`. -/
theorem Holds.last_ne_iff (h : buf.Holds l) (ch : UInt8) :
    (buf.cp = 0 ∨ buf.bytes[buf.cp - 1]? ≠ some ch) ↔ l.head? ≠ some ch := by
  cases l with
  | nil => simp [h.cp]
  | cons first rest =>
    have hcp : buf.cp = rest.length + 1 := h.cp
    rw [h.getElem? (by omega), hcp]
    simp

theorem Holds.output_take (h : buf.Holds l) {n : Nat} (hn : n ≤ buf.cp) :
    output buf.bytes n = .ok (l.reverse.take n).reverse := by
  induction n with
  | zero => rfl
  | succ n ih =>
    have hlt : n < l.reverse.length := by
      rw [List.length_reverse, ← h.cp]
      omega
    rw [output, h.getElem? (by omega), List.getElem?_eq_getElem hlt, ih (by omega),
      List.take_add_one, List.getElem?_eq_getElem hlt]
    simp

theorem Holds.output (h : buf.Holds l) : DigitBuf.output buf.bytes buf.cp = .ok l := by
  rw [h.output_take (Nat.le_refl _), h.cp, ← List.length_reverse, List.take_length,
    List.reverse_reverse]

end DigitBuf

/-! ### The loops -/

variable {b : IntegerBase} {buf : DigitBuf} {l : List UInt8}

theorem length_le_digitLoop (b : IntegerBase) (group : Bool) (fuel value digitCnt : Nat)
    (l : List UInt8) : l.length ≤ (digitLoop b group fuel value l digitCnt).length := by
  induction fuel generalizing value l digitCnt with
  | zero => exact Nat.le_refl _
  | succ fuel ih =>
    rw [digitLoop]
    split
    · exact Nat.le_refl _
    · refine Nat.le_trans ?_ (ih ..)
      rw [List.length_cons]
      split
      · rw [List.length_cons]
        omega
      · omega

/-- The digits and commas fit in the buffer as long as there are no more than 64 of them. -/
theorem accumulateDigits_ok {group : Bool} {fuel value digitCnt : Nat}
    (hvalue : value < b.base ^ fuel) (h : buf.Holds l)
    (hroom : (digitLoop b group fuel value l digitCnt).length ≤ 64) :
    ∃ buf', accumulateDigits b group (fuel + 1) value digitCnt buf = .ok buf' ∧
      buf'.Holds (digitLoop b group fuel value l digitCnt) := by
  induction fuel generalizing value digitCnt buf l with
  | zero =>
    obtain rfl : value = 0 := by simpa using hvalue
    exact ⟨buf, rfl, h⟩
  | succ fuel ih =>
    rw [digitLoop] at hroom ⊢
    rw [accumulateDigits]
    by_cases hzero : value = 0
    · rw [if_pos hzero]
      rw [if_pos hzero]
      exact ⟨buf, rfl, h⟩
    · rw [if_neg hzero] at hroom ⊢
      rw [if_neg hzero]
      dsimp only at hroom ⊢
      have hless : value / b.base < b.base ^ fuel :=
        Nat.div_lt_of_lt_mul (by rwa [Nat.pow_succ, Nat.mul_comm] at hvalue)
      have hlength := (length_le_digitLoop ..).trans hroom
      rw [List.length_cons] at hlength
      obtain ⟨buf1, hcomma, h1⟩ : ∃ buf1,
          (if group ∧ 0 < digitCnt ∧ digitCnt % b.group = 0 then buf.put (ascii ',')
            else pure buf) = .ok buf1 ∧
          buf1.Holds (if group ∧ 0 < digitCnt ∧ digitCnt % b.group = 0 then ascii ',' :: l
            else l) := by
        split_ifs at hlength ⊢
        · rw [List.length_cons] at hlength
          exact h.put (by omega) (ascii ',')
        · exact ⟨buf, rfl, h⟩
      obtain ⟨buf2, hput, h2⟩ := h1.put (by omega) (b.digits.getD (value % b.base) 0)
      obtain ⟨buf', hrun, h'⟩ := ih hless h2 hroom
      refine ⟨buf', ?_, h'⟩
      rw [hcomma]
      exact (congrArg (· >>= _) hput).trans hrun

/-- The zeros that `appendZeros` adds stop one byte before the end of the buffer. -/
theorem appendZeros_ok {precision : Int} {fuel : Nat} (h : buf.Holds l)
    (hfuel : (min precision 63).toNat - l.length < fuel) :
    ∃ buf', appendZeros precision fuel buf = .ok buf' ∧
      buf'.Holds (List.replicate ((min precision 63).toNat - l.length) (ascii '0') ++ l) := by
  induction fuel generalizing buf l with
  | zero => nomatch hfuel
  | succ fuel ih =>
    have hcp := h.cp
    rw [appendZeros]
    by_cases hmore : buf.cp < precision ∧ buf.cp < 64 - 1
    · obtain ⟨k, hk⟩ : ∃ k, (min precision 63).toNat - l.length = k + 1 :=
        ⟨(min precision 63).toNat - l.length - 1, by omega⟩
      obtain ⟨buf1, hput, h1⟩ := h.put (by omega) (ascii '0')
      have hrest : (min precision 63).toNat - (ascii '0' :: l).length = k := by
        rw [List.length_cons]
        omega
      obtain ⟨buf', hrun, h'⟩ := ih h1 (by omega)
      rw [hrest] at h'
      refine ⟨buf', ?_, ?_⟩
      · rw [if_pos hmore]
        exact (congrArg (· >>= _) hput).trans hrun
      · rw [hk, List.replicate_succ', List.append_assoc]
        exact h'
    · have hnone : (min precision 63).toNat - l.length = 0 := by omega
      rw [if_neg hmore, hnone]
      exact ⟨buf, rfl, h⟩

/-! ### The bases -/

/-- The base descriptors. -/
def integerBases : List IntegerBase := [baseD, baseO, baseLowerX, baseUpperX]

/-- The characters besides digits that an integer's output can have. -/
def punctuation : List UInt8 := [ascii ' ', ascii '+', ascii '-', ascii ',']

/-- The output without a prefix `0x` or `0X`. -/
def removePrefix : List UInt8 → List UInt8
  | zero :: x :: rest =>
    if zero = ascii '0' ∧ (x = ascii 'x' ∨ x = ascii 'X') then rest else zero :: x :: rest
  | out => out

/-- What is left of an output without blanks, sign, commas and prefix. -/
def digitString (out : List UInt8) : List UInt8 := removePrefix (out.filter (· ∉ punctuation))

/-- The character of a digit. -/
def digitChar (b : IntegerBase) (d : Nat) : UInt8 := b.digits.getD d 0

/-- What is used of the descriptors. -/
structure IsBase (b : IntegerBase) : Prop where
  base : 1 < b.base
  room : 2 ^ 64 ≤ b.base ^ 22
  group : 3 ≤ b.group
  digit : ∀ d < b.base, digitChar b d ∉ punctuation ∧ digitChar b d ≠ ascii 'x' ∧
    digitChar b d ≠ ascii 'X'
  zero : ∀ d < b.base, digitChar b d = ascii '0' ↔ d = 0
  x : ∀ x, b.x = some x → x ∉ punctuation ∧ (x = ascii 'x' ∨ x = ascii 'X')

theorem isBase_of_mem (hb : b ∈ integerBases) : IsBase b := by
  simp only [integerBases, List.mem_cons, List.not_mem_nil, or_false] at hb
  rcases hb with rfl | rfl | rfl | rfl <;>
    refine ⟨by decide, by decide, by decide, by decide +kernel, by decide +kernel, ?_⟩
  · nofun
  · nofun
  · rintro x ⟨⟩
    decide
  · rintro x ⟨⟩
    decide

/-! ### The digits -/

/-- The number of commas among `n` digits. -/
def commas (b : IntegerBase) (group : Bool) (n : Nat) : Nat :=
  if group then Grouping.separators b.group n else 0

/-- The digits with commas, the most significant first. -/
theorem digitLoop_grouped (hb : 1 < b.base) {fuel value : Nat} (hfuel : value < b.base ^ fuel)
    (buf : List UInt8) (digitCnt : Nat) :
    digitLoop b true fuel value buf digitCnt = Grouping.grouped (ascii ',') b.group digitCnt
      ((Nat.digits b.base value).map (digitChar b)) buf := by
  induction fuel generalizing value buf digitCnt with
  | zero =>
    obtain rfl : value = 0 := by simpa using hfuel
    simp [digitLoop, Grouping.grouped]
  | succ fuel ih =>
    rw [digitLoop]
    split
    · next hzero => simp [hzero, Grouping.grouped]
    · next hpos =>
      have hless : value / b.base < b.base ^ fuel :=
        Nat.div_lt_of_lt_mul (by rwa [Nat.pow_succ, Nat.mul_comm] at hfuel)
      dsimp only
      rw [ih hless, Nat.digits_def' hb (Nat.pos_of_ne_zero hpos), List.map_cons, Grouping.grouped]
      simp [digitChar]

namespace IsBase

variable {value : Nat} {group : Bool}

theorem lt_pow (h : IsBase b) (hvalue : value < 2 ^ 64) : value < b.base ^ 64 :=
  (hvalue.trans_le h.room).trans_le (Nat.pow_le_pow_right (Nat.zero_lt_of_lt h.base) (by decide))

theorem length_digits (h : IsBase b) (hvalue : value < 2 ^ 64) :
    (Nat.digits b.base value).length ≤ 22 :=
  (Nat.digits_length_le_iff h.base value).mpr (hvalue.trans_le h.room)

theorem mem_digits (h : IsBase b) {ch : UInt8}
    (hch : ch ∈ (Nat.digits b.base value).map (digitChar b)) :
    ∃ d < b.base, digitChar b d = ch := by
  obtain ⟨d, hd, rfl⟩ := List.mem_map.mp hch
  exact ⟨d, Nat.digits_lt_base h.base hd, rfl⟩

theorem filter_digitLoop (h : IsBase b) (hvalue : value < 2 ^ 64) :
    (digitLoop b group 64 value [] 0).filter (· ∉ punctuation) =
      ((Nat.digits b.base value).map (digitChar b)).reverse := by
  have hdigits : ∀ ch ∈ (Nat.digits b.base value).map (digitChar b),
      decide (ch ∉ punctuation) = true := fun ch hch => by
    obtain ⟨d, hd, rfl⟩ := h.mem_digits hch
    exact decide_eq_true (h.digit d hd).1
  cases group with
  | true =>
    rw [digitLoop_grouped h.base (h.lt_pow hvalue), Grouping.filter_grouped (by decide) hdigits]
    simp
  | false =>
    rw [digitLoop_eq h.base (h.lt_pow hvalue), List.append_nil]
    exact List.filter_eq_self.mpr fun ch hch => hdigits ch (List.mem_reverse.mp hch)

theorem length_digitLoop (h : IsBase b) (hvalue : value < 2 ^ 64) :
    (digitLoop b group 64 value [] 0).length = (Nat.digits b.base value).length +
      commas b group (Nat.digits b.base value).length := by
  cases group with
  | true =>
    have hlength := Grouping.length_grouped (ascii ',') b.group 0
      ((Nat.digits b.base value).map (digitChar b)) []
    have hnone : Grouping.separators b.group 0 = 0 := Nat.zero_div b.group
    rw [hnone, List.length_map, Nat.zero_add] at hlength
    rw [digitLoop_grouped h.base (h.lt_pow hvalue), commas, if_pos rfl]
    exact hlength
  | false =>
    rw [digitLoop_eq h.base (h.lt_pow hvalue), commas]
    simp

theorem commas_le (h : IsBase b) (group : Bool) {n : Nat} (hn : n ≤ 22) : commas b group n ≤ 7 := by
  rw [commas]
  split
  · rw [Grouping.separators]
    calc (n - 1) / b.group ≤ (n - 1) / 3 := Nat.div_le_div_left h.group (by decide)
      _ ≤ 7 := by omega
  · omega

theorem length_digitLoop_le (h : IsBase b) (hvalue : value < 2 ^ 64) :
    (digitLoop b group 64 value [] 0).length ≤ 29 := by
  have hdigits := h.length_digits hvalue
  have hcommas := h.commas_le group hdigits
  rw [h.length_digitLoop hvalue]
  omega

/-- A number does not begin with a zero. -/
theorem head?_digitLoop (h : IsBase b) (hvalue : value < 2 ^ 64) :
    (digitLoop b group 64 value [] 0).head? ≠ some (ascii '0') := by
  have hlast : ((Nat.digits b.base value).map (digitChar b)).getLast? ≠ some (ascii '0') := by
    intro hzero
    rw [List.getLast?_map] at hzero
    obtain ⟨d, hd, hchar⟩ := Option.map_eq_some_iff.mp hzero
    have hmem := List.mem_of_getLast? hd
    have hd0 : d = 0 := (h.zero d (Nat.digits_lt_base h.base hmem)).mp hchar
    have hvalue0 : value ≠ 0 := by
      rintro rfl
      simp at hmem
    refine Nat.getLast_digit_ne_zero b.base hvalue0 ?_
    rw [List.getLast?_eq_some_getLast (List.ne_nil_of_mem hmem)] at hd
    exact (Option.some.inj hd).trans hd0
  cases group with
  | true =>
    rw [digitLoop_grouped h.base (h.lt_pow hvalue)]
    by_cases hnil : (Nat.digits b.base value).map (digitChar b) = []
    · rw [hnil]
      simp [Grouping.grouped]
    · rw [Grouping.head?_grouped hnil]
      exact hlast
  | false =>
    rw [digitLoop_eq h.base (h.lt_pow hvalue), List.append_nil, List.head?_reverse]
    exact hlast

end IsBase

/-- The zeros that the precision asks for. -/
def precisionZeros (value : Nat) (b : IntegerBase) (c : PrintfConversion) : Nat :=
  (min (if c.precision < 0 then 1 else c.precision) 63).toNat -
    (digitLoop b c.group 64 value [] 0).length

/-- The zeros in the buffer, with that of an octal number. -/
def bufferZeros (value : Nat) (b : IntegerBase) (c : PrintfConversion) : Nat :=
  precisionZeros value b c + if c.pound ∧ b.base = 8 ∧ precisionZeros value b c = 0 then 1 else 0

theorem head?_zeros (h : IsBase b) {value : Nat} (hvalue : value < 2 ^ 64) (c : PrintfConversion) :
    (List.replicate (precisionZeros value b c) (ascii '0') ++
      digitLoop b c.group 64 value [] 0).head? ≠ some (ascii '0') ↔
        precisionZeros value b c = 0 := by
  cases precisionZeros value b c with
  | zero => simpa using h.head?_digitLoop hvalue
  | succ k => simp [List.replicate_succ]

theorem integerBuf_eq (h : IsBase b) {value : Nat} (hvalue : value < 2 ^ 64)
    (c : PrintfConversion) :
    integerBuf value b c = List.replicate (bufferZeros value b c) (ascii '0') ++
      digitLoop b c.group 64 value [] 0 := by
  have hhead := head?_zeros h hvalue c
  rw [integerBuf, bufferZeros, ← precisionZeros]
  by_cases hoctal : c.pound ∧ b.base = 8 ∧ precisionZeros value b c = 0
  · rw [if_pos ⟨hoctal.1, hoctal.2.1, hhead.mpr hoctal.2.2⟩, if_pos hoctal, List.replicate_succ]
    rfl
  · rw [if_neg fun hall => hoctal ⟨hall.1, hall.2.1, hhead.mp hall.2.2⟩, if_neg hoctal,
      Nat.add_zero]

theorem precisionZeros_add_le (h : IsBase b) {value : Nat} (hvalue : value < 2 ^ 64)
    (c : PrintfConversion) :
    precisionZeros value b c + (digitLoop b c.group 64 value [] 0).length ≤ 63 := by
  have hlength := @IsBase.length_digitLoop_le _ value c.group h hvalue
  rw [precisionZeros]
  omega

/-- `format_integer` stays inside its buffer, and outputs what is in it. -/
theorem formatIntegerIn_ok (h : IsBase b) {value : Nat} (hvalue : value < 2 ^ 64)
    (garbage : Vector UInt8 64) (isSigned negative : Bool) (c : PrintfConversion) :
    formatIntegerIn garbage value isSigned negative b c =
      .ok (formatInteger value isSigned negative b c) := by
  have hlength := @IsBase.length_digitLoop_le _ value c.group h hvalue
  have hroom := precisionZeros_add_le h hvalue c
  obtain ⟨buf1, hdigits, h1⟩ := @accumulateDigits_ok b ⟨garbage, 0⟩ [] c.group 64 value 0
    (h.lt_pow hvalue) (DigitBuf.holds_nil garbage) (by omega)
  obtain ⟨buf2, hzeros, h2⟩ := @appendZeros_ok buf1 _
    (if c.precision < 0 then 1 else c.precision) 65 h1 (by omega)
  rw [← precisionZeros] at h2
  obtain ⟨buf3, hoctal, h3⟩ : ∃ buf3,
      (if c.pound ∧ b.base = 8 ∧ (buf2.cp = 0 ∨ buf2.bytes[buf2.cp - 1]? ≠ some (ascii '0'))
        then buf2.put (ascii '0') else pure buf2 : Except Fault DigitBuf) = .ok buf3 ∧
      buf3.Holds (integerBuf value b c) := by
    have hlast := (h2.last_ne_iff (ascii '0')).trans (head?_zeros h hvalue c)
    rw [integerBuf_eq h hvalue, bufferZeros]
    by_cases hzero : c.pound ∧ b.base = 8 ∧ precisionZeros value b c = 0
    · rw [if_pos hzero, if_pos ⟨hzero.1, hzero.2.1, hlast.mpr hzero.2.2⟩, List.replicate_succ,
        List.cons_append]
      refine h2.put ?_ (ascii '0')
      rw [List.length_append, List.length_replicate]
      omega
    · rw [if_neg hzero, if_neg fun hall => hzero ⟨hall.1, hall.2.1, hlast.mp hall.2.2⟩]
      exact ⟨buf2, rfl, h2⟩
  have hpad : ∀ pad : Int, (if pad < 0 then 0 else pad.toNat) = pad.toNat := fun pad => by
    split <;> omega
  rw [formatIntegerIn, hdigits]
  show (appendZeros (if c.precision < 0 then 1 else c.precision) 65 buf1 >>= _) = _
  rw [hzeros]
  show ((if c.pound ∧ b.base = 8 ∧ (buf2.cp = 0 ∨ buf2.bytes[buf2.cp - 1]? ≠ some (ascii '0'))
    then buf2.put (ascii '0') else pure buf2 : Except Fault DigitBuf) >>= _) = _
  rw [hoctal]
  show (DigitBuf.output buf3.bytes buf3.cp >>= _) = _
  rw [h3.output, h3.cp, hpad]
  rfl

/-! ### The output -/

/-- A conversion that `parse_conversion` returns. -/
def Parsed (c : PrintfConversion) : Prop :=
  ∃ format args rest args', parseConversion format args = some (c, rest, args')

/-- The last steps of `parse_conversion`. -/
theorem precision_normalized (c : PrintfConversion) (precision : Int) (type : ArgType) :
    let c := { c with precision := if precision < 0 then -1 else precision }
    let c := if (0 : Int) ≤ c.precision then { c with zero := false } else c
    let c := { c with type }
    c.precision ≥ -1 ∧ (0 ≤ c.precision → c.zero = false) := by
  by_cases hneg : precision < 0
  · simp [hneg]
  · have hpos : 0 ≤ precision := Int.not_lt.mp hneg
    have hmin : -1 ≤ precision := Int.le_trans (by decide) hpos
    simp [hneg, hpos, hmin]

/-- A precision is at least -1, and with one there is no zero padding. -/
theorem Parsed.precision {c : PrintfConversion} (h : Parsed c) :
    -1 ≤ c.precision ∧ (0 ≤ c.precision → c.zero = false) := by
  obtain ⟨format, args, rest, args', hrun⟩ := h
  unfold parseConversion at hrun
  obtain ⟨⟨width, format1, args1⟩, -, hrun⟩ := Option.bind_eq_some_iff.mp hrun
  dsimp only at hrun
  split at hrun
  · obtain ⟨⟨precision, format2, args2⟩, -, hc⟩ := Option.bind_eq_some_iff.mp hrun
    have hc : _ = c := congrArg Prod.fst (Option.some.inj hc)
    rw [← hc]
    exact precision_normalized _ precision _
  · have hc : _ = c := congrArg Prod.fst (Option.some.inj hrun)
    rw [← hc]
    exact precision_normalized _ (-1) _

theorem mem_punctuation_of_signChar {isSigned negative : Bool} {c : PrintfConversion} {ch : UInt8}
    (h : signChar isSigned negative c = some ch) : ch ∈ punctuation := by
  rw [signChar] at h
  split_ifs at h <;> cases h <;> decide

theorem filter_sign (isSigned negative : Bool) (c : PrintfConversion) :
    (signChar isSigned negative c).toList.filter (· ∉ punctuation) = [] := by
  cases h : signChar isSigned negative c with
  | none => rfl
  | some ch => simp [mem_punctuation_of_signChar h]

theorem filter_blanks (pads : Bool) (n : Nat) :
    (if pads then List.replicate n (ascii ' ') else []).filter (· ∉ punctuation) = [] := by
  split
  · rw [List.filter_replicate_of_neg (by decide)]
  · rfl

theorem filter_zeros (n : Nat) :
    (List.replicate n (ascii '0')).filter (· ∉ punctuation) = List.replicate n (ascii '0') := by
  rw [List.filter_replicate_of_pos (by decide)]

theorem removePrefix_eq_self {out : List UInt8}
    (h : ∀ ch ∈ out, ch ≠ ascii 'x' ∧ ch ≠ ascii 'X') : removePrefix out = out := by
  match out with
  | [] => rfl
  | [_] => rfl
  | zero :: x :: rest =>
    have hx := h x (by simp)
    rw [removePrefix, if_neg fun hall => hall.2.elim hx.1 hx.2]

/-- The digits in the output: those of the value, after zeros. -/
theorem digitString_formatInteger (h : IsBase b) {value : Nat} (hvalue : value < 2 ^ 64)
    (isSigned negative : Bool) (c : PrintfConversion) : ∃ zeros,
      digitString (formatInteger value isSigned negative b c) =
        (List.replicate zeros 0 ++ (Nat.digits b.base value).reverse).map (digitChar b) ∧
      bufferZeros value b c ≤ zeros ∧ (c.zero = false → zeros = bufferZeros value b c) := by
  have hzero : digitChar b 0 = ascii '0' := (h.zero 0 (Nat.zero_lt_of_lt h.base)).mpr rfl
  have hx : ∀ x, (if c.pound ∧ value ≠ 0 then b.x else none) = some x →
      x ∉ punctuation ∧ (x = ascii 'x' ∨ x = ascii 'X') := by
    intro x hsome
    split at hsome
    · exact h.x x hsome
    · cases hsome
  rw [formatInteger]
  generalize (if c.pound ∧ value ≠ 0 then b.x else none) = prefixChar at hx
  generalize (c.width - _ - _ - _).toNat = padCnt
  have hbuf : (integerBuf value b c).filter (· ∉ punctuation) =
      (List.replicate (bufferZeros value b c) 0 ++ (Nat.digits b.base value).reverse).map
        (digitChar b) := by
    rw [integerBuf_eq h hvalue, List.filter_append, filter_zeros, h.filter_digitLoop hvalue,
      List.map_append, List.map_replicate, hzero, List.map_reverse]
  refine ⟨(if c.zero then padCnt else 0) + bufferZeros value b c, ?_, by omega,
    fun hc => by simp [hc]⟩
  have hdigits : ∀ ch ∈ (List.replicate ((if c.zero then padCnt else 0) + bufferZeros value b c) 0
      ++ (Nat.digits b.base value).reverse).map (digitChar b), ch ≠ ascii 'x' ∧ ch ≠ ascii 'X' := by
    intro ch hch
    obtain ⟨d, hd, rfl⟩ := List.mem_map.mp hch
    exact (h.digit d ((Grouping.denotes_digits h.base _ value).digit_lt d hd)).2
  have hpads : (if c.zero then List.replicate padCnt (ascii '0') else []).filter (· ∉ punctuation) =
      List.replicate (if c.zero then padCnt else 0) (ascii '0') := by
    split
    · exact filter_zeros padCnt
    · rfl
  have hjoin : List.replicate (if c.zero then padCnt else 0) (ascii '0') ++
      (List.replicate (bufferZeros value b c) 0 ++ (Nat.digits b.base value).reverse).map
        (digitChar b) =
      (List.replicate ((if c.zero then padCnt else 0) + bufferZeros value b c) 0 ++
        (Nat.digits b.base value).reverse).map (digitChar b) := by
    rw [← hzero, ← List.map_replicate, ← List.map_append, ← List.append_assoc,
      List.replicate_append_replicate]
  simp only [digitString, List.filter_append, filter_blanks, filter_sign, hbuf, hpads,
    List.nil_append, List.append_nil]
  rw [List.append_assoc, hjoin]
  cases prefixChar with
  | none => exact removePrefix_eq_self hdigits
  | some x =>
    obtain ⟨hpunct, hx⟩ := hx x rfl
    rw [List.filter_cons_of_pos (by decide), List.filter_cons_of_pos (by simpa using hpunct)]
    exact if_pos ⟨rfl, hx⟩

theorem width_le_length (value : Nat) (isSigned negative : Bool) (b : IntegerBase)
    (c : PrintfConversion) :
    c.width ≤ ((formatInteger value isSigned negative b c).length : Int) := by
  rw [formatInteger]
  generalize signChar isSigned negative c = sign
  generalize (if c.pound ∧ value ≠ 0 then b.x else none) = x
  generalize integerBuf value b c = buf
  simp only [List.length_append]
  -- one of the three paddings is there
  cases sign <;> cases x <;> cases c.minus <;> cases c.zero <;> simp <;> omega

/-- What the integer conversion is to do: it stays inside its buffer, and outputs at least `width`
characters, which without blanks, sign, commas and prefix denote the value. -/
def FormatsExactly (garbage : Vector UInt8 64) (value : Nat) (isSigned negative : Bool)
    (b : IntegerBase) (c : PrintfConversion) : Prop :=
  ∃ out, formatIntegerIn garbage value isSigned negative b c = .ok out ∧ c.width ≤ out.length ∧
    ∃ ds, digitString out = ds.map (digitChar b) ∧ Grouping.Denotes b.base ds value ∧
      (ds = [] → value = 0 ∧ c.precision = 0) ∧ (c.precision ≤ 40 → c.precision ≤ ds.length)

/-- No comma takes the place of a zero that the precision asks for. -/
def MeetsPrecision (value : Nat) (b : IntegerBase) (c : PrintfConversion) : Prop :=
  let n := (Nat.digits b.base value).length
  c.group = true → b.group < n → c.precision ≤ 40 →
    c.precision ≤ n ∨ c.pound = true ∧ b.base = 8 ∧ c.precision = n + 1

/-- The zeros that stand in front of the digits, with a precision and without commas. -/
theorem precision_le_iff (h : IsBase b) {value : Nat} (hvalue : value < 2 ^ 64)
    {c : PrintfConversion} (hprecision : c.precision ≤ 40) :
    c.precision ≤ (bufferZeros value b c + (Nat.digits b.base value).length : Nat) ↔
      MeetsPrecision value b c := by
  have hlength := @IsBase.length_digitLoop _ value c.group h hvalue
  have hdigits := h.length_digits hvalue
  have hcommas := h.commas_le c.group hdigits
  have hgroup := h.group
  rw [MeetsPrecision, bufferZeros, precisionZeros, hlength]
  generalize (Nat.digits b.base value).length = n at hdigits hcommas ⊢
  have hnone : commas b c.group n = 0 ↔ ¬ (c.group = true ∧ b.group < n) := by
    rw [commas, Grouping.separators]
    cases c.group with
    | false => simp
    | true =>
      simp only [if_true, true_and, Nat.div_eq_zero_iff]
      omega
  generalize commas b c.group n = k at hcommas hnone ⊢
  by_cases hneg : c.precision < 0
  · exact ⟨fun _ _ _ _ => .inl (by omega), fun _ => by omega⟩
  · rw [if_neg hneg]
    by_cases hfull : c.group = true ∧ b.group < n
    · have hk : 0 < k := Nat.pos_of_ne_zero fun hzero => hnone.mp hzero hfull
      by_cases hoctal : c.pound = true ∧ b.base = 8
      · simp only [hfull, hoctal, hprecision, true_and, forall_const]
        split_ifs <;> omega
      · rw [if_neg fun hall => hoctal ⟨hall.1, hall.2.1⟩]
        constructor
        · intro hle _ _ _
          omega
        · intro hmeets
          rcases hmeets hfull.1 hfull.2 hprecision with hle | ⟨hpound, hbase, -⟩
          · omega
          · exact absurd ⟨hpound, hbase⟩ hoctal
    · have hk : k = 0 := hnone.mpr hfull
      refine ⟨fun _ hgrouped hlt => absurd ⟨hgrouped, hlt⟩ hfull, fun _ => ?_⟩
      omega

theorem formatsExactly_iff (hb : b ∈ integerBases) {value : Nat} (hvalue : value < 2 ^ 64)
    {c : PrintfConversion} (hc : Parsed c) (garbage : Vector UInt8 64) (isSigned negative : Bool) :
    FormatsExactly garbage value isSigned negative b c ↔ MeetsPrecision value b c := by
  have h := isBase_of_mem hb
  obtain ⟨hmin, hzero⟩ := hc.precision
  obtain ⟨zeros, hdigits, hle, heq⟩ := digitString_formatInteger h hvalue isSigned negative c
  constructor
  · rintro ⟨out, hrun, -, ds, hout, -, -, hprecision⟩
    cases (formatIntegerIn_ok h hvalue garbage isSigned negative c).symm.trans hrun
    intro hgroup hlt hsmall
    have hlength : ds.length = zeros + (Nat.digits b.base value).length := by
      have hmap := congrArg List.length (hout.symm.trans hdigits)
      simpa using hmap
    have hmeets : MeetsPrecision value b c := by
      by_cases hneg : c.precision < 0
      · exact fun _ _ _ => .inl (by omega)
      · have hle := hprecision hsmall
        rw [hlength, heq (hzero (by omega))] at hle
        exact (precision_le_iff h hvalue hsmall).mp hle
    exact hmeets hgroup hlt hsmall
  · intro hmeets
    refine ⟨_, formatIntegerIn_ok h hvalue garbage isSigned negative c, width_le_length ..,
      _, hdigits, Grouping.denotes_digits h.base zeros value, fun hnil => ?_, fun hprecision => ?_⟩
    · rw [List.append_eq_nil_iff, List.replicate_eq_nil_iff, List.reverse_eq_nil_iff,
        Nat.digits_eq_nil_iff_eq_zero] at hnil
      obtain ⟨rfl, rfl⟩ := hnil
      have hnone : precisionZeros 0 b c = 0 := by
        rw [bufferZeros] at hle
        omega
      have hempty : digitLoop b c.group 64 0 [] 0 = [] := rfl
      rw [precisionZeros, hempty] at hnone
      refine ⟨rfl, ?_⟩
      by_cases hneg : c.precision < 0
      · rw [if_pos hneg] at hnone
        cases hnone
      · rw [if_neg hneg, List.length_nil] at hnone
        omega
    · rw [List.length_append, List.length_replicate, List.length_reverse]
      have hdefault := (precision_le_iff h hvalue hprecision).mpr hmeets
      omega

/-! ### The caller's buffer -/

/-- `INT_MAX`. -/
def intMax : Int := 2 ^ 31 - 1

/-- `struct vsnprintf_aux`, where `p` is an index of the caller's buffer. -/
structure VsnprintfBuf where
  buffer : List UInt8
  p : Nat
  length : Int
  maxLength : Int

/-- `*p = ch`. -/
def storeAt (buffer : List UInt8) (p : Nat) (ch : UInt8) : Except Fault (List UInt8) :=
  if p < buffer.length then .ok (buffer.set p ch)
  else .error (.undefined "write outside of buffer")

/-- `vsnprintf_helper`. -/
def vsnprintfHelperIn (aux : VsnprintfBuf) (ch : UInt8) : Except Fault VsnprintfBuf :=
  if aux.length = intMax then .error (.undefined "overflow of aux->length")
  else if aux.length < aux.maxLength then do
    let buffer ← storeAt aux.buffer aux.p ch
    pure ⟨buffer, aux.p + 1, aux.length + 1, aux.maxLength⟩
  else pure { aux with length := aux.length + 1 }

/-- `vsnprintf` into all of `buffer`. -/
def vsnprintfIn (buffer format : List UInt8) (args : List VaArg) :
    Except Fault (List UInt8 × Int) := do
  let bufSize := buffer.length
  let maxLength := if 0 < bufSize then ((bufSize : Int) - 1).bmod (2 ^ 32) else 0
  match vprintf format args with
  | none => .error (.undefined "conversion without its argument")
  | some out => do
    let aux ← out.foldlM vsnprintfHelperIn ⟨buffer, 0, 0, maxLength⟩
    let buffer ← (if 0 < bufSize then storeAt aux.buffer aux.p 0 else pure aux.buffer :
      Except Fault (List UInt8))
    pure (buffer, aux.length)

/-- What the helper does with the characters of the output, as long as they can be counted. -/
theorem foldlM_vsnprintfHelperIn {out : List UInt8} {aux : VsnprintfBuf} {room : Nat}
    (hroom : (aux.maxLength - aux.length).toNat = room)
    (hfits : aux.p + room < aux.buffer.length) (hint : aux.length + out.length ≤ intMax) :
    out.foldlM vsnprintfHelperIn aux = .ok
      ⟨aux.buffer.take aux.p ++ out.take room ++ aux.buffer.drop (aux.p + min out.length room),
        aux.p + min out.length room, aux.length + out.length, aux.maxLength⟩ := by
  induction out generalizing aux room with
  | nil => simp [pure, Except.pure]
  | cons ch out ih =>
    rw [List.length_cons, Nat.cast_add_one] at hint
    have hcount : aux.length ≠ intMax := by omega
    have hlength : aux.length + 1 + out.length = aux.length + (ch :: out).length := by
      rw [List.length_cons, Nat.cast_add_one]
      omega
    rw [List.foldlM_cons, vsnprintfHelperIn, if_neg hcount]
    by_cases hless : aux.length < aux.maxLength
    · obtain ⟨k, rfl⟩ : ∃ k, room = k + 1 := ⟨room - 1, by omega⟩
      have hp : aux.p < aux.buffer.length := by omega
      have hrun := @ih ⟨aux.buffer.set aux.p ch, aux.p + 1, aux.length + 1, aux.maxLength⟩ k
        (by dsimp only; omega) (by rw [List.length_set]; dsimp only; omega) (by dsimp only; omega)
      dsimp only at hrun
      have htake : (aux.buffer.set aux.p ch).take (aux.p + 1) = aux.buffer.take aux.p ++ [ch] := by
        rw [List.take_add_one, List.take_set_of_le (Nat.le_refl _), List.getElem?_set_self hp]
        rfl
      have hmin : aux.p + 1 + min out.length k = aux.p + min (ch :: out).length (k + 1) := by
        rw [List.length_cons]
        omega
      rw [htake, List.drop_set_of_lt (by omega), hmin, hlength] at hrun
      rw [if_pos hless, storeAt, if_pos hp, List.take_succ_cons, ← List.singleton_append,
        ← List.append_assoc (aux.buffer.take aux.p)]
      exact hrun
    · obtain rfl : room = 0 := by omega
      have hrun := @ih ⟨aux.buffer, aux.p, aux.length + 1, aux.maxLength⟩ 0
        (by dsimp only; omega) hfits (by dsimp only; omega)
      dsimp only at hrun
      rw [Nat.min_zero, hlength, List.take_zero] at hrun
      rw [if_neg hless, Nat.min_zero, List.take_zero]
      exact hrun

/-- Counting an output of more characters than an `int` can hold overflows. -/
theorem foldlM_vsnprintfHelperIn_overflow {out : List UInt8} {aux : VsnprintfBuf}
    (hlength : aux.length ≤ intMax) (hint : intMax < aux.length + out.length)
    (aux' : VsnprintfBuf) : out.foldlM vsnprintfHelperIn aux ≠ .ok aux' := by
  induction out generalizing aux with
  | nil =>
    rw [List.length_nil] at hint
    omega
  | cons ch out ih =>
    rw [List.length_cons, Nat.cast_add_one] at hint
    rw [List.foldlM_cons, vsnprintfHelperIn]
    by_cases hmax : aux.length = intMax
    · rw [if_pos hmax]
      nofun
    · rw [if_neg hmax]
      by_cases hless : aux.length < aux.maxLength
      · rw [if_pos hless, storeAt]
        split
        · exact @ih ⟨aux.buffer.set aux.p ch, aux.p + 1, aux.length + 1, aux.maxLength⟩
            (by dsimp only; omega) (by dsimp only; omega)
        · nofun
      · rw [if_neg hless]
        exact @ih ⟨aux.buffer, aux.p, aux.length + 1, aux.maxLength⟩ (by dsimp only; omega)
          (by dsimp only; omega)

/-- What `vsnprintf` is to do with the output: it stores what fits, and a null byte, leaves the rest
of the buffer alone and returns the full length. -/
def StoresPrefix (buffer format : List UInt8) (args : List VaArg) (out : List UInt8) : Prop :=
  vsnprintfIn buffer format args = .ok
    (out.take (buffer.length - 1) ++ 0 :: buffer.drop (min out.length (buffer.length - 1) + 1),
      (out.length : Int))

theorem storesPrefix_iff {buffer format out : List UInt8} {args : List VaArg}
    (hpos : 1 ≤ buffer.length) (hsize : buffer.length < 2 ^ 31)
    (hout : vprintf format args = some out) :
    StoresPrefix buffer format args out ↔ out.length < 2 ^ 31 := by
  have hmax : (if 0 < buffer.length then ((buffer.length : Int) - 1).bmod (2 ^ 32) else 0) =
      (buffer.length : Int) - 1 := by
    rw [if_pos (show 0 < buffer.length from hpos)]
    refine Int.bmod_eq_of_le ?_ ?_ <;> omega
  rw [StoresPrefix, vsnprintfIn, hout]
  dsimp only
  rw [hmax]
  constructor
  · intro hrun
    by_contra hlong
    obtain ⟨aux, hfold, -⟩ : ∃ aux, out.foldlM vsnprintfHelperIn
        ⟨buffer, 0, 0, (buffer.length : Int) - 1⟩ = .ok aux ∧ True := by
      cases hfold : out.foldlM vsnprintfHelperIn ⟨buffer, 0, 0, (buffer.length : Int) - 1⟩ with
      | error fault =>
        rw [hfold] at hrun
        cases hrun
      | ok aux => exact ⟨aux, rfl, trivial⟩
    refine foldlM_vsnprintfHelperIn_overflow ?_ ?_ aux hfold
    · exact show (0 : Int) ≤ intMax by decide
    · rw [intMax]
      dsimp only
      omega
  · intro hshort
    have hfold := @foldlM_vsnprintfHelperIn out ⟨buffer, 0, 0, (buffer.length : Int) - 1⟩
      (buffer.length - 1) (by dsimp only; omega) (by dsimp only; omega)
      (by rw [intMax]; dsimp only; omega)
    dsimp only at hfold
    rw [List.take_zero, List.nil_append, Nat.zero_add, Int.zero_add] at hfold
    have hroom : min out.length (buffer.length - 1) < buffer.length := by omega
    have hstore : storeAt (out.take (buffer.length - 1) ++
        buffer.drop (min out.length (buffer.length - 1))) (min out.length (buffer.length - 1)) 0 =
        .ok (out.take (buffer.length - 1) ++
          0 :: buffer.drop (min out.length (buffer.length - 1) + 1)) := by
      have htake : (out.take (buffer.length - 1)).length = min out.length (buffer.length - 1) := by
        rw [List.length_take, Nat.min_comm]
      rw [storeAt, if_pos (by rw [List.length_append, htake, List.length_drop]; omega),
        List.set_append_right _ _ (Nat.le_of_eq htake), htake, Nat.sub_self,
        List.drop_eq_getElem_cons hroom, List.set_cons_zero]
    rw [hfold]
    show ((if 0 < buffer.length then storeAt _ _ 0 else _ : Except Fault (List UInt8)) >>= _) = _
    rw [if_pos (show 0 < buffer.length from hpos), hstore]
    rfl

/-- Integers are formatted exactly, but for the commas that `format_integer` counts as digits when
it fills up to the precision; and `vsnprintf` keeps what fits, while an `int` counts the output. -/
theorem integers_formatted_iff (hb : b ∈ integerBases) {value : Nat} (hvalue : value < 2 ^ 64)
    {c : PrintfConversion} (hc : Parsed c) (garbage : Vector UInt8 64) (isSigned negative : Bool)
    {buffer format out : List UInt8} {args : List VaArg} (hpos : 1 ≤ buffer.length)
    (hsize : buffer.length < 2 ^ 31) (hout : vprintf format args = some out) :
    (FormatsExactly garbage value isSigned negative b c ↔ MeetsPrecision value b c) ∧
      (StoresPrefix buffer format args out ↔ out.length < 2 ^ 31) :=
  ⟨formatsExactly_iff hb hvalue hc garbage isSigned negative, storesPrefix_iff hpos hsize hout⟩

/-- `"%8.5d"` of -1234, and `"%d"` of it in a buffer of three bytes. -/
theorem integers_formatted_iff_minus1234 :
    FormatsExactly (Vector.replicate 64 0) 1234 true true baseD
      ⟨false, false, false, false, false, false, 8, 5, .int⟩ ∧
    StoresPrefix [1, 1, 1] (asciiBytes "%d") [.integer (-1234)] (asciiBytes "-1234") := by
  have hparsed : Parsed ⟨false, false, false, false, false, false, 8, 5, .int⟩ :=
    ⟨[0x38, 0x2e, 0x35, 0x64], [], [0x64], [], rfl⟩
  have hout : vprintf (asciiBytes "%d") [.integer (-1234)] = some (asciiBytes "-1234") := by
    decide +kernel
  obtain ⟨hformats, hstores⟩ := @integers_formatted_iff baseD List.mem_cons_self 1234 (by decide) _
    hparsed (Vector.replicate 64 0) true true [1, 1, 1] _ _ _ (by decide) (by decide) hout
  exact ⟨hformats.mpr nofun, hstores.mpr (by decide +kernel)⟩

/-- `"%'.5d"` of 1234 is `1,234`, which has four digits. -/
theorem comma_counted_as_digit :
    Parsed ⟨false, false, false, false, false, true, 0, 5, .int⟩ ∧
    ¬ FormatsExactly (Vector.replicate 64 0) 1234 true false baseD
      ⟨false, false, false, false, false, true, 0, 5, .int⟩ := by
  refine ⟨⟨[0x27, 0x2e, 0x35, 0x64], [], [0x64], [], rfl⟩, ?_⟩
  rintro ⟨out, hrun, -, ds, hout, -, -, hprecision⟩
  have heval : formatIntegerIn (Vector.replicate 64 0) 1234 true false baseD
      ⟨false, false, false, false, false, true, 0, 5, .int⟩ = .ok (asciiBytes "1,234") := by
    decide +kernel
  cases heval.symm.trans hrun
  have hlength : (digitString (asciiBytes "1,234")).length = 4 := by decide +kernel
  rw [hout, List.length_map] at hlength
  have hfive : (5 : Int) ≤ ds.length := hprecision (by decide)
  omega

end Pintos
