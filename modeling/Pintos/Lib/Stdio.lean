import Mathlib.Data.Nat.Digits.Lemmas
import Mathlib.Tactic.Common

/-! Formatted output (`lib/stdio.c`): conversions are parsed, integers are formatted from their last
digit on in a buffer, and `vsnprintf` keeps what fits in the caller's buffer. -/

namespace Pintos

/-- The byte of a character. -/
def ascii (c : Char) : UInt8 := UInt8.ofNat c.toNat

def asciiBytes (s : String) : List UInt8 := s.toList.map ascii

/-- The `type` of a conversion. -/
inductive ArgType where
  | char | short | int | intmax | long | longlong | ptrdifft | sizet
  deriving DecidableEq

/-- The bits of an argument of the type. -/
def ArgType.bits : ArgType → Nat
  | .char => 8
  | .short => 16
  | .int | .long | .ptrdifft | .sizet => 32
  | .intmax | .longlong => 64

/-- `struct printf_conversion`, with a field for every flag. -/
structure PrintfConversion where
  minus : Bool
  plus : Bool
  space : Bool
  pound : Bool
  zero : Bool
  group : Bool
  width : Int
  precision : Int
  type : ArgType

/-- `struct integer_base`; `x` is the character after the zero of a base 16 number. -/
structure IntegerBase where
  base : Nat
  digits : List UInt8
  x : Option UInt8
  group : Nat

def baseD : IntegerBase := ⟨10, asciiBytes "0123456789", none, 3⟩
def baseO : IntegerBase := ⟨8, asciiBytes "01234567", none, 3⟩
def baseLowerX : IntegerBase := ⟨16, asciiBytes "0123456789abcdef", some (ascii 'x'), 4⟩
def baseUpperX : IntegerBase := ⟨16, asciiBytes "0123456789ABCDEF", some (ascii 'X'), 4⟩

/-! ### Integers -/

/-- The loop of `format_integer` over the digits.  `buf` is the buffer from its last byte back to its
first, so in the order of the output. -/
def digitLoop (b : IntegerBase) (group : Bool) :
    (fuel : Nat) → (value : Nat) → (buf : List UInt8) → (digitCnt : Nat) → List UInt8
  | 0, _, buf, _ => buf
  | fuel + 1, value, buf, digitCnt =>
    if value = 0 then buf
    else
      let buf := if group ∧ 0 < digitCnt ∧ digitCnt % b.group = 0 then ascii ',' :: buf else buf
      digitLoop b group fuel (value / b.base) (b.digits.getD (value % b.base) 0 :: buf)
        (digitCnt + 1)

/-- The sign character of a conversion. -/
def signChar (isSigned negative : Bool) (c : PrintfConversion) : Option UInt8 :=
  if !isSigned then none
  else if c.plus then some (if negative then ascii '-' else ascii '+')
  else if c.space then some (if negative then ascii '-' else ascii ' ')
  else if negative then some (ascii '-')
  else none

/-- The buffer of `format_integer` after the digits, the zeros of the precision and the zero of an
octal number.  A `value` has 64 bits, so at most 64 digits. -/
def integerBuf (value : Nat) (b : IntegerBase) (c : PrintfConversion) : List UInt8 :=
  let buf := digitLoop b c.group 64 value [] 0
  let precision := if c.precision < 0 then 1 else c.precision
  let buf := List.replicate ((min precision 63).toNat - buf.length) (ascii '0') ++ buf
  if c.pound ∧ b.base = 8 ∧ buf.head? ≠ some (ascii '0') then ascii '0' :: buf else buf

/-- The output of `format_integer`. -/
def formatInteger (value : Nat) (isSigned negative : Bool) (b : IntegerBase)
    (c : PrintfConversion) : List UInt8 :=
  let sign := signChar isSigned negative c
  let x := if c.pound ∧ value ≠ 0 then b.x else none
  let buf := integerBuf value b c
  let padCnt := (c.width - buf.length - (if x.isSome then 2 else 0)
    - (if sign.isSome then 1 else 0)).toNat
  (if !c.minus && !c.zero then List.replicate padCnt (ascii ' ') else []) ++
    sign.toList ++
    (match x with
      | some x => [ascii '0', x]
      | none => []) ++
    (if c.zero then List.replicate padCnt (ascii '0') else []) ++
    buf ++
    (if c.minus then List.replicate padCnt (ascii ' ') else [])

/-- The output of `format_string`. -/
def formatString (string : List UInt8) (c : PrintfConversion) : List UInt8 :=
  let pad := List.replicate (c.width - string.length).toNat (ascii ' ')
  (if c.minus then [] else pad) ++ string ++ (if c.minus then pad else [])

/-! ### Conversions -/

/-- A variable argument: an integer, or a string or null pointer. -/
inductive VaArg where
  | integer (v : Int)
  | string (s : Option (List UInt8))

def parseFlags : List UInt8 → PrintfConversion → PrintfConversion × List UInt8
  | [], c => (c, [])
  | ch :: format, c =>
    if ch = ascii '-' then parseFlags format { c with minus := true }
    else if ch = ascii '+' then parseFlags format { c with plus := true }
    else if ch = ascii ' ' then parseFlags format { c with space := true }
    else if ch = ascii '#' then parseFlags format { c with pound := true }
    else if ch = ascii '0' then parseFlags format { c with zero := true }
    else if ch = ascii '\'' then parseFlags format { c with group := true }
    else (c, ch :: format)

/-- The loop over the digits of a width or a precision. -/
def parseNumber : List UInt8 → Int → Int × List UInt8
  | [], n => (n, [])
  | ch :: format, n =>
    if ascii '0' ≤ ch ∧ ch ≤ ascii '9' then parseNumber format (n * 10 + ch.toNat - 48)
    else (n, ch :: format)

/-- A width or precision, from the arguments for a star; `none` where there is no such argument. -/
def parseSize (format : List UInt8) (args : List VaArg) :
    Option (Int × List UInt8 × List VaArg) :=
  match format, args with
  | ch :: format', .integer v :: args' =>
    if ch = ascii '*' then some (v, format', args')
    else
      let (n, rest) := parseNumber format 0
      some (n, rest, args)
  | _, _ =>
    if format.head? = some (ascii '*') then none
    else
      let (n, rest) := parseNumber format 0
      some (n, rest, args)

def parseType : List UInt8 → ArgType × List UInt8
  | ch :: format =>
    if ch = ascii 'h' then
      if format.head? = some (ascii 'h') then (.char, format.tail) else (.short, format)
    else if ch = ascii 'j' then (.intmax, format)
    else if ch = ascii 'l' then
      if format.head? = some (ascii 'l') then (.longlong, format.tail) else (.long, format)
    else if ch = ascii 't' then (.ptrdifft, format)
    else if ch = ascii 'z' then (.sizet, format)
    else (.int, ch :: format)
  | [] => (.int, [])

/-- `parse_conversion`: the conversion, the format from its last character on, and the arguments
left. -/
def parseConversion (format : List UInt8) (args : List VaArg) :
    Option (PrintfConversion × List UInt8 × List VaArg) := do
  let (c, format) := parseFlags format ⟨false, false, false, false, false, false, 0, -1, .int⟩
  let c := if c.minus then { c with zero := false } else c
  let c := if c.plus then { c with space := false } else c
  let (width, format, args) ← parseSize format args
  let c := if width < 0 then { c with width := -width, minus := true } else { c with width }
  let (precision, format, args) ←
    if format.head? = some (ascii '.') then parseSize format.tail args
    else some (-1, format, args)
  let c := { c with precision := if precision < 0 then -1 else precision }
  let c := if (0 : Int) ≤ c.precision then { c with zero := false } else c
  let (type, format) := parseType format
  return ({ c with type }, format, args)

/-- A signed argument of the type. -/
def signedArg (type : ArgType) (v : Int) : Int := v.bmod (2 ^ type.bits)

/-- An unsigned argument of the type. -/
def unsignedArg (type : ArgType) (v : Int) : Nat := (v % 2 ^ type.bits).toNat

/-- The output of one conversion, and the arguments left; `none` for an argument of another kind. -/
def convert (ch : UInt8) (c : PrintfConversion) (args : List VaArg) :
    Option (List UInt8 × List VaArg) :=
  if ch = ascii 'd' ∨ ch = ascii 'i' then
    match args with
    | .integer v :: args =>
      let value := signedArg c.type v
      some (formatInteger value.natAbs true (value < 0) baseD c, args)
    | _ => none
  else if ch = ascii 'o' ∨ ch = ascii 'u' ∨ ch = ascii 'x' ∨ ch = ascii 'X' then
    match args with
    | .integer v :: args =>
      let b := if ch = ascii 'o' then baseO else if ch = ascii 'u' then baseD
        else if ch = ascii 'x' then baseLowerX else baseUpperX
      some (formatInteger (unsignedArg c.type v) false false b c, args)
    | _ => none
  else if ch = ascii 'c' then
    match args with
    | .integer v :: args => some (formatString [UInt8.ofNat (v % 2 ^ 8).toNat] c, args)
    | _ => none
  else if ch = ascii 's' then
    match args with
    | .string s :: args =>
      let s := s.getD (asciiBytes "(null)")
      some (formatString (if c.precision < 0 then s else s.take c.precision.toNat) c, args)
    | _ => none
  else if ch = ascii 'p' then
    match args with
    | .integer v :: args =>
      let c := { c with minus := false, plus := false, space := false, pound := true,
                        zero := false, group := false }
      some (formatInteger (unsignedArg .long v) false false baseLowerX c, args)
    | _ => none
  else if ch ∈ asciiBytes "feEgGn" then
    some (asciiBytes "<<no %" ++ ch :: asciiBytes " in kernel>>", args)
  else some (asciiBytes "<<no %" ++ ch :: asciiBytes " conversion>>", args)

/-- The output of `__vprintf`.  Every round consumes a character of the format; `none` where the
format ends in a conversion or the arguments do not suit it. -/
def vprintfLoop : (fuel : Nat) → (format : List UInt8) → List VaArg → Option (List UInt8)
  | 0, _, _ => none
  | _ + 1, [], _ => some []
  | fuel + 1, ch :: format, args =>
    if ch ≠ ascii '%' then do return ch :: (← vprintfLoop fuel format args)
    else if format.head? = some (ascii '%') then do
      return ascii '%' :: (← vprintfLoop fuel format.tail args)
    else do
      let (c, format, args) ← parseConversion format args
      match format with
      | [] => none
      | ch :: format =>
        let (out, args) ← convert ch c args
        return out ++ (← vprintfLoop fuel format args)

def vprintf (format : List UInt8) (args : List VaArg) : Option (List UInt8) :=
  vprintfLoop (format.length + 1) format args

/-! ### Output to a buffer -/

/-- `struct vsnprintf_aux`, with the bytes that `p` has passed. -/
structure VsnprintfAux where
  written : List UInt8
  length : Int
  maxLength : Int

def vsnprintfHelper (aux : VsnprintfAux) (ch : UInt8) : VsnprintfAux where
  written := if aux.length < aux.maxLength then aux.written ++ [ch] else aux.written
  length := aux.length + 1
  maxLength := aux.maxLength

/-- `vsnprintf`: the bytes written to the buffer and the returned length. -/
def vsnprintf (bufSize : Nat) (format : List UInt8) (args : List VaArg) :
    Option (List UInt8 × Int) := do
  let aux := (← vprintf format args).foldl vsnprintfHelper
    ⟨[], 0, if 0 < bufSize then bufSize - 1 else 0⟩
  return (aux.written ++ (if 0 < bufSize then [0] else []), aux.length)

/-! ### Octal numbers -/

variable {b : IntegerBase}

/-- The digits without grouping, the most significant first. -/
theorem digitLoop_eq (hb : 1 < b.base) {fuel value : Nat} (hfuel : value < b.base ^ fuel)
    (buf : List UInt8) (digitCnt : Nat) :
    digitLoop b false fuel value buf digitCnt
      = ((Nat.digits b.base value).map (b.digits.getD · 0)).reverse ++ buf := by
  induction fuel generalizing value buf digitCnt with
  | zero =>
    obtain rfl : value = 0 := by simpa using hfuel
    simp [digitLoop]
  | succ fuel ih =>
    rw [digitLoop]
    split
    · next hzero => simp [hzero]
    · next hpos =>
      have hless : value / b.base < b.base ^ fuel :=
        Nat.div_lt_of_lt_mul (by rwa [Nat.pow_succ, Nat.mul_comm] at hfuel)
      rw [ih hless, Nat.digits_def' hb (Nat.pos_of_ne_zero hpos)]
      simp

/-- The digits of `n` in base 8, filled up with zeros on the left to `width` of them. -/
def octalText (width n : Nat) : List UInt8 :=
  let digits := ((Nat.digits 8 n).map (baseO.digits.getD · 0)).reverse
  List.replicate (width - digits.length) (ascii '0') ++ digits

theorem length_digits_le {n width : Nat} (hn : n < 8 ^ width) : (Nat.digits 8 n).length ≤ width := by
  exact (Nat.digits_length_le_iff (by decide) n).mpr hn

theorem length_octalText {n width : Nat} (hn : n < 8 ^ width) :
    (octalText width n).length = width := by
  have := length_digits_le hn
  simp [octalText]
  omega

/-- The conversion of `%07o` and `%011o`. -/
def zeroFilled (width : Nat) : PrintfConversion :=
  ⟨false, false, false, false, true, false, width, -1, .int⟩

theorem formatInteger_zeroFilled {n width : Nat} (hpos : 0 < width) (hwidth : width ≤ 64)
    (hn : n < 8 ^ width) :
    formatInteger n false false baseO (zeroFilled width) = octalText width n := by
  have hlen := length_digits_le hn
  have hdigits : digitLoop baseO false 64 n [] 0
      = ((Nat.digits 8 n).map (baseO.digits.getD · 0)).reverse := by
    rw [digitLoop_eq (b := baseO) (by decide), List.append_nil]
    · rfl
    · exact hn.trans_le (Nat.pow_le_pow_right (by decide) hwidth)
  have hbuf : integerBuf n baseO (zeroFilled width)
      = List.replicate (1 - (Nat.digits 8 n).length) (ascii '0')
        ++ ((Nat.digits 8 n).map (baseO.digits.getD · 0)).reverse := by
    simp [integerBuf, zeroFilled, hdigits]
  have hpad : ((zeroFilled width).width - (List.replicate (1 - (Nat.digits 8 n).length) (ascii '0')
        ++ ((Nat.digits 8 n).map (baseO.digits.getD · 0)).reverse).length - 0 - 0).toNat
      = width - max 1 (Nat.digits 8 n).length := by
    simp [zeroFilled]
    omega
  have hzeros : width - max 1 (Nat.digits 8 n).length + (1 - (Nat.digits 8 n).length)
      = width - (Nat.digits 8 n).length := by
    omega
  rw [octalText, List.length_reverse, List.length_map, ← hzeros, ← List.replicate_append_replicate,
    List.append_assoc, ← hbuf, ← hpad, ← hbuf]
  simp [formatInteger, signChar, zeroFilled, baseO]

theorem foldl_vsnprintfHelper (out : List UInt8) (aux : VsnprintfAux) :
    out.foldl vsnprintfHelper aux =
      ⟨aux.written ++ out.take (aux.maxLength - aux.length).toNat, aux.length + out.length,
        aux.maxLength⟩ := by
  induction out generalizing aux with
  | nil => simp
  | cons ch out ih =>
    rw [List.foldl_cons, ih, vsnprintfHelper]
    split
    · next hroom =>
      obtain ⟨k, hk⟩ : ∃ k : Nat, aux.maxLength - aux.length = k + 1 :=
        ⟨(aux.maxLength - aux.length - 1).toNat, by omega⟩
      have hnext : aux.maxLength - (aux.length + 1) = k := by omega
      have hsucc : ((k : Int) + 1).toNat = k + 1 := by omega
      simp [hnext, hk, hsucc]
      omega
    · next hfull =>
      have hzero : (aux.maxLength - aux.length).toNat = 0 := by omega
      have hnext : (aux.maxLength - (aux.length + 1)).toNat = 0 := by omega
      simp [hnext, hzero]
      omega

/-- What is written where the whole output and a null byte fit. -/
theorem vsnprintf_fits {bufSize : Nat} {format out : List UInt8} {args : List VaArg}
    (hout : vprintf format args = some out) (hfits : out.length < bufSize) :
    vsnprintf bufSize format args = some (out ++ [0], (out.length : Int)) := by
  have hpos : 0 < bufSize := by omega
  rw [vsnprintf, hout]
  simp [hpos, foldl_vsnprintfHelper]
  omega

/-- A format that is one conversion. -/
theorem vprintf_conversion {spec out : List UInt8} {ch : UInt8} {c : PrintfConversion}
    {args args' args'' : List VaArg} (hspec : spec.head? ≠ some (ascii '%'))
    (hparse : parseConversion spec args = some (c, [ch], args'))
    (hconvert : convert ch c args' = some (out, args'')) :
    vprintf (ascii '%' :: spec) args = some out := by
  cases spec with
  | nil => cases hparse
  | cons d rest =>
    rw [vprintf, List.length_cons, vprintfLoop, if_neg (by simp), if_neg hspec, hparse]
    show (do
      let (out, args) ← convert ch c args'
      return out ++ (← vprintfLoop (rest.length + 1 + 1) [] args)) = some out
    rw [hconvert]
    simp [vprintfLoop]

/-- `snprintf (buffer, width + 1, "%0<width>o", v)` for the widths 7 and 11 of the fields. -/
theorem vsnprintf_octal {width : Nat} {format : List UInt8} {v : Nat}
    (hformat : format = asciiBytes "%07o" ∧ width = 7 ∨ format = asciiBytes "%011o" ∧ width = 11)
    (hv : v < 8 ^ width) (hbits : v < 2 ^ 32) :
    vsnprintf (width + 1) format [.integer v]
      = some (octalText width v ++ [0], (width : Int)) := by
  have hvalue : unsignedArg .int v = v := by
    rw [unsignedArg, ArgType.bits]
    omega
  have hout : vprintf format [.integer v] = some (octalText width v) := by
    obtain ⟨rfl, rfl⟩ | ⟨rfl, rfl⟩ := hformat
    · have hbytes : asciiBytes "%07o" = [0x25, 0x30, 0x37, 0x6f] := by decide +kernel
      have hconvert : convert 0x6f (zeroFilled 7) [.integer v]
          = some (formatInteger (unsignedArg .int v) false false baseO (zeroFilled 7), []) := rfl
      rw [hvalue, formatInteger_zeroFilled (by decide) (by decide) hv] at hconvert
      rw [hbytes]
      exact vprintf_conversion (by decide) rfl hconvert
    · have hbytes : asciiBytes "%011o" = [0x25, 0x30, 0x31, 0x31, 0x6f] := by decide +kernel
      have hconvert : convert 0x6f (zeroFilled 11) [.integer v]
          = some (formatInteger (unsignedArg .int v) false false baseO (zeroFilled 11), []) := rfl
      rw [hvalue, formatInteger_zeroFilled (by decide) (by decide) hv] at hconvert
      rw [hbytes]
      exact vprintf_conversion (by decide) rfl hconvert
  have hlen := length_octalText hv
  rw [vsnprintf_fits hout (by omega), hlen]

end Pintos
