/-
`lib/stdio.c`: the formatted output behind `printf` and `snprintf`.

# Reading the model

A C string is the list of its bytes without the terminator. `vprintf`
returns what `__vprintf` hands to its output function, byte by byte;
`snprintf` is what `vsnprintf` leaves in a buffer. The arguments of a call
are a list, and `va_arg` takes its head; a call that passes too few of
them, or one of the wrong kind, is undefined in C and reads a zero here.
The bound of the digit loop is the size of the source's `buf`, which
holds every `uintmax_t`.

# What the callers need

`snprintf_octal`: the zero-padded octal conversion of a value that fits its
width leaves exactly the value's digits, most significant first, and the
terminator. The rest of the project uses `%0No` only through it.
-/
import Mathlib.Data.Nat.Digits.Lemmas

namespace Pintos.Stdio

open List

abbrev Bytes := List UInt8

/-- A character constant. -/
def ch (c : Char) : UInt8 := c.toUInt8

/-- A string literal, without its terminator. -/
def lit (s : String) : Bytes := s.toList.map ch

-- ==== conversions

structure Flags where
  minus : Bool := false
  plus : Bool := false
  space : Bool := false
  pound : Bool := false
  zero : Bool := false
  group : Bool := false

inductive ArgType where
  | char | short | int | intmax | long | longlong | ptrdifft | sizet

/-- The bits of the argument, on the 80x86. -/
def ArgType.width : ArgType → Nat
  | .char => 8
  | .short => 16
  | .int | .long | .ptrdifft | .sizet => 32
  | .intmax | .longlong => 64

/-- `struct printf_conversion`. -/
structure PrintfConversion where
  flags : Flags
  width : Int
  precision : Int
  type : ArgType

/-- An argument of a call: an integer, or a string or null pointer. -/
inductive Arg where
  | int (v : Int)
  | str (s : Option Bytes)

/-- `va_arg` at an integer type. -/
def vaInt : List Arg → Int × List Arg
  | .int v :: args => (v, args)
  | args => (0, args.tail)

/-- `va_arg` at a string. -/
def vaStr : List Arg → Option Bytes × List Arg
  | .str s :: args => (s, args)
  | args => (none, args.tail)

def isdigit (c : UInt8) : Bool := ch '0' ≤ c && c ≤ ch '9'

/-- The flag characters at the start of a format. -/
def parseFlags : Bytes → Flags → Flags × Bytes
  | [], f => (f, [])
  | c :: rest, f =>
    if c = ch '-' then parseFlags rest { f with minus := true }
    else if c = ch '+' then parseFlags rest { f with plus := true }
    else if c = ch ' ' then parseFlags rest { f with space := true }
    else if c = ch '#' then parseFlags rest { f with pound := true }
    else if c = ch '0' then parseFlags rest { f with zero := true }
    else if c = ch '\'' then parseFlags rest { f with group := true }
    else (f, c :: rest)

/-- The decimal number at the start of a format. -/
def parseDigits : Bytes → Int → Int × Bytes
  | [], n => (n, [])
  | c :: rest, n =>
    if isdigit c then parseDigits rest (n * 10 + (c - ch '0').toNat)
    else (n, c :: rest)

/-- A number in a format: `*` takes it from the arguments. -/
def parseNumber (format : Bytes) (args : List Arg) : Int × Bytes × List Arg :=
  match format with
  | [] => (0, [], args)
  | c :: rest =>
    if c = ch '*' then ((vaInt args).1, rest, (vaInt args).2)
    else ((parseDigits (c :: rest) 0).1, (parseDigits (c :: rest) 0).2, args)

/-- The length modifier. -/
def parseType : Bytes → ArgType × Bytes
  | [] => (.int, [])
  | c :: rest =>
    if c = ch 'h' then
      if rest.head? = some (ch 'h') then (.char, rest.tail)
      else (.short, rest)
    else if c = ch 'j' then (.intmax, rest)
    else if c = ch 'l' then
      if rest.head? = some (ch 'l') then (.longlong, rest.tail)
      else (.long, rest)
    else if c = ch 't' then (.ptrdifft, rest)
    else if c = ch 'z' then (.sizet, rest)
    else (.int, c :: rest)

/-- `parse_conversion`: the conversion, the format from the conversion
letter on, and the arguments left. -/
def parseConversion (format : Bytes) (args : List Arg) : PrintfConversion × Bytes × List Arg :=
  let (f, format) := parseFlags format {}
  let f := if f.minus then { f with zero := false } else f
  let f := if f.plus then { f with space := false } else f
  let (width, format, args) := parseNumber format args
  let f := if width < 0 then { f with minus := true } else f
  let width := if width < 0 then -width else width
  let (precision, format, args) :=
    if format.head? = some (ch '.') then
      let (p, format, args) := parseNumber format.tail args
      (if p < 0 then -1 else p, format, args)
    else (-1, format, args)
  let f := if 0 ≤ precision then { f with zero := false } else f
  let (type, format) := parseType format
  (⟨f, width, precision, type⟩, format, args)

-- ==== integers

/-- `struct integer_base`; `x` is 0 outside base 16. -/
structure IntegerBase where
  base : Nat
  digits : Bytes
  x : UInt8
  group : Nat

def baseD : IntegerBase := ⟨10, lit "0123456789", 0, 3⟩
def baseO : IntegerBase := ⟨8, lit "01234567", 0, 3⟩
def baseX : IntegerBase := ⟨16, lit "0123456789abcdef", ch 'x', 4⟩
def baseXUpper : IntegerBase := ⟨16, lit "0123456789ABCDEF", ch 'X', 4⟩

/-- The digit loop of `format_integer`: `buf`, least significant digit
first, with a comma before each further group. -/
def accumulate (b : IntegerBase) (group : Bool) : Nat → Nat → Nat → Bytes
  | 0, _, _ => []
  | room + 1, value, digitCnt =>
    if value = 0 then []
    else
      (if group && decide (0 < digitCnt) && digitCnt % b.group == 0
        then [ch ','] else []) ++
      b.digits.getD (value % b.base) 0 :: accumulate b group room (value / b.base) (digitCnt + 1)

/-- `format_integer`. -/
def formatInteger (value : Nat) (isSigned negative : Bool)
    (b : IntegerBase) (c : PrintfConversion) : Bytes :=
  let sign : Bytes :=
    if isSigned then
      if c.flags.plus then [if negative then ch '-' else ch '+']
      else if c.flags.space then [if negative then ch '-' else ch ' ']
      else if negative then [ch '-'] else []
    else []
  let x : Bytes :=
    if c.flags.pound && value != 0 && b.x != 0 then [ch '0', b.x] else []
  let buf := accumulate b c.flags.group 64 value 0
  -- zeros up to the precision, as far as the buffer has room for them
  let precision := if c.precision < 0 then 1 else c.precision.toNat
  let buf := buf ++ List.replicate (min precision 63 - buf.length) (ch '0')
  let buf :=
    if c.flags.pound && b.base == 8 && buf.getLast? != some (ch '0')
    then buf ++ [ch '0'] else buf
  let padCnt := (c.width - buf.length - x.length - sign.length).toNat
  (if c.flags.minus || c.flags.zero then []
    else List.replicate padCnt (ch ' ')) ++
  sign ++ x ++
  (if c.flags.zero then List.replicate padCnt (ch '0') else []) ++
  buf.reverse ++
  (if c.flags.minus then List.replicate padCnt (ch ' ') else [])

/-- `format_string`. -/
def formatString (s : Bytes) (c : PrintfConversion) : Bytes :=
  let pad := List.replicate (c.width - s.length).toNat (ch ' ')
  if c.flags.minus then s ++ pad else pad ++ s

-- ==== printf

/-- The integer conversions: what `d` and `i`, or `o`, `u`, `x`, `X`,
make of an argument of the conversion's type. -/
def formatSigned (v : Int) (c : PrintfConversion) : Bytes :=
  let value := v.bmod (2 ^ c.type.width)
  formatInteger value.natAbs true (value < 0) baseD c

def formatUnsigned (v : Int) (b : IntegerBase) (c : PrintfConversion) : Bytes :=
  formatInteger (v % 2 ^ c.type.width).toNat false false b c

/-- What the conversion letter `l` puts out. -/
def convert (l : UInt8) (c : PrintfConversion) (args : List Arg) : Bytes × List Arg :=
  let (v, rest) := vaInt args
  if l = ch 'd' ∨ l = ch 'i' then (formatSigned v c, rest)
  else if l = ch 'o' then (formatUnsigned v baseO c, rest)
  else if l = ch 'u' then (formatUnsigned v baseD c, rest)
  else if l = ch 'x' then (formatUnsigned v baseX c, rest)
  else if l = ch 'X' then (formatUnsigned v baseXUpper c, rest)
  else if l = ch 'c' then
    (formatString [UInt8.ofNat (v % 256).toNat] c, rest)
  else if l = ch 's' then
    let s := (vaStr args).1.getD (lit "(null)")
    -- a precision of -1 is the largest `size_t`
    (formatString (if c.precision < 0 then s else s.take c.precision.toNat) c, (vaStr args).2)
  else if l = ch 'p' then
    (formatInteger (v % 2 ^ 32).toNat false false baseX { c with flags := { pound := true } }, rest)
  else if l ∈ [ch 'f', ch 'e', ch 'E', ch 'g', ch 'G', ch 'n'] then
    (lit "<<no %" ++ l :: lit " in kernel>>", args)
  else (lit "<<no %" ++ l :: lit " conversion>>", args)

/-- The loop of `__vprintf`; each round consumes a byte of the format. Where
the format ends inside a conversion, the terminator is taken for the
conversion letter. The source then reads on behind it, and what it puts out
from there on is left out; `vprintf_reads_within` says which formats these
are. -/
def vprintfLoop : Nat → Bytes → List Arg → Bytes
  | 0, _, _ => []
  | _ + 1, [], _ => []
  | n + 1, f :: format, args =>
    if f ≠ ch '%' then f :: vprintfLoop n format args
    else if format.head? = some (ch '%') then
      ch '%' :: vprintfLoop n format.tail args
    else
      let (c, format, args) := parseConversion format args
      match format with
      | [] => (convert 0 c args).1
      | l :: format =>
        let (out, args) := convert l c args
        out ++ vprintfLoop n format args

def vprintf (format : Bytes) (args : List Arg) : Bytes := vprintfLoop format.length format args

/-- The bytes `snprintf` leaves at the start of a buffer of `bufSize`
bytes, the terminator included. -/
def snprintf (bufSize : Nat) (format : Bytes) (args : List Arg) : Bytes :=
  if 0 < bufSize then (vprintf format args).take (bufSize - 1) ++ [0] else []

-- ==== the octal conversion

/-- An octal digit as a character. -/
def octalDigit (d : Nat) : UInt8 := UInt8.ofNat (48 + d)

theorem baseO_digit {d : Nat} (hd : d < 8) : baseO.digits.getD d 0 = octalDigit d := by
  have hall : ∀ d < 8, baseO.digits.getD d 0 = octalDigit d := by decide
  exact hall d hd

/-- The digit loop of base 8 produces the digits of the value. -/
theorem accumulate_baseO (room value digitCnt : Nat) (hroom : value < 8 ^ room) :
    accumulate baseO false room value digitCnt = (Nat.digits 8 value).map octalDigit := by
  induction room generalizing value digitCnt with
  | zero =>
    have h0 : value = 0 := by omega
    subst h0
    rfl
  | succ room ih =>
    by_cases h0 : value = 0
    · subst h0
      rfl
    · have hrest : value / 8 < 8 ^ room := by omega
      have hdigit : baseO.digits.getD (value % 8) 0 = octalDigit (value % 8) :=
        baseO_digit (Nat.mod_lt _ (by decide))
      rw [Nat.digits_def' (by decide) (Nat.pos_of_ne_zero h0), map_cons,
        ← ih (value / 8) (digitCnt + 1) hrest, ← hdigit]
      simp [accumulate, h0, baseO]

/-- The conversion of `%0No`: zero-padded to the width, no precision. -/
def octalConversion (width : Nat) : PrintfConversion := ⟨{ zero := true }, width, -1, .int⟩

/-- A value that fits the width comes out as its digits, padded with
zeros to the width. -/
theorem formatInteger_octal {width value : Nat} (hw : 0 < width)
    (hw64 : width ≤ 64) (h : value < 8 ^ width) :
    formatInteger value false false baseO (octalConversion width) =
      ((Nat.digitsAppend 8 width value).map octalDigit).reverse := by
  have hroom : value < 8 ^ 64 := lt_of_lt_of_le h (Nat.pow_le_pow_right (by decide) hw64)
  have hzero : octalDigit 0 = ch '0' := rfl
  simp only [formatInteger, octalConversion, accumulate_baseO 64 value 0 hroom]
  by_cases h0 : value = 0
  · -- no digit at all: the precision supplies the only one
    subst h0
    have hsplit : width = width - 1 + 1 := by omega
    have hcast : ((width : Int) - 1).toNat = width - 1 := by omega
    simp [Nat.digitsAppend, hzero, hcast]
    rw [← replicate_succ', ← hsplit]
  · have hne : 0 < (Nat.digits 8 value).length := by
      rw [length_pos_iff]
      exact Nat.digits_ne_nil_iff_ne_zero.mpr h0
    have hcast : ((width : Int) - (Nat.digits 8 value).length).toNat =
        width - (Nat.digits 8 value).length := by omega
    have hfull : 1 - (Nat.digits 8 value).length = 0 := by omega
    simp [Nat.digitsAppend, hzero, hcast, hfull]

/-- The formats of the archive code. -/
theorem vprintf_07o (v : Int) : vprintf (lit "%07o") [.int v] =
    formatUnsigned v baseO (octalConversion 7) := by
  change _ ++ [] = _
  rw [append_nil]
  rfl

theorem vprintf_011o (v : Int) : vprintf (lit "%011o") [.int v] =
    formatUnsigned v baseO (octalConversion 11) := by
  change _ ++ [] = _
  rw [append_nil]
  rfl

/-- A value printed into a buffer with room for its width and the
terminator, and nothing more, is neither cut nor spread. -/
theorem snprintf_octal {format : Bytes} {width : Nat} (value : Nat)
    (hformat : vprintf format [.int value] = formatUnsigned value baseO (octalConversion width))
    (hw : 0 < width) (hw64 : width ≤ 64) (hfit : value < 8 ^ width) (hword : value < 2 ^ 32) :
    snprintf (width + 1) format [.int value] =
      ((Nat.digitsAppend 8 width value).map octalDigit).reverse ++ [0] := by
  have hmod : ((value : Int) % 2 ^ 32).toNat = value := by omega
  have hunsigned : formatUnsigned value baseO (octalConversion width) =
      formatInteger value false false baseO (octalConversion width) := by
    have hint : (octalConversion width).type.width = 32 := rfl
    rw [formatUnsigned, hint, hmod]
  have hlen : ((Nat.digitsAppend 8 width value).map octalDigit).reverse.length = width := by
    rw [length_reverse, length_map]
    exact Nat.length_digitsAppend (by decide) width hfit
  rw [snprintf, if_pos (Nat.succ_pos width), hformat, hunsigned, formatInteger_octal hw hw64 hfit,
    Nat.add_sub_cancel, take_of_length_le (le_of_eq hlen)]

end Pintos.Stdio
