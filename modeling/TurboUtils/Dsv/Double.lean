import TurboUtils.Dsv.Compile
import TurboUtils.Dsv.Index

/-! A `double` without rounding: an exact number, an infinity, or none at all. A zero has no sign. -/
namespace Dsv

inductive Double where
  | finite (value : ℚ)
  | infinite (negative : Bool)
  | nan
  deriving DecidableEq

namespace Double

def neg : Double → Double
  | finite a => finite (-a)
  | infinite s => infinite (!s)
  | nan => nan

def add : Double → Double → Double
  | finite a, finite b => finite (a + b)
  | finite _, infinite s => infinite s
  | infinite s, finite _ => infinite s
  | infinite s, infinite t => if s = t then infinite s else nan
  | _, _ => nan

def mul : Double → Double → Double
  | finite a, finite b => finite (a * b)
  | finite a, infinite s => if a = 0 then nan else infinite (s != decide (a < 0))
  | infinite s, finite b => if b = 0 then nan else infinite (s != decide (b < 0))
  | infinite s, infinite t => infinite (s != t)
  | _, _ => nan

def div : Double → Double → Double
  | finite a, finite b =>
      if b ≠ 0 then finite (a / b) else if a = 0 then nan else infinite (decide (a < 0))
  | finite _, infinite _ => finite 0
  | infinite s, finite b => infinite (s != decide (b < 0))
  | _, _ => nan

def order : Double → Double → Option Ordering
  | nan, _ => none
  | _, nan => none
  | finite a, finite b => some (Ord.compare a b)
  | infinite s, infinite t => some (if s = t then .eq else if s then .lt else .gt)
  | infinite s, finite _ => some (if s then .lt else .gt)
  | finite _, infinite s => some (if s then .gt else .lt)

def compare (a : Double) (op : Op) (b : Double) : Bool :=
  match order a b with
  | none => op = .ne
  | some ordering => op.holds ordering

end Double

def doubles : Numbers Double where
  zero := .finite 0
  add := .add
  sub a b := a.add b.neg
  mul := .mul
  div := .div
  neg := .neg
  compare op a b := a.compare op b
  nonzero a := a ≠ .finite 0
  atof text := .finite (fastAtof text)

/-! ## strtod -/

def digitOf (base : ℕ) (c : Char) : Option ℕ :=
  let value := if isDigit c then some (c.toNat - '0'.toNat)
    else if 'a' ≤ toLower c ∧ toLower c ≤ 'f' then some ((toLower c).toNat - 'a'.toNat + 10)
    else none
  value.filter (· < base)

def digitsOf (base value : ℕ) : List Char → ℕ × ℕ × List Char
  | [] => (value, 0, [])
  | c :: rest =>
      match digitOf base c with
      | none => (value, 0, c :: rest)
      | some d =>
          let (value, digits, rest) := digitsOf base (value * base + d) rest
          (value, digits + 1, rest)

/-- The digits of a number, with those of its fraction, and what follows if there are any. -/
def mantissaOf (base : ℕ) (text : List Char) : Option (ℕ × ℕ × List Char) :=
  let (whole, digits, rest) := digitsOf base 0 text
  let (value, fractionDigits, rest) := match rest with
    | '.' :: fraction =>
        let (value, fractionDigits, rest) := digitsOf base whole fraction
        if digits + fractionDigits = 0 then (whole, 0, '.' :: fraction)
        else (value, fractionDigits, rest)
    | rest => (whole, 0, rest)
  if digits + fractionDigits = 0 then none else some (value, fractionDigits, rest)

def exponentOf (letter : Char) : List Char → ℤ
  | c :: rest =>
      if toLower c = letter then
        let (negative, rest) := readSign rest
        let (value, digits, _) := digitsOf 10 0 rest
        if digits = 0 then 0 else if negative then -value else value
      else 0
  | [] => 0

/-- A number in hexadecimal digits behind `0x`, if there is one. -/
def hexOf : List Char → Option ℚ
  | '0' :: x :: rest =>
      if toLower x = 'x' then
        (mantissaOf 16 rest).map fun (value, fractionDigits, rest) =>
          value * 2 ^ (exponentOf 'p' rest - 4 * fractionDigits)
      else none
  | _ => none

def decimalOf (text : List Char) : Option ℚ :=
  (mantissaOf 10 text).map fun (value, fractionDigits, rest) =>
    value * 10 ^ (exponentOf 'e' rest - fractionDigits)

/-- `strtod` in the C locale, of all that is before the byte that ends the text. -/
def strtod (text : List Char) : Double :=
  let (negative, text) := readSign (text.dropWhile isSpace)
  let word := text.map toLower
  if "inf".toList <+: word then .infinite negative
  else if "nan".toList <+: word then .nan
  else
    match (hexOf text).or (decimalOf text) with
    | none => .finite 0
    | some value => .finite (if negative then -value else value)

example : strtod "1e3".toList = .finite 1000 ∧ strtod " -0x.8p2z".toList = .finite (-2) ∧
    strtod "+Infinite".toList = .infinite false ∧ strtod "-.e1".toList = .finite 0 ∧
      strtod "12.50".toList = .finite (25 / 2) := by
  decide +kernel

/-! ## Plain decimals -/

section Plain

variable {negative : Bool} {text rest : List Char} {mantissa digits : ℕ} {value : ℚ}

/-- What `dsv_index_parse_double` makes of the text behind the digits of the whole part. -/
def parseFraction (negative : Bool) (mantissa digits : ℕ) (rest : List Char) : Option ℚ :=
  match rest with
  | '.' :: rest =>
      (readDigits (2 ^ 64 - 1) mantissa rest).bind fun (mantissa, fractionDigits, rest) =>
        if digits + fractionDigits = 0 ∨ rest ≠ [] then none
        else some (decimal negative mantissa fractionDigits)
  | rest => if digits = 0 ∨ rest ≠ [] then none else some (decimal negative mantissa 0)

end Plain

end Dsv
