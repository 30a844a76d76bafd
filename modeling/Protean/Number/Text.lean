import Protean.Number.Rounding
import Protean.Number.Shortest

/-!
# Number — Text

How numbers are written and read.  A whole number below 10^15 is written as an integer, without a
sign when it is zero; any other finite number is the shortest decimal that reads back, written out
in full.  Reading rounds to the nearest double.
-/

namespace Protean.Number

/-- Whole numbers from this magnitude on are written like fractions. -/
def integerLimit : Nat := tenTo 15

/-- The text of a number. -/
def render (x : Float) : String :=
  match Binary.ofFloat? x with
  | some b =>
    let (whole, left) := b.whole
    let sign := if b.negative then "-" else ""
    if left = 0 ∧ whole < integerLimit then
      if whole = 0 then "0" else sign ++ toString whole
    else sign ++ (Decimal.shortest b.mantissa b.exponent).positional
  | none => if x.isNaN then "NaN" else if x < 0 then "-inf" else "inf"

/-- The double nearest to `digits · 10 ^ exponent`.  Beyond the reach of doubles the answer is
infinity or zero, whatever the exponent. -/
def ofDecimal (digits : Nat) (exponent : Int) : Float :=
  if digits = 0 then 0
  else
    let reach := (Decimal.digitCount digits.log2 digits : Int) + exponent
    if 310 < reach then Float.ofBits 0x7FF0000000000000
    else if reach < -330 then 0
    else Float.ofScientific digits (exponent < 0) exponent.natAbs

def digitValue (c : Char) : Nat := c.toNat - '0'.toNat

/-- The number that a run of digits stands for. -/
def natOfDigits (cs : List Char) : Nat := cs.foldl (fun n c => 10 * n + digitValue c) 0

/-- A run of digits with an optional sign, as it follows the `e` of a literal. -/
def readExponent? (cs : List Char) : Option Int :=
  let (negative, digits) := match cs with
    | '-' :: r => (true, r)
    | '+' :: r => (false, r)
    | r => (false, r)
  if digits ≠ [] ∧ digits.all Char.isDigit then
    some (if negative then -(natOfDigits digits : Int) else natOfDigits digits)
  else none

/-- Reads digits, an optional fraction and an optional exponent. -/
def readUnsigned? (cs : List Char) : Option Float :=
  let (whole, r) := cs.span Char.isDigit
  let (fraction, r) := match r with
    | '.' :: r => r.span Char.isDigit
    | r => ([], r)
  let exponent := match r with
    | [] => some 0
    | c :: r => if c = 'e' ∨ c = 'E' then readExponent? r else none
  if whole = [] then none
  else exponent.map fun e => ofDecimal (natOfDigits (whole ++ fraction)) (e - fraction.length)

/-- Reads a number literal: a minus sign or none, digits, a fraction and an exponent. -/
def read? (s : String) : Option Float :=
  match s.toList with
  | '-' :: cs => (readUnsigned? cs).map (- ·)
  | cs => readUnsigned? cs

/-- One more than the greatest index. -/
def indexLimit : Nat := twoTo 64

/-- Reads an index: digits alone, below the limit. -/
def readIndex? (s : String) : Option Nat :=
  let cs := s.toList
  if cs ≠ [] ∧ cs.all Char.isDigit ∧ natOfDigits cs < indexLimit then some (natOfDigits cs) else none

/-- The index a number stands for: its whole part, kept between zero and the greatest index. -/
def toIndex (x : Float) : Nat := x.toUInt64.toNat

/-- The number nearest to an index. -/
def ofIndex (n : Nat) : Float := (UInt64.ofNat n).toFloat

end Protean.Number
