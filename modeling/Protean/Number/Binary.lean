/-!
# Number — Binary

A finite double is a sign and a natural number times a power of two.  `ofFloat?` takes a double
apart into exactly these three, and `toFloat` puts them together; what stands between is exact
arithmetic on naturals.
-/

namespace Protean.Number

/-- The powers of two. -/
def twoTo (n : Nat) : Nat := Nat.pow 2 n

/-- The powers of ten. -/
def tenTo (n : Nat) : Nat := Nat.pow 10 n

/-- The number `± mantissa · 2 ^ exponent`. -/
structure Binary where
  negative : Bool
  mantissa : Nat
  exponent : Int
deriving DecidableEq

namespace Binary

/-- The parts of a finite double: at most 53 bits of mantissa, and an exponent of at least -1074.
Infinities and NaN have none. -/
def ofFloat? (x : Float) : Option Binary :=
  let bits := x.toBits.toNat
  let negative := twoTo 63 ≤ bits
  let biased : Nat := bits / twoTo 52 % twoTo 11
  let fraction : Nat := bits % twoTo 52
  if biased = twoTo 11 - 1 then none
  else if biased = 0 then some ⟨negative, fraction, -1074⟩
  else some ⟨negative, fraction + twoTo 52, (biased : Int) - 1075⟩

/-- The double that is the given number, for a number that some double is. -/
def toFloat (b : Binary) : Float :=
  let sign := if b.negative then twoTo 63 else 0
  if b.mantissa = 0 then Float.ofBits (UInt64.ofNat sign)
  else
    let exponent := max (b.exponent + (b.mantissa.log2 : Int) - 52) (-1074)
    let mantissa :=
      if exponent ≤ b.exponent then b.mantissa * twoTo (b.exponent - exponent).toNat
      else b.mantissa / twoTo (exponent - b.exponent).toNat
    let magnitude :=
      if mantissa < twoTo 52 then mantissa
      else (exponent + 1075).toNat * twoTo 52 + (mantissa - twoTo 52)
    Float.ofBits (UInt64.ofNat (sign + magnitude))

/-- The whole part, and what is left of the mantissa beyond it. -/
def whole (b : Binary) : Nat × Nat :=
  if 0 ≤ b.exponent then (b.mantissa * twoTo b.exponent.toNat, 0)
  else (b.mantissa / twoTo (-b.exponent).toNat, b.mantissa % twoTo (-b.exponent).toNat)

end Binary

/-- A finite number without a fraction. -/
def isWhole (x : Float) : Bool :=
  match Binary.ofFloat? x with
  | some b => b.whole.2 == 0
  | none => false

end Protean.Number
