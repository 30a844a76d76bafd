import Protean.Number.Binary

/-!
# Number — Shortest

The decimal with the fewest digits that reads back as a given double.  The reals that round to the
double `m · 2 ^ q` form an interval around it, and its ends belong to it exactly when `m` is even.
For one digit, two digits and so on the two neighbours of the double on that decimal grid are tried;
the first grid with a neighbour inside the interval wins.  Of two neighbours the nearer one is taken,
and the upper one when they are equally near.
-/

namespace Protean.Number

/-- The decimal number `digits · 10 ^ exponent`. -/
structure Decimal where
  digits : Nat
  exponent : Int
deriving DecidableEq

namespace Decimal

/-- The decimal without zeros at its end; `fuel` bounds their number. -/
def trimZeros : Nat → Decimal → Decimal
  | 0, d => d
  | fuel + 1, d =>
    if d.digits ≠ 0 ∧ d.digits % 10 = 0 then trimZeros fuel ⟨d.digits / 10, d.exponent + 1⟩ else d

/-- The number of digits of `n`, at least one; `fuel` bounds it. -/
def digitCount : Nat → Nat → Nat
  | 0, _ => 1
  | fuel + 1, n => if n < 10 then 1 else digitCount fuel (n / 10) + 1

/-- The least `k` with `den ≤ num · 10 ^ k`, counted from `k`; `fuel` bounds the search. -/
def leadingZeros (den : Nat) : Nat → Nat → Nat → Nat
  | 0, _, k => k
  | fuel + 1, num, k => if den ≤ num then k else leadingZeros den fuel (num * 10) (k + 1)

/-- The `e` with `10 ^ (e - 1) ≤ num / den < 10 ^ e`. -/
def magnitude (num den : Nat) : Int :=
  if den ≤ num then (digitCount 400 (num / den) : Int)
  else 1 - (leadingZeros den 400 num 0 : Int)

/-- The reals that round to a double, as multiples `low … high` of a common unit `num / den` around
the double itself, which is `centre` of them. -/
structure Interval where
  low : Nat
  centre : Nat
  high : Nat
  closed : Bool
  num : Nat
  den : Nat

/-- The interval of `m · 2 ^ q`, in quarters of the last place.  Below a power of two the doubles lie
twice as dense, so there the interval reaches only half as far. -/
def Interval.around (m : Nat) (q : Int) : Interval where
  low := if m = twoTo 52 ∧ q ≠ -1074 then 4 * m - 1 else 4 * m - 2
  centre := 4 * m
  high := 4 * m + 2
  closed := m % 2 == 0
  num := if 2 ≤ q then twoTo (q - 2).toNat else 1
  den := if 2 ≤ q then 1 else twoTo (2 - q).toNat

/-- Whether `d · 10 ^ k` lies in the interval. -/
def Interval.holds (i : Interval) (d : Nat) (k : Int) : Bool :=
  let grid := d * tenTo k.toNat * i.den
  let unit := i.num * tenTo (-k).toNat
  if i.closed then i.low * unit ≤ grid && grid ≤ i.high * unit
  else i.low * unit < grid && grid < i.high * unit

/-- The neighbour of the centre on the grid of `10 ^ k` that lies in the interval, the nearer one if
both do. -/
def Interval.pick (i : Interval) (k : Int) : Option Nat :=
  let value := i.centre * i.num * tenTo (-k).toNat
  let unit := i.den * tenTo k.toNat
  let below := value / unit
  let left := value % unit
  match i.holds below k, i.holds (below + 1) k with
  | true, true => some (if unit ≤ 2 * left then below + 1 else below)
  | true, false => some below
  | false, true => some (below + 1)
  | false, false => none

/-- Tries the grids of `10 ^ k`, `10 ^ (k - 1)` and so on; `fuel` bounds the number of digits. -/
def Interval.search (i : Interval) : Nat → Int → Decimal
  | 0, k => ⟨i.centre * i.num * tenTo (-k).toNat / (i.den * tenTo k.toNat), k⟩
  | fuel + 1, k =>
    match i.pick k with
    | some d => ⟨d, k⟩
    | none => i.search fuel (k - 1)

/-- The decimal with the fewest digits that rounds to `m · 2 ^ q`. -/
def shortest (m : Nat) (q : Int) : Decimal :=
  let i := Interval.around m q
  trimZeros 400 (i.search 18 (magnitude (i.centre * i.num) i.den - 1))

/-- The decimal written out with a point where one is needed, never with an exponent. -/
def positional (d : Decimal) : String :=
  let text := toString d.digits
  if 0 ≤ d.exponent then text ++ "".pushn '0' d.exponent.toNat
  else
    let places := (-d.exponent).toNat
    let padded := "".pushn '0' (places + 1 - text.length) ++ text
    let cs := padded.toList
    String.ofList (cs.take (cs.length - places) ++ '.' :: cs.drop (cs.length - places))

end Decimal

end Protean.Number
