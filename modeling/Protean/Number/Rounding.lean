import Protean.Number.Binary

/-!
# Number — Rounding

Rounding to whole numbers, the remainder of a division, and the lesser and greater of two numbers.
The sign of a zero is kept: a number between -1 and 0 rounds up to the negative zero.
-/

namespace Protean.Number

/-- Replaces a finite number by a whole one: `away negative left unit` says whether to go to the
next whole number away from zero, when `left / unit` is the fraction that is dropped. -/
def toWhole (away : Bool → Nat → Nat → Bool) (x : Float) : Float :=
  match Binary.ofFloat? x with
  | none => x
  | some b =>
    let (whole, left) := b.whole
    if left = 0 then x
    else
      let unit := twoTo (-b.exponent).toNat
      Binary.toFloat ⟨b.negative, if away b.negative left unit then whole + 1 else whole, 0⟩

/-- The greatest whole number that is not above `x`. -/
def floor : Float → Float := toWhole fun negative _ _ => negative

/-- The least whole number that is not below `x`. -/
def ceil : Float → Float := toWhole fun negative _ _ => !negative

/-- The nearest whole number; a half goes away from zero. -/
def round : Float → Float := toWhole fun _ left unit => unit ≤ 2 * left

/-- The magnitude of `x`. -/
def abs (x : Float) : Float :=
  match Binary.ofFloat? x with
  | some b => Binary.toFloat { b with negative := false }
  | none => if x < 0 then -x else x

/-- The exact remainder of `x` by `y`, with the sign of `x`; there is none of an infinity or by
zero. -/
def remainder (x y : Float) : Float :=
  let none := (0.0 : Float) / 0.0
  match Binary.ofFloat? x, Binary.ofFloat? y with
  | some a, some b =>
    if b.mantissa = 0 then none
    else
      let exponent := min a.exponent b.exponent
      let m := a.mantissa * twoTo (a.exponent - exponent).toNat
      let n := b.mantissa * twoTo (b.exponent - exponent).toNat
      Binary.toFloat ⟨a.negative, m % n, exponent⟩
  | some _, .none => if y.isNaN then none else x
  | .none, _ => none

/-- The lesser of two numbers; one that is no number yields to the other, and of equal ones the
second is taken. -/
def lesser (x y : Float) : Float := if y.isNaN then x else if x < y then x else y

/-- The greater of two numbers; one that is no number yields to the other, and of equal ones the
second is taken. -/
def greater (x y : Float) : Float := if y.isNaN then x else if y < x then x else y

end Protean.Number
