import CycleCount.Decimal.Binary

/-! The shortest decimal that reads back to a given binary number, and of those
the one nearest to it; and the binary number that a decimal is read as. -/

namespace CycleCount.Decimal

structure Scientific where
  coefficient : Nat
  exponent : Int
deriving DecidableEq, Repr

/-- A positive number with the ends of the range that reads back to it, all over
one denominator. -/
structure Target where
  low : Nat
  value : Nat
  high : Nat
  den : Nat
  closed : Bool

def Binary.target (b : Binary) : Target :=
  let scaled := b.exponent - 2
  let factor := Nat.pow 2 scaled.toNat
  { low := (4 * b.significand - if b.narrow then 1 else 2) * factor
    value := 4 * b.significand * factor
    high := (4 * b.significand + 2) * factor
    den := Nat.pow 2 (-scaled).toNat
    closed := b.significand % 2 = 0 }

def Target.inUnits (t : Target) (exponent : Int) : Target :=
  let up := Nat.pow 10 (-exponent).toNat
  { t with low := t.low * up, value := t.value * up, high := t.high * up,
           den := t.den * Nat.pow 10 exponent.toNat }

def Target.admits (t : Target) (n : Nat) : Bool :=
  let x := n * t.den
  if t.closed then t.low ≤ x && x ≤ t.high else t.low < x && x < t.high

/-- The integer nearest to the target among those that read back; of two equally
near ones the even one. -/
def Target.nearest? (t : Target) : Option Nat :=
  let below := t.value / t.den
  let rest := t.value % t.den
  match t.admits below, t.admits (below + 1) with
  | false, false => none
  | true, false => some below
  | false, true => some (below + 1)
  | true, true =>
    if 2 * rest < t.den then some below
    else if 2 * rest > t.den then some (below + 1)
    else if below % 2 = 0 then some below else some (below + 1)

def digitCount (n : Nat) : Nat := (Nat.toDigits 10 n).length

def leadingZeros (den : Nat) : (fuel : Nat) → (num k : Nat) → Nat
  | 0, _, k => k
  | fuel + 1, num, k => if den ≤ num then k else leadingZeros den fuel (10 * num) (k + 1)

/-- The exponent `e` with `10 ^ (e - 1) ≤ x < 10 ^ e` for the target's value `x`. -/
def Target.magnitude (t : Target) : Int :=
  if t.den ≤ t.value then digitCount (t.value / t.den)
  else 1 - (leadingZeros t.den 330 t.value 0 : Int)

def stripZeros : (fuel : Nat) → Scientific → Scientific
  | 0, d => d
  | fuel + 1, d =>
    if d.coefficient % 10 = 0 then stripZeros fuel ⟨d.coefficient / 10, d.exponent + 1⟩ else d

/-- Seventeen digits always suffice for a binary number of 53 bits. -/
def Binary.shortest (b : Binary) : Scientific :=
  if b.significand = 0 then ⟨0, 0⟩
  else
    let t := b.target
    let top := t.magnitude
    let found := (List.range 17).findSome? fun (digits : Nat) =>
      let exponent := top - (digits + 1)
      (t.inUnits exponent).nearest?.map fun n => (⟨n, exponent⟩ : Scientific)
    stripZeros 17 (found.getD ⟨0, 0⟩)

/-- The nearest floating-point number, `none` if that is infinite. Far outside the
range of floating point the result is known from the magnitude alone. -/
def Scientific.toFloat? (d : Scientific) : Option Float :=
  let top := digitCount d.coefficient + d.exponent
  if d.coefficient = 0 then some 0
  else if top > 310 then none
  else if top < -330 then some 0
  else
    let x := Float.ofScientific d.coefficient (d.exponent < 0) d.exponent.natAbs
    if x.isInf then none else some x

end CycleCount.Decimal
