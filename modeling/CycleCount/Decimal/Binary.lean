/-! Binary floating-point numbers taken apart into integers. -/

namespace CycleCount.Decimal

structure Binary where
  negative : Bool
  significand : Nat
  exponent : Int
  /-- Whether the next number towards zero is only half as far away as the next
  one outwards. -/
  narrow : Bool
deriving DecidableEq, Repr

def fractionSize : Nat := Nat.pow 2 52

def fieldSize : Nat := Nat.pow 2 11

def binary? (x : Float) : Option Binary :=
  let bits := x.toBits.toNat
  let negative := bits ≥ UInt64.size / 2
  let field : Nat := bits / fractionSize % fieldSize
  let fraction := bits % fractionSize
  if field = fieldSize - 1 then none
  else if field = 0 then
    some { negative, significand := fraction, exponent := -1074, narrow := false }
  else
    some { negative, significand := fractionSize + fraction, exponent := (field : Int) - 1075,
           narrow := fraction = 0 ∧ field > 1 }

structure Quotient where
  num : Nat
  den : Nat
deriving DecidableEq, Repr

def Binary.magnitude (b : Binary) : Quotient :=
  if b.exponent ≥ 0 then ⟨b.significand * Nat.pow 2 b.exponent.toNat, 1⟩
  else ⟨b.significand, Nat.pow 2 (-b.exponent).toNat⟩

def Quotient.round (q : Quotient) : Nat :=
  let whole := q.num / q.den
  let rest := q.num % q.den
  if 2 * rest < q.den then whole
  else if 2 * rest > q.den then whole + 1
  else if whole % 2 = 0 then whole else whole + 1

end CycleCount.Decimal
