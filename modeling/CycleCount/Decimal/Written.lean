import CycleCount.Decimal.Shortest

/-! How floating-point numbers are written: in full precision, positional or
with an exponent, and rounded to a fixed number of places. -/

namespace CycleCount.Decimal

structure Positional where
  least : Int
  bound : Int

/-- Full-precision text has a point or an exponent in it, and the exponent has a
sign. -/
def positional : Positional := ⟨-5, 16⟩

def zeros (n : Nat) : List Char := List.replicate n '0'

def pointed (digits : List Char) (whole : Int) : List Char :=
  if whole ≤ 0 then '0' :: '.' :: zeros (-whole).toNat ++ digits
  else if digits.length ≤ whole.toNat then digits ++ zeros (whole.toNat - digits.length) ++ ['.', '0']
  else digits.take whole.toNat ++ '.' :: digits.drop whole.toNat

def Scientific.text (d : Scientific) : List Char :=
  let digits := Nat.toDigits 10 d.coefficient
  let whole := digits.length + d.exponent
  if d.coefficient = 0 then ['0', '.', '0']
  else if positional.least < whole ∧ whole ≤ positional.bound then pointed digits whole
  else
    let power := whole - 1
    let mantissa := match digits with
      | [first] => [first]
      | first :: rest => first :: '.' :: rest
      | [] => []
    mantissa ++ 'e' :: (if power < 0 then '-' else '+') :: Nat.toDigits 10 power.natAbs

def signed (negative : Bool) (text : List Char) : List Char :=
  if negative then '-' :: text else text

def fullText? (x : Float) : Option String :=
  (binary? x).map fun b => String.ofList (signed b.negative b.shortest.text)

def fixedText (places : Nat) (x : Float) : String :=
  match binary? x with
  | some b =>
    let m := b.magnitude
    let digits := Nat.toDigits 10 (Quotient.round ⟨m.num * Nat.pow 10 places, m.den⟩)
    let padded := zeros (places + 1 - digits.length) ++ digits
    let whole := padded.take (padded.length - places)
    let rest := padded.drop (padded.length - places)
    String.ofList (signed b.negative (if places = 0 then whole else whole ++ '.' :: rest))
  | none => if x.isNaN then "NaN" else if x < 0 then "-inf" else "inf"

end CycleCount.Decimal
