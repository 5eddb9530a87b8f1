/-! The numbers that ranks, midpoints and windows are computed in. The same
definitions run over binary floating point and are studied over exact fields. -/

namespace CycleCount

class Scalar (K : Type) extends Add K, Sub K, Mul K, Div K where
  ofNat : Nat → K
  le : K → K → Bool
  floor : K → Nat
  ceil : K → Nat

instance : Scalar Float where
  ofNat n := Float.ofNat n
  le x y := decide (x ≤ y)
  floor x := x.toUInt64.toNat
  ceil x := if x.toUInt64.toFloat < x then x.toUInt64.toNat + 1 else x.toUInt64.toNat

class Sample (α K : Type) where
  value : α → K

/-- The number nearest to a signed integer; rounding does not depend on the sign. -/
def signedFloat (n : Int64) : Float :=
  let magnitude := n.toInt.natAbs.toUInt64.toFloat
  if n.toInt < 0 then -magnitude else magnitude

instance : Sample UInt64 Float := ⟨UInt64.toFloat⟩
instance : Sample UInt32 Float := ⟨UInt32.toFloat⟩
instance : Sample Int64 Float := ⟨signedFloat⟩
instance : Sample Float Float := ⟨id⟩

def ascending {α : Type} [LE α] [DecidableLE α] (samples : List α) : List α :=
  samples.mergeSort fun a b => decide (a ≤ b)

end CycleCount
