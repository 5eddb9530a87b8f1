/-! Unsigned decimal integers of 64 bits. A number is written with ASCII digits
and may carry one leading plus; leading zeros are allowed. -/

namespace CycleCount.Decimal

def digit? (c : Char) : Option Nat :=
  if '0' ≤ c ∧ c ≤ '9' then some (c.toNat - '0'.toNat) else none

def digitsFrom? (acc : Nat) : List Char → Option Nat
  | [] => some acc
  | c :: cs => do digitsFrom? (10 * acc + (← digit? c)) cs

def natural? : List Char → Option Nat
  | [] => none
  | c :: cs => digitsFrom? 0 (c :: cs)

def unsigned? : List Char → Option Nat
  | '+' :: cs => natural? cs
  | cs => natural? cs

def word? (cs : List Char) : Option UInt64 := do
  let n ← unsigned? cs
  if h : n < UInt64.size then some (UInt64.ofNatLT n h) else none

end CycleCount.Decimal
