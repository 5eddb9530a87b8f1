import CycleCount.Decimal.Shortest
import CycleCount.Decimal.Word
import CycleCount.Text.Basic

/-! The lexical elements of JSON text. Text is read as bytes; what stands between
the quotes of a string is kept as written. -/

namespace CycleCount.Json

structure Literal where
  negative : Bool
  magnitude : Decimal.Scientific
  whole : Bool
deriving DecidableEq, Repr

inductive Token where
  | mark (c : Char)
  | word (text : List Char)
  | number (literal : Literal)
  | string (raw : Bytes)
deriving DecidableEq, Repr

def charOf (b : UInt8) : Char := Char.ofNat b.toNat

def isBlankByte (b : UInt8) : Bool := b == 32 || b == 10 || b == 13 || b == 9

def isMark (c : Char) : Bool :=
  c == '[' || c == ']' || c == '\x7b' || c == '\x7d' || c == ',' || c == ':'

def isNumberChar (c : Char) : Bool :=
  c.isDigit || c == '-' || c == '+' || c == '.' || c == 'e' || c == 'E'

def digitRun (cs : List Char) : List Char × List Char := cs.span Char.isDigit

def exponent? : List Char → Option (Int × Bool)
  | [] => some (0, false)
  | c :: cs =>
    if c = 'e' ∨ c = 'E' then
      match cs with
      | '-' :: ds => (Decimal.natural? ds).map fun n => (-(n : Int), true)
      | ds => (Decimal.unsigned? ds).map fun n => ((n : Int), true)
    else none

def literal? (cs : List Char) : Option Literal := do
  let negative := cs.head? == some '-'
  let (whole, rest) := digitRun (if negative then cs.drop 1 else cs)
  if whole.isEmpty || (whole.length > 1 && whole.head? == some '0') then none
  let (fraction, rest) ← match rest with
    | '.' :: rest =>
      let (fraction, rest) := digitRun rest
      if fraction.isEmpty then none else some (fraction, rest)
    | rest => some ([], rest)
  let (exponent, scaled) ← exponent? rest
  let coefficient ← Decimal.natural? (whole ++ fraction)
  some { negative, magnitude := ⟨coefficient, exponent - fraction.length⟩,
         whole := fraction.isEmpty && !scaled }

def isHex (c : Char) : Bool := c.isDigit || ('a' ≤ c && c ≤ 'f') || ('A' ≤ c && c ≤ 'F')

def stringBody? : Bytes → Option (Bytes × Bytes)
  | [] => none
  | 34 :: rest => some ([], rest)
  | 92 :: 117 :: a :: b :: c :: d :: rest =>
    if [a, b, c, d].all (isHex ∘ charOf) then
      (stringBody? rest).map fun (raw, rest) => (92 :: 117 :: a :: b :: c :: d :: raw, rest)
    else none
  | 92 :: e :: rest =>
    if ['"', '\\', '/', 'b', 'f', 'n', 'r', 't'].contains (charOf e) then
      (stringBody? rest).map fun (raw, rest) => (92 :: e :: raw, rest)
    else none
  | b :: rest =>
    if b < 32 ∨ b = 92 then none else (stringBody? rest).map fun (raw, rest) => (b :: raw, rest)

def tokensWithin? : (fuel : Nat) → Bytes → Option (List Token)
  | _, [] => some []
  | 0, _ => none
  | fuel + 1, b :: rest => do
    let c := charOf b
    if isBlankByte b then tokensWithin? fuel rest
    else if isMark c then return .mark c :: (← tokensWithin? fuel rest)
    else if c = '"' then
      let (raw, rest) ← stringBody? rest
      return .string raw :: (← tokensWithin? fuel rest)
    else if c.isAlpha then
      let (word, rest) := (b :: rest).span fun b => (charOf b).isAlpha
      return .word (word.map charOf) :: (← tokensWithin? fuel rest)
    else
      let (number, rest) := (b :: rest).span fun b => isNumberChar (charOf b)
      let literal ← literal? (number.map charOf)
      return .number literal :: (← tokensWithin? fuel rest)

def tokens? (text : Bytes) : Option (List Token) := tokensWithin? text.length text

end CycleCount.Json
