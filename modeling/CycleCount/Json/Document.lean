import CycleCount.Json.Basic
import CycleCount.Json.Token

/-! JSON documents in two steps. A `Document` is well formed but its strings and
numbers are kept as written, which is all that is asked of a part nobody reads.
Reading it as a value decodes them and limits the nesting. -/

namespace CycleCount.Json

inductive Document where
  | null
  | bool (value : Bool)
  | number (literal : Literal)
  | string (raw : Bytes)
  | array (entries : List Document)
  | object (members : List (Bytes × Document))
deriving Repr, Inhabited

namespace Document

mutual

def parse? : (fuel : Nat) → List Token → Option (Document × List Token)
  | 0, _ => none
  | fuel + 1, token :: rest =>
    match token with
    | .word text =>
      if text = "null".toList then some (.null, rest)
      else if text = "true".toList then some (.bool true, rest)
      else if text = "false".toList then some (.bool false, rest)
      else none
    | .number literal => some (.number literal, rest)
    | .string raw => some (.string raw, rest)
    | .mark '[' =>
      match rest with
      | .mark ']' :: rest => some (.array [], rest)
      | rest => (entries? fuel rest).map fun (entries, rest) => (.array entries, rest)
    | .mark '\x7b' =>
      match rest with
      | .mark '\x7d' :: rest => some (.object [], rest)
      | rest => (members? fuel rest).map fun (members, rest) => (.object members, rest)
    | .mark _ => none
  | _ + 1, [] => none

def entries? : (fuel : Nat) → List Token → Option (List Document × List Token)
  | 0, _ => none
  | fuel + 1, tokens =>
    match parse? fuel tokens with
    | some (entry, .mark ',' :: rest) =>
      (entries? fuel rest).map fun (entries, rest) => (entry :: entries, rest)
    | some (entry, .mark ']' :: rest) => some ([entry], rest)
    | _ => none

def members? : (fuel : Nat) → List Token → Option (List (Bytes × Document) × List Token)
  | 0, _ => none
  | fuel + 1, .string name :: .mark ':' :: tokens =>
    match parse? fuel tokens with
    | some (value, .mark ',' :: rest) =>
      (members? fuel rest).map fun (members, rest) => ((name, value) :: members, rest)
    | some (value, .mark '\x7d' :: rest) => some ([(name, value)], rest)
    | _ => none
  | _ + 1, _ => none

end

def ofBytes? (text : Bytes) : Option Document := do
  let tokens ← tokens? text
  match ← parse? (2 * tokens.length + 1) tokens with
  | (document, []) => some document
  | _ => none

end Document

def hexValue (b : UInt8) : Nat :=
  let c := charOf b
  if c.isDigit then c.toNat - 48 else if c.isUpper then c.toNat - 55 else c.toNat - 87

def unitOf (a b c d : UInt8) : Nat := [a, b, c, d].foldl (fun n b => 16 * n + hexValue b) 0

def encoded (n : Nat) : Bytes := String.utf8EncodeChar (Char.ofNat n)

def unescaped (b : UInt8) : UInt8 :=
  match charOf b with
  | 'b' => 8
  | 'f' => 12
  | 'n' => 10
  | 'r' => 13
  | 't' => 9
  | _ => b

/-- The bytes of a string with its escapes resolved. A character beyond the basic
plane is written as two escapes, and neither of the two may stand alone. -/
def resolved? : Bytes → Option Bytes
  | 92 :: 117 :: a :: b :: c :: d :: 92 :: 117 :: e :: f :: g :: h :: rest =>
    let high := unitOf a b c d
    let low := unitOf e f g h
    if 0xD800 ≤ high ∧ high < 0xDC00 then
      if 0xDC00 ≤ low ∧ low < 0xE000 then
        (resolved? rest).map (encoded (0x10000 + (high - 0xD800) * 0x400 + (low - 0xDC00)) ++ ·)
      else none
    else if 0xDC00 ≤ high ∧ high < 0xE000 then none
    else (resolved? (92 :: 117 :: e :: f :: g :: h :: rest)).map (encoded high ++ ·)
  | 92 :: 117 :: a :: b :: c :: d :: rest =>
    let n := unitOf a b c d
    if 0xD800 ≤ n ∧ n < 0xE000 then none else (resolved? rest).map (encoded n ++ ·)
  | 92 :: e :: rest => (resolved? rest).map (unescaped e :: ·)
  | b :: rest => (resolved? rest).map (b :: ·)
  | [] => some []

def text? (raw : Bytes) : Option String := do Text.decode? (← resolved? raw)

/-- Whole numbers of 64 bits stay exact; others become the nearest floating-point
number, if there is one. -/
def number? (l : Literal) : Option Json :=
  let n := l.magnitude.coefficient
  if l.whole && !l.negative && n < UInt64.size then some (.integer n)
  else if l.whole && l.negative && 0 < n && n ≤ UInt64.size / 2 then some (.integer (-(n : Int)))
  else l.magnitude.toFloat?.map fun x => .real (if l.negative then -x else x)

namespace Document

mutual

def read? (depth : Nat) : Document → Option Json
  | .null => some .null
  | .bool b => some (.bool b)
  | .number literal => number? literal
  | .string raw => (text? raw).map .string
  | .array entries =>
    if depth ≤ 1 then none else (readEntries? (depth - 1) entries).map .array
  | .object members =>
    if depth ≤ 1 then none else (readMembers? (depth - 1) members).map .object

def readEntries? (depth : Nat) : List Document → Option (List Json)
  | [] => some []
  | entry :: entries => do return (← read? depth entry) :: (← readEntries? depth entries)

def readMembers? (depth : Nat) : List (Bytes × Document) → Option (List (String × Json))
  | [] => some []
  | (name, value) :: members => do
    return (← text? name, ← read? depth value) :: (← readMembers? depth members)

end

end Document
end CycleCount.Json
