import CycleCount.Decimal.Shortest
import CycleCount.Decimal.Word
import CycleCount.Instant.Basic
import CycleCount.Toml.Basic

/-! The words of TOML: keys, strings, numbers and points in time. Every reader
takes the text from where it stands and returns what is left behind the word. -/

namespace CycleCount.Toml

abbrev Reader (α : Type) := List Char → Option (α × List Char)

def isSpace (c : Char) : Bool := c == ' ' || c == '\t'

def skipSpaces (cs : List Char) : List Char := cs.dropWhile isSpace

def isPrintable (c : Char) : Bool :=
  c == '\t' || (0x20 ≤ c.toNat && c.toNat ≤ 0x7E) || 0x80 ≤ c.toNat

def newline? : List Char → Option (List Char)
  | '\n' :: cs => some cs
  | '\r' :: '\n' :: cs => some cs
  | _ => none

def hexValue? (c : Char) : Option Nat :=
  if c.isDigit then some (c.toNat - 48)
  else if 'a' ≤ c ∧ c ≤ 'f' then some (c.toNat - 87)
  else if 'A' ≤ c ∧ c ≤ 'F' then some (c.toNat - 55)
  else none

def scalar? (digits : List Char) : Option Char := do
  let n ← digits.foldlM (fun n c => (hexValue? c).map (16 * n + ·)) 0
  if h : n.isValidChar then some (Char.ofNatAux n h) else none

def escapeLetter? : Char → Option Char
  | 'b' => some '\x08'
  | 't' => some '\t'
  | 'n' => some '\n'
  | 'f' => some '\x0c'
  | 'r' => some '\r'
  | '"' => some '"'
  | '\\' => some '\\'
  | _ => none

def basicBody? : Reader (List Char)
  | [] => none
  | '"' :: cs => some ([], cs)
  | '\\' :: 'u' :: a :: b :: c :: d :: cs => do
    let x ← scalar? [a, b, c, d]
    (basicBody? cs).map fun (body, cs) => (x :: body, cs)
  | '\\' :: 'U' :: a :: b :: c :: d :: e :: f :: g :: h :: cs => do
    let x ← scalar? [a, b, c, d, e, f, g, h]
    (basicBody? cs).map fun (body, cs) => (x :: body, cs)
  | '\\' :: e :: cs => do
    let x ← escapeLetter? e
    (basicBody? cs).map fun (body, cs) => (x :: body, cs)
  | c :: cs =>
    if isPrintable c && c != '\\' then (basicBody? cs).map fun (body, cs) => (c :: body, cs)
    else none

def literalBody? : Reader (List Char)
  | [] => none
  | '\'' :: cs => some ([], cs)
  | c :: cs =>
    if isPrintable c then (literalBody? cs).map fun (body, cs) => (c :: body, cs) else none

/-- The rest of a string in triple double quotes; up to two quotes may stand
before the closing ones. While `skipping`, behind a backslash at the end of a
line, blanks and line ends are dropped. -/
def longBasicBody? (skipping : Bool) : Reader (List Char)
  | [] => none
  | '"' :: '"' :: '"' :: '"' :: '"' :: cs => some (['"', '"'], cs)
  | '"' :: '"' :: '"' :: '"' :: cs => some (['"'], cs)
  | '"' :: '"' :: '"' :: cs => some ([], cs)
  | '"' :: cs => (longBasicBody? false cs).map fun (body, cs) => ('"' :: body, cs)
  | '\\' :: 'u' :: a :: b :: c :: d :: cs => do
    let x ← scalar? [a, b, c, d]
    (longBasicBody? false cs).map fun (body, cs) => (x :: body, cs)
  | '\\' :: 'U' :: a :: b :: c :: d :: e :: f :: g :: h :: cs => do
    let x ← scalar? [a, b, c, d, e, f, g, h]
    (longBasicBody? false cs).map fun (body, cs) => (x :: body, cs)
  | '\\' :: e :: cs =>
    if (newline? (skipSpaces (e :: cs))).isSome then longBasicBody? true (e :: cs)
    else do
      let x ← escapeLetter? e
      (longBasicBody? false cs).map fun (body, cs) => (x :: body, cs)
  | '\r' :: '\n' :: cs =>
    if skipping then longBasicBody? true cs
    else (longBasicBody? false cs).map fun (body, cs) => ('\n' :: body, cs)
  | c :: cs =>
    if skipping && (isSpace c || c == '\n') then longBasicBody? true cs
    else if c == '\n' || (isPrintable c && c != '\\') then
      (longBasicBody? false cs).map fun (body, cs) => (c :: body, cs)
    else none

def longLiteralBody? : Reader (List Char)
  | [] => none
  | '\'' :: '\'' :: '\'' :: '\'' :: '\'' :: cs => some (['\'', '\''], cs)
  | '\'' :: '\'' :: '\'' :: '\'' :: cs => some (['\''], cs)
  | '\'' :: '\'' :: '\'' :: cs => some ([], cs)
  | '\r' :: '\n' :: cs => (longLiteralBody? cs).map fun (body, cs) => ('\n' :: body, cs)
  | c :: cs =>
    if c == '\n' || isPrintable c then (longLiteralBody? cs).map fun (body, cs) => (c :: body, cs)
    else none

def dropFirstNewline (cs : List Char) : List Char := (newline? cs).getD cs

def string? : Reader String := fun cs =>
  let body : Option (List Char × List Char) := match cs with
    | '"' :: '"' :: '"' :: cs => longBasicBody? false (dropFirstNewline cs)
    | '\'' :: '\'' :: '\'' :: cs => longLiteralBody? (dropFirstNewline cs)
    | '"' :: cs => basicBody? cs
    | '\'' :: cs => literalBody? cs
    | _ => none
  body.map fun (body, cs) => (String.ofList body, cs)

def isBareKeyChar (c : Char) : Bool := c.isAlphanum || c == '_' || c == '-'

def simpleKey? : Reader String := fun cs =>
  match cs with
  | '"' :: cs => (basicBody? cs).map fun (body, cs) => (String.ofList body, cs)
  | '\'' :: cs => (literalBody? cs).map fun (body, cs) => (String.ofList body, cs)
  | cs =>
    match cs.span isBareKeyChar with
    | ([], _) => none
    | (bare, cs) => some (String.ofList bare, cs)

def keyTail? : (fuel : Nat) → Reader (List String)
  | 0, cs => some ([], cs)
  | fuel + 1, cs =>
    match skipSpaces cs with
    | '.' :: rest => do
      let (part, rest) ← simpleKey? (skipSpaces rest)
      let (parts, rest) ← keyTail? fuel rest
      return (part :: parts, rest)
    | _ => some ([], cs)

def nesting : Nat := 80

def key? : Reader (List String) := fun cs => do
  let (part, cs) ← simpleKey? cs
  let (parts, cs) ← keyTail? cs.length cs
  if parts.length + 1 < nesting then some (part :: parts, cs) else none

def digitsWith (isDigit : Char → Bool) : List Char → List Char × List Char
  | '_' :: c :: cs =>
    if isDigit c then
      let (digits, rest) := digitsWith isDigit cs
      (c :: digits, rest)
    else ([], '_' :: c :: cs)
  | c :: cs =>
    if isDigit c then
      let (digits, rest) := digitsWith isDigit cs
      (c :: digits, rest)
    else ([], c :: cs)
  | [] => ([], [])

def digitGroup? (isDigit : Char → Bool) : Reader (List Char) := fun cs =>
  match cs with
  | c :: _ => if isDigit c then some (digitsWith isDigit cs) else none
  | [] => none

def sign (cs : List Char) : Bool × List Char :=
  match cs with
  | '-' :: cs => (true, cs)
  | '+' :: cs => (false, cs)
  | cs => (false, cs)

def wholePart? : Reader (List Char) := fun cs =>
  match cs with
  | '0' :: cs => some (['0'], cs)
  | cs => digitGroup? Char.isDigit cs

def radixValue (radix : Nat) (digits : List Char) : Nat :=
  digits.foldl (fun n c => radix * n + (hexValue? c).getD 0) 0

def integerOf? (negative : Bool) (n : Nat) : Option Toml :=
  if negative then if n ≤ UInt64.size / 2 then some (.integer (-(n : Int))) else none
  else if n < UInt64.size / 2 then some (.integer n) else none

def radixInteger? (radix : Nat) (isDigit : Char → Bool) : Reader Toml := fun cs => do
  let (digits, cs) ← digitGroup? isDigit cs
  return (← integerOf? false (radixValue radix digits), cs)

def isHexDigit (c : Char) : Bool := (hexValue? c).isSome

def integer? : Reader Toml := fun cs =>
  match cs with
  | '0' :: 'x' :: cs => radixInteger? 16 isHexDigit cs
  | '0' :: 'o' :: cs => radixInteger? 8 (fun c => '0' ≤ c && c ≤ '7') cs
  | '0' :: 'b' :: cs => radixInteger? 2 (fun c => c == '0' || c == '1') cs
  | cs => do
    let (negative, cs) := sign cs
    let (digits, cs) ← wholePart? cs
    return (← integerOf? negative (radixValue 10 digits), cs)

def fraction? : Reader (List Char) := fun cs =>
  match cs with
  | '.' :: cs => digitGroup? Char.isDigit cs
  | _ => none

def exponent? : Reader Int := fun cs =>
  match cs with
  | c :: cs =>
    if c = 'e' ∨ c = 'E' then do
      let (negative, cs) := sign cs
      let (digits, cs) ← digitGroup? Char.isDigit cs
      let n : Int := radixValue 10 digits
      return (if negative then -n else n, cs)
    else none
  | [] => none

/-- A number with a fraction, an exponent or both. One too large for floating
point is refused unless it is negative. -/
def decimalFloat? : Reader Toml := fun cs => do
  let (negative, rest) := sign cs
  let (whole, rest) ← wholePart? rest
  let (fraction, rest, hasFraction) := match fraction? rest with
    | some (fraction, rest) => (fraction, rest, true)
    | none => ([], rest, false)
  let (power, rest, hasPower) := match exponent? rest with
    | some (power, rest) => (power, rest, true)
    | none => (0, rest, false)
  if !hasFraction && !hasPower then none
  let value : Decimal.Scientific :=
    ⟨radixValue 10 (whole ++ fraction), power - (fraction.length : Int)⟩
  if value.toFloat?.isNone && !negative then none
  return (.float (cs.take (cs.length - rest.length)), rest)

def specialFloat? : Reader Toml := fun cs =>
  match (sign cs).2 with
  | 'i' :: 'n' :: 'f' :: rest => some (.float ['i', 'n', 'f'], rest)
  | 'n' :: 'a' :: 'n' :: rest => some (.float ['n', 'a', 'n'], rest)
  | _ => none

def fixedNumber? (width : Nat) : Reader Nat := fun cs =>
  let digits := cs.take width
  if digits.length = width then (Decimal.natural? digits).map (·, cs.drop width) else none

def exactly? (c : Char) : List Char → Option (List Char)
  | d :: cs => if c = d then some cs else none
  | [] => none

def date? : List Char → Option (List Char) := fun cs => do
  let (year, cs) ← fixedNumber? 4 cs
  let (month, cs) ← fixedNumber? 2 (← exactly? '-' cs)
  let (day, cs) ← fixedNumber? 2 (← exactly? '-' cs)
  if 1 ≤ month ∧ month ≤ 12 ∧ 1 ≤ day ∧ day ≤ daysInMonth year month then some cs else none

def skipFraction (cs : List Char) : List Char :=
  match cs with
  | '.' :: c :: rest => if c.isDigit then rest.dropWhile Char.isDigit else cs
  | cs => cs

def time? : List Char → Option (List Char) := fun cs => do
  let (hour, cs) ← fixedNumber? 2 cs
  let (minute, cs) ← fixedNumber? 2 (← exactly? ':' cs)
  let (second, cs) ← fixedNumber? 2 (← exactly? ':' cs)
  if hour ≤ 23 ∧ minute ≤ 59 ∧ second ≤ 60 then some (skipFraction cs) else none

def zone? : List Char → Option (List Char) := fun cs =>
  match cs with
  | 'Z' :: cs | 'z' :: cs => some cs
  | c :: cs =>
    if c = '+' ∨ c = '-' then do
      let (hour, cs) ← fixedNumber? 2 cs
      let (minute, cs) ← fixedNumber? 2 (← exactly? ':' cs)
      if hour ≤ 23 ∧ minute ≤ 59 then some cs else none
    else none
  | [] => none

def skipClock (cs : List Char) : List Char :=
  match cs with
  | c :: rest =>
    if c = 'T' ∨ c = 't' ∨ c = ' ' then
      match time? rest with
      | some rest => (zone? rest).getD rest
      | none => cs
    else cs
  | [] => cs

def moment? : Reader Toml := fun cs => do
  let rest ← match date? cs with
    | some rest => some (skipClock rest)
    | none => time? cs
  return (.moment (cs.take (cs.length - rest.length)), rest)

def boolean? : Reader Toml := fun cs =>
  match cs with
  | 't' :: 'r' :: 'u' :: 'e' :: cs => some (.boolean true, cs)
  | 'f' :: 'a' :: 'l' :: 's' :: 'e' :: cs => some (.boolean false, cs)
  | _ => none

def scalarValue? : Reader Toml := fun cs =>
  match cs with
  | '"' :: _ | '\'' :: _ => (string? cs).map fun (s, cs) => (.string s, cs)
  | _ =>
    (boolean? cs).or <| (moment? cs).or <| (specialFloat? cs).or <| (decimalFloat? cs).or <|
      integer? cs

end CycleCount.Toml
