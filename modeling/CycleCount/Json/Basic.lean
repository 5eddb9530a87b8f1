import CycleCount.Decimal.Written

/-! JSON values and their text. Objects keep their members in order. Compact text
has no blanks; indented text puts every entry on a line of its own. -/

namespace CycleCount

inductive Json where
  | null
  | bool (value : Bool)
  | integer (value : Int)
  | real (value : Float)
  | string (value : String)
  | array (entries : List Json)
  | object (members : List (String × Json))
deriving Repr, Inhabited

namespace Json

def hexDigit (n : Nat) : Char := (Nat.digitChar n)

def escape (c : Char) : List Char :=
  match c with
  | '"' => ['\\', '"']
  | '\\' => ['\\', '\\']
  | '\n' => ['\\', 'n']
  | '\r' => ['\\', 'r']
  | '\t' => ['\\', 't']
  | '\x08' => ['\\', 'b']
  | '\x0c' => ['\\', 'f']
  | c =>
    if c.toNat < 0x20 then
      ['\\', 'u', '0', '0', hexDigit (c.toNat / 16), hexDigit (c.toNat % 16)]
    else [c]

def quotedText (s : String) : String :=
  String.ofList ('"' :: s.toList.flatMap escape ++ ['"'])

/-- A number without a finite decimal is written as `null`. -/
def realText (x : Float) : String := (Decimal.fullText? x).getD "null"

def integerText (n : Int) : String :=
  match n with
  | .ofNat n => n.repr
  | .negSucc n => "-" ++ (n + 1).repr

mutual

def compact : Json → String
  | .null => "null"
  | .bool b => if b then "true" else "false"
  | .integer n => integerText n
  | .real x => realText x
  | .string s => quotedText s
  | .array entries => "[" ++ compactEntries entries ++ "]"
  | .object members => "\x7b" ++ compactMembers members ++ "\x7d"

def compactEntries : List Json → String
  | [] => ""
  | [entry] => entry.compact
  | entry :: entries => entry.compact ++ "," ++ compactEntries entries

def compactMembers : List (String × Json) → String
  | [] => ""
  | [(name, value)] => quotedText name ++ ":" ++ value.compact
  | (name, value) :: members =>
    quotedText name ++ ":" ++ value.compact ++ "," ++ compactMembers members

end

def lineAt (depth : Nat) : String :=
  "\n" ++ String.ofList (List.replicate (2 * depth) ' ')

mutual

def indentedAt (depth : Nat) : Json → String
  | .array (entry :: entries) =>
    "[" ++ indentedEntries (depth + 1) (entry :: entries) ++ lineAt depth ++ "]"
  | .array [] => "[]"
  | .object (member :: members) =>
    "\x7b" ++ indentedMembers (depth + 1) (member :: members) ++ lineAt depth ++ "\x7d"
  | .object [] => "\x7b\x7d"
  | .null => "null"
  | .bool b => if b then "true" else "false"
  | .integer n => integerText n
  | .real x => realText x
  | .string s => quotedText s

def indentedEntries (depth : Nat) : List Json → String
  | [] => ""
  | [entry] => lineAt depth ++ indentedAt depth entry
  | entry :: entries =>
    lineAt depth ++ indentedAt depth entry ++ "," ++ indentedEntries depth entries

def indentedMembers (depth : Nat) : List (String × Json) → String
  | [] => ""
  | [(name, value)] => lineAt depth ++ quotedText name ++ ": " ++ indentedAt depth value
  | (name, value) :: members =>
    lineAt depth ++ quotedText name ++ ": " ++ indentedAt depth value ++ "," ++
      indentedMembers depth members

end

def indented (json : Json) : String := json.indentedAt 0

end Json
end CycleCount
