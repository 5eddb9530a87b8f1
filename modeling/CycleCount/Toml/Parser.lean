import CycleCount.Toml.Lexeme

/-! TOML documents: lines that assign values to keys, under headers that open
tables. -/

namespace CycleCount.Toml

def skipLines : (fuel : Nat) → List Char → Option (List Char)
  | 0, cs => some cs
  | fuel + 1, cs =>
    match skipSpaces cs with
    | '#' :: cs => do skipLines fuel (← newline? (cs.dropWhile isPrintable))
    | '\n' :: cs => skipLines fuel cs
    | '\r' :: '\n' :: cs => skipLines fuel cs
    | cs => some cs

mutual

def value? : (fuel depth : Nat) → Reader Toml
  | 0, _, _ => none
  | fuel + 1, depth, cs =>
    match cs with
    | '[' :: cs =>
      if depth ≤ 1 then none
      else (entriesOf? fuel (depth - 1) cs).map fun (entries, cs) => (.array entries, cs)
    | '\x7b' :: cs =>
      if depth ≤ 1 then none
      else
        match skipSpaces cs with
        | '\x7d' :: cs => some (.inline [], cs)
        | cs => (membersOf? fuel (depth - 1) [] cs).map fun (members, cs) => (.inline members, cs)
    | cs => scalarValue? cs

def entriesOf? : (fuel depth : Nat) → Reader (List Toml)
  | 0, _, _ => none
  | fuel + 1, depth, cs => do
    match ← skipLines cs.length cs with
    | ']' :: cs => some ([], cs)
    | cs =>
      let (entry, cs) ← value? fuel depth cs
      match ← skipLines cs.length cs with
      | ',' :: cs =>
        let (entries, cs) ← entriesOf? fuel depth cs
        return (entry :: entries, cs)
      | ']' :: cs => some ([entry], cs)
      | _ => none

def membersOf? : (fuel depth : Nat) → Members → Reader Members
  | 0, _, _, _ => none
  | fuel + 1, depth, members, cs => do
    let (path, cs) ← key? (skipSpaces cs)
    let cs ← exactly? '=' (skipSpaces cs)
    let (value, cs) ← value? fuel depth (skipSpaces cs)
    let members ← assign? path.dropLast (path.getLast?.getD "") value members
    match skipSpaces cs with
    | ',' :: cs => membersOf? fuel depth members cs
    | '\x7d' :: cs => some (members, cs)
    | _ => none

end

def endOfLine? (cs : List Char) : Option (List Char) :=
  let rest := match skipSpaces cs with
    | '#' :: cs => cs.dropWhile isPrintable
    | cs => cs
  if rest.isEmpty then some [] else newline? rest

structure State where
  root : Members := []
  header : List String := []

def header? (state : State) (cs : List Char) : Option (State × List Char) := do
  match cs with
  | '[' :: '[' :: cs =>
    let (path, cs) ← key? (skipSpaces cs)
    let cs ← exactly? ']' (← exactly? ']' (skipSpaces cs))
    let root ← openEntry? path.dropLast (path.getLast?.getD "") state.root
    return ({ root, header := path }, ← endOfLine? cs)
  | '[' :: cs =>
    let (path, cs) ← key? (skipSpaces cs)
    let cs ← exactly? ']' (skipSpaces cs)
    let root ← openTable? path.dropLast (path.getLast?.getD "") state.root
    return ({ root, header := path }, ← endOfLine? cs)
  | _ => none

def assignment? (state : State) (cs : List Char) : Option (State × List Char) := do
  let (path, cs) ← key? cs
  let cs := skipSpaces (← exactly? '=' (skipSpaces cs))
  let (value, cs) ← value? (2 * cs.length + 2) nesting cs
  let root ← within? false
    (fun _ members => assign? path.dropLast (path.getLast?.getD "") value members)
    state.header .header state.root
  return ({ state with root }, ← endOfLine? cs)

def linesFrom? : (fuel : Nat) → State → List Char → Option State
  | 0, _, _ => none
  | fuel + 1, state, cs =>
    match skipSpaces cs with
    | [] => some state
    | '#' :: cs => do linesFrom? fuel state (← endOfLine? ('#' :: cs))
    | '\n' :: cs => linesFrom? fuel state cs
    | '\r' :: cs => do linesFrom? fuel state (← newline? ('\r' :: cs))
    | '[' :: cs => do
      let (state, cs) ← header? state ('[' :: cs)
      linesFrom? fuel state cs
    | cs => do
      let (state, cs) ← assignment? state cs
      linesFrom? fuel state cs

def ofText? (s : String) : Option Members :=
  let cs := match s.toList with
    | '\uFEFF' :: cs => cs
    | cs => cs
  (linesFrom? (cs.length + 1) {} cs).map (·.root)

end CycleCount.Toml
