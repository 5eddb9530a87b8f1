import CycleCount.Text.Basic

/-! File paths as written. A path keeps its text; two paths name the same place
when their components agree, so repeated slashes, a final slash and inner `.`
pieces do not tell them apart, while a leading `.` does. -/

namespace CycleCount

structure Path where
  text : String
deriving DecidableEq, Repr, Inhabited

namespace Path

inductive Component where
  | root
  | here
  | up
  | name (text : String)
deriving DecidableEq, Repr

def chars (p : Path) : List Char := p.text.toList

def isAbsolute (p : Path) : Bool := p.chars.head? == some '/'

def pieces (p : Path) : List (List Char) := Text.split '/' p.chars

def isFiller (piece : List Char) : Bool := piece == [] || piece == ['.']

def component? (piece : List Char) : Option Component :=
  if isFiller piece then none
  else if piece == ['.', '.'] then some .up
  else some (.name (String.ofList piece))

inductive Start where
  | root
  | here
  | plain
deriving DecidableEq

def anatomy (p : Path) : Start × List (List Char) :=
  match p.pieces with
  | [] :: piece :: rest => (.root, piece :: rest)
  | ['.'] :: rest => (.here, rest)
  | ps => (.plain, ps)

def Start.components : Start → List Component
  | .root => [.root]
  | .here => [.here]
  | .plain => []

def components (p : Path) : List Component :=
  let (start, body) := p.anatomy
  start.components ++ body.filterMap component?

def sameAs (a b : Path) : Bool := a.components == b.components

/-- `b` seen from the directory `a`. An absolute `b` stands for itself, and an
empty `b` leaves a final slash. -/
def join (a b : Path) : Path :=
  if b.isAbsolute then b
  else if a.text.isEmpty || a.chars.getLast? == some '/' then ⟨a.text ++ b.text⟩
  else ⟨a.text ++ "/" ++ b.text⟩

def dropFillersAtEnd (ps : List (List Char)) : List (List Char) :=
  (ps.reverse.dropWhile isFiller).reverse

def Start.withBody (start : Start) (body : List (List Char)) : Path :=
  let text := Text.join '/' body
  match start, body with
  | .root, _ => ⟨String.ofList ('/' :: text)⟩
  | .here, [] => ⟨"."⟩
  | .here, _ => ⟨String.ofList ('.' :: '/' :: text)⟩
  | .plain, _ => ⟨String.ofList text⟩

def parent? (p : Path) : Option Path :=
  let (start, body) := p.anatomy
  match (dropFillersAtEnd body).reverse, start with
  | _ :: rest, start => some (start.withBody (dropFillersAtEnd rest.reverse))
  | [], .here => some ⟨""⟩
  | [], _ => none

def fileName? (p : Path) : Option (List Char) :=
  match p.components.getLast? with
  | some (.name text) => some text.toList
  | _ => none

/-- A file name cut at its last dot, unless that dot is the first character. -/
def cutAtDot (name : List Char) : List Char × Option (List Char) :=
  let extension := (name.reverse.takeWhile (· != '.')).reverse
  match (name.reverse.dropWhile (· != '.')).drop 1 with
  | [] => (name, none)
  | stem => (stem.reverse, some extension)

def stem? (p : Path) : Option (List Char) := p.fileName?.map fun name => (cutAtDot name).1

def extension? (p : Path) : Option (List Char) := p.fileName?.bind fun name => (cutAtDot name).2

end Path
end CycleCount
