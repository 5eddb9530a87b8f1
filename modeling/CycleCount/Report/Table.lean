import CycleCount.Decimal.Written

/-! Columns of plain-text tables. Widths count characters; a text wider than its
column is not cut. -/

namespace CycleCount.Table

def blanks (n : Nat) : String := String.ofList (List.replicate n ' ')

def left (width : Nat) (s : String) : String := s ++ blanks (width - s.length)

def right (width : Nat) (s : String) : String := blanks (width - s.length) ++ s

def centre (width : Nat) (s : String) : String :=
  let pad := width - s.length
  blanks (pad / 2) ++ s ++ blanks (pad - pad / 2)

def fixed (width places : Nat) (x : Float) : String := right width (Decimal.fixedText places x)

def count (width n : Nat) : String := right width n.repr

def shorten (width : Nat) (s : String) : String :=
  if s.length ≤ width then s else String.ofList (s.toList.take (width - 3)) ++ "..."

def row (cells : List String) : String := "  " ++ " ".intercalate cells

end CycleCount.Table
