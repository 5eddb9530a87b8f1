import CycleCount.Text.Basic

/-! Comma-separated records over bytes. A record ends at a newline or at the end
of the input; newlines before its first field are skipped. A field that starts
with a quote extends to the next quote that is not doubled, newlines and commas
included, and whatever follows that quote belongs to the field as it stands. -/

namespace CycleCount.Records

def newline : UInt8 := 10
def quote : UInt8 := 34
def comma : UInt8 := 44

inductive Place where
  | recordStart
  | fieldStart
  | plain
  | quoted
  | afterQuote
deriving DecidableEq, Repr

/-- The part of a record that was read so far, latest bytes and fields first. -/
structure Draft where
  place : Place := .recordStart
  fields : List Bytes := []
  field : Bytes := []
  newlines : Nat := 0

structure Chunk where
  fields : List Bytes
  newlines : Nat
deriving DecidableEq, Repr

namespace Draft

def allFields (d : Draft) : List Bytes := (d.field.reverse :: d.fields).reverse

def add (d : Draft) (b : UInt8) (place : Place) : Draft :=
  { d with field := b :: d.field, place }

def endField (d : Draft) : Draft :=
  { d with fields := d.field.reverse :: d.fields, field := [], place := .fieldStart }

def step (d : Draft) (b : UInt8) : Draft ⊕ Chunk :=
  let d := if b = newline then { d with newlines := d.newlines + 1 } else d
  match d.place with
  | .recordStart =>
    if b = newline then .inl d
    else if b = quote then .inl { d with place := .quoted }
    else if b = comma then .inl d.endField
    else .inl (d.add b .plain)
  | .fieldStart =>
    if b = quote then .inl { d with place := .quoted }
    else if b = comma then .inl d.endField
    else if b = newline then .inr ⟨d.allFields, d.newlines⟩
    else .inl (d.add b .plain)
  | .plain =>
    if b = comma then .inl d.endField
    else if b = newline then .inr ⟨d.allFields, d.newlines⟩
    else .inl (d.add b .plain)
  | .quoted =>
    if b = quote then .inl { d with place := .afterQuote }
    else .inl (d.add b .quoted)
  | .afterQuote =>
    if b = quote then .inl (d.add b .quoted)
    else if b = comma then .inl d.endField
    else if b = newline then .inr ⟨d.allFields, d.newlines⟩
    else .inl (d.add b .plain)

end Draft

structure Scan where
  chunks : List Chunk
  trailing : Nat
deriving DecidableEq, Repr

def scanFrom (d : Draft) : Bytes → Scan
  | [] =>
    if d.place = .recordStart then ⟨[], d.newlines⟩ else ⟨[⟨d.allFields, d.newlines⟩], 0⟩
  | b :: bs =>
    match d.step b with
    | .inl d => scanFrom d bs
    | .inr chunk =>
      let rest := scanFrom {} bs
      { rest with chunks := chunk :: rest.chunks }

def dropMark : Bytes → Bytes
  | 0xEF :: 0xBB :: 0xBF :: bs => bs
  | bs => bs

def scan (input : Bytes) : Scan := scanFrom {} (dropMark input)

end CycleCount.Records
