import CycleCount.Text.Basic

/-! Writing records: fields separated by commas, a newline behind each record.
A field is quoted only where reading it back needs the quotes. -/

namespace CycleCount.Records

def needsQuotes (c : Char) : Bool := c == ',' || c == '"' || c == '\n' || c == '\r'

def quoted (field : List Char) : List Char :=
  '"' :: field.flatMap (fun c => if c = '"' then ['"', '"'] else [c]) ++ ['"']

def writtenField (field : List Char) : List Char :=
  if field.any needsQuotes then quoted field else field

/-- The fields of a record. A single empty field gets quotes, which tell its
record from an empty line. -/
def writtenFields : List (List Char) → List Char
  | [[]] => quoted []
  | fields => Text.join ',' (fields.map writtenField)

def written (records : List (List (List Char))) : List Char :=
  records.flatMap fun fields => writtenFields fields ++ ['\n']

end CycleCount.Records
