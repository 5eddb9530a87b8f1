/-! Texts: the bytes of their UTF-8 encoding, their blank characters, which are those
of the Unicode property `White_Space`, and their pieces between the occurrences of a
character. -/

namespace CycleCount

abbrev Bytes := List UInt8

namespace Text

def encode (s : String) : Bytes := s.toUTF8.data.toList

def decode? (bytes : Bytes) : Option String := String.fromUTF8? bytes.toByteArray

def isBlank (c : Char) : Bool :=
  let n := c.toNat
  (0x09 ≤ n && n ≤ 0x0D) || n == 0x20 || n == 0x85 || n == 0xA0 || n == 0x1680 ||
    (0x2000 ≤ n && n ≤ 0x200A) || n == 0x2028 || n == 0x2029 || n == 0x202F ||
    n == 0x205F || n == 0x3000

def trimLeft (cs : List Char) : List Char := cs.dropWhile isBlank

def trimRight (cs : List Char) : List Char := (cs.reverse.dropWhile isBlank).reverse

def trim (cs : List Char) : List Char := trimRight (trimLeft cs)

/-- The pieces between the occurrences of `sep`: always one more than there are
occurrences, so the empty text has one empty piece. -/
def split (sep : Char) : List Char → List (List Char)
  | [] => [[]]
  | c :: cs =>
    if c = sep then [] :: split sep cs
    else
      match split sep cs with
      | [] => [[c]]
      | piece :: pieces => (c :: piece) :: pieces

def join (sep : Char) : List (List Char) → List Char
  | [] => []
  | [piece] => piece
  | piece :: pieces => piece ++ sep :: join sep pieces

theorem split_ne_nil (sep : Char) (cs : List Char) : split sep cs ≠ [] := by
  cases cs with
  | nil => simp [split]
  | cons c cs =>
    simp only [split]
    split
    · simp
    · split <;> simp

theorem join_cons_cons (sep : Char) (piece next : List Char) (pieces : List (List Char)) :
    join sep (piece :: next :: pieces) = piece ++ sep :: join sep (next :: pieces) := rfl

theorem join_split (sep : Char) (cs : List Char) : join sep (split sep cs) = cs := by
  induction cs with
  | nil => rfl
  | cons c cs ih =>
    obtain ⟨piece, pieces, hp⟩ := List.exists_cons_of_ne_nil (split_ne_nil sep cs)
    rw [hp] at ih
    by_cases h : c = sep
    · rw [split, if_pos h, hp, join_cons_cons, ih, h, List.nil_append]
    · rw [split, if_neg h, hp]
      cases pieces with
      | nil => rw [← ih]; rfl
      | cons next pieces => rw [← ih]; rfl

end Text
end CycleCount
