import CycleCount.Decimal.Word
import CycleCount.Instant.Basic
import CycleCount.Text.Basic

/-! Reading an instant: date, time of day and offset from universal time, each
number with or without leading zeros, blanks allowed between the parts. -/

namespace CycleCount.Instant

open Text (trimLeft)

def number? (width : Nat) (cs : List Char) : Option (Nat × List Char) := do
  let cs := trimLeft cs
  let digits := (cs.take width).takeWhile Char.isDigit
  return (← Decimal.natural? digits, cs.drop digits.length)

def year? (cs : List Char) : Option (Int × List Char) :=
  match trimLeft cs with
  | '-' :: cs =>
    if cs.head?.any Char.isDigit then (number? cs.length cs).map fun (n, cs) => (-(n : Int), cs)
    else none
  | '+' :: cs =>
    if cs.head?.any Char.isDigit then (number? cs.length cs).map fun (n, cs) => ((n : Int), cs)
    else none
  | cs => (number? 4 cs).map fun (n, cs) => ((n : Int), cs)

def expect? (c : Char) (cs : List Char) : Option (List Char) :=
  match trimLeft cs with
  | d :: cs => if d = c then some cs else none
  | [] => none

def isYear (year : Int) : Bool := -262143 ≤ year && year ≤ 262142

def date? (cs : List Char) : Option (Date × List Char) := do
  let (year, cs) ← year? cs
  let cs ← expect? '-' cs
  let (month, cs) ← number? 2 cs
  let cs ← expect? '-' cs
  let (day, cs) ← number? 2 cs
  if isYear year ∧ 1 ≤ month ∧ month ≤ 12 ∧ 1 ≤ day ∧ day ≤ daysInMonth year month
  then some ({ year, month, day }, cs)
  else none

def fraction? : List Char → Option (Nat × List Char)
  | '.' :: cs => do
    let (digits, rest) := cs.span Char.isDigit
    let kept := digits.take 9
    return ((← Decimal.natural? kept) * Nat.pow 10 (9 - kept.length), rest)
  | cs => some (0, cs)

/-- Seconds into the day, and nanoseconds; second 60 runs on from second 59. -/
def clock? (cs : List Char) : Option ((Nat × Nat) × List Char) := do
  let (hour, cs) ← number? 2 cs
  let cs ← expect? ':' cs
  let (minute, cs) ← number? 2 cs
  let cs ← expect? ':' cs
  let (second, cs) ← number? 2 cs
  let (nanoseconds, cs) ← fraction? cs
  if hour < 24 ∧ minute < 60 ∧ second ≤ 60 then
    let leap := second / 60
    some ((3600 * hour + 60 * minute + (second - leap), nanoseconds + 1000000000 * leap), cs)
  else none

def twoDigits? : List Char → Option (Nat × List Char)
  | a :: b :: cs => do return (10 * (← Decimal.digit? a) + (← Decimal.digit? b), cs)
  | _ => none

def zone? (cs : List Char) : Option (Int × List Char) :=
  match trimLeft cs with
  | 'Z' :: cs | 'z' :: cs => some (0, cs)
  | sign :: cs =>
    if (sign :: cs.take 2).map Char.toLower = ['u', 't', 'c'] then some (0, cs.drop 2)
    else if sign = '+' ∨ sign = '-' ∨ sign = '−' then do
      let (hours, cs) ← twoDigits? cs
      let (minutes, cs) ← twoDigits? (cs.dropWhile fun c => c == ':' || Text.isBlank c)
      if minutes < 60 ∧ hours < 24 then
        let offset : Int := 3600 * hours + 60 * minutes
        some (if sign = '+' then offset else -offset, cs)
      else none
    else none
  | [] => none

/-- An instant is read only if the calendar has its date at the given offset and in
universal time. -/
def ofText? (s : String) : Option Instant := do
  let (date, cs) ← date? s.toList
  let cs ← match cs with
    | 'T' :: cs | 't' :: cs | ' ' :: cs => some cs
    | _ => none
  let ((second, nanoseconds), cs) ← clock? cs
  let (offset, cs) ← zone? cs
  let seconds := date.toDays * 86400 + second - offset
  if (trimLeft cs).isEmpty && isYear (Date.ofDays (seconds / 86400)).year then
    some { seconds, nanoseconds }
  else none

end CycleCount.Instant
