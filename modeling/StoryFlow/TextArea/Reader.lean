import StoryFlow.TextArea
import StoryFlow.Text.Blank
import StoryFlow.Text.Identifier

/-! Written positions: `line:column`, or `line:column-line:column` when the text has a dash
anywhere. Before each number blanks other than a line break are skipped, a sign is allowed, and a
number has to fit a machine word. What follows the last number is ignored. -/

namespace StoryFlow.Span

def digitsValue (digits : List Char) : Nat :=
  digits.foldl (fun n c => 10 * n + (c.toNat - '0'.toNat)) 0

def readSign : List Char → Bool × List Char
  | '-' :: rest => (true, rest)
  | '+' :: rest => (false, rest)
  | cs => (false, cs)

def fitsWord (n : Int) : Bool := Int64.minValue.toInt ≤ n && n ≤ Int64.maxValue.toInt

def readNumber? (cs : List Char) : Option (Int64 × List Char) :=
  let (negative, cs) := readSign (cs.dropWhile fun c => Text.isBlank c && c != '\n')
  let digits := cs.takeWhile Text.isDecimalDigit
  let size : Int := digitsValue digits
  let value := if negative then -size else size
  if digits.isEmpty || !fitsWord value then none
  else some (Int64.ofInt value, cs.dropWhile Text.isDecimalDigit)

def readAfter? (mark : Char) : List Char → Option (Int64 × List Char)
  | c :: rest => if c = mark then readNumber? rest else none
  | [] => none

def readPair? (cs : List Char) : Option ((Int64 × Int64) × List Char) := do
  let (line, cs) ← readNumber? cs
  let (column, cs) ← readAfter? ':' cs
  return ((line, column), cs)

/-- The four numbers as written. One pair stands for both ends. -/
def readNumbers? (cs : List Char) : Option Span := do
  let ((line, column), rest) ← readPair? cs
  if cs.contains '-' then
    match rest with
    | '-' :: rest =>
      let ((endLine, endColumn), _) ← readPair? rest
      return ⟨line, column, endLine, endColumn⟩
    | _ => none
  else return ⟨line, column, line, column⟩

/-- The start is at least `1:1` and the end does not come before it. -/
def inOrder (s : Span) : Bool :=
  1 ≤ s.line && 1 ≤ s.column &&
    (s.line < s.endLine || (s.line == s.endLine && s.column ≤ s.endColumn))

def read? (text : String) : Option Span := do
  let s ← readNumbers? text.toList
  if s.inOrder then
    return ⟨s.line - 1, s.column - 1, s.endLine - 1, s.endColumn - 1⟩
  else none

end StoryFlow.Span
