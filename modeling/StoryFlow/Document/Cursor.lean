import StoryFlow.Document.Block

/-! A place in the text of a document: the characters that are left, and how many characters, lines
and columns came before. -/

namespace StoryFlow.Document

inductive SyntaxProblem where
  | controlCharacter
  | noToken
  | noColon
  | entryNotAllowed
  | keyNotAllowed
  | valueNotAllowed
  | documentMarkInQuotes
  | endOfStream
  | unknownEscape
  | badHexadecimal
  | badCodePoint
  | tabIndent
  | tabInPlain
  | zeroIndent
  | noLineBreak
  | noNode
  | noDash
  | noKey
  | noSequenceEnd
  | noMappingEnd
  | noDocumentStart
  | tooDeep
  | noMergedMapping
  deriving DecidableEq, Repr

def SyntaxProblem.text : SyntaxProblem → String
  | .controlCharacter => "control characters are not allowed"
  | .noToken => "found character that cannot start any token"
  | .noColon => "could not find expected ':'"
  | .entryNotAllowed => "block sequence entries are not allowed in this context"
  | .keyNotAllowed => "mapping keys are not allowed in this context"
  | .valueNotAllowed => "mapping values are not allowed in this context"
  | .documentMarkInQuotes => "found unexpected document indicator"
  | .endOfStream => "found unexpected end of stream"
  | .unknownEscape => "found unknown escape character"
  | .badHexadecimal => "did not find expected hexdecimal number"
  | .badCodePoint => "found invalid Unicode character escape code"
  | .tabIndent => "found a tab character where an indentation space is expected"
  | .tabInPlain => "found a tab character that violates indentation"
  | .zeroIndent => "found an indentation indicator equal to 0"
  | .noLineBreak => "did not find expected comment or line break"
  | .noNode => "did not find expected node content"
  | .noDash => "did not find expected '-' indicator"
  | .noKey => "did not find expected key"
  | .noSequenceEnd => "did not find expected ',' or ']'"
  | .noMappingEnd => "did not find expected ',' or '\x7d'"
  | .noDocumentStart => "did not find expected <document start>"
  | .tooDeep => "exceeded max depth of 10000"
  | .noMergedMapping => "map merge requires map or sequence of maps as the value"

/-- A problem and the line that is shown for it; line zero is not shown. -/
structure SyntaxError where
  problem : SyntaxProblem
  line : Nat
  deriving DecidableEq, Repr

def SyntaxError.message (e : SyntaxError) : String :=
  "yaml: " ++ (if e.line = 0 then "" else "line " ++ Nat.repr e.line ++ ": ") ++ e.problem.text

/-- Some characters are read ahead; `blocks` has the sizes of the blocks that come behind them, and the
text is broken if something that cannot be read follows. A cursor is marked if there was a mark of the
byte order at its place when a block was last read. The size is that of the whole text: nothing takes
more steps than that. -/
structure Cursor where
  rest : List Char
  size : Nat
  index : Nat := 0
  line : Nat := 0
  column : Nat := 0
  ahead : Nat := 0
  blocks : List Nat := []
  broken : Bool := false
  marked : Bool := false

def isSpaceOrTab (c : Char) : Bool := c == ' ' || c == '\t'

def isLineBreak (c : Char) : Bool :=
  c == '\n' || c == '\r' || c == '\x85' || c == '\u2028' || c == '\u2029'

def endsWord : List Char → Bool
  | [] => true
  | c :: _ => isSpaceOrTab c || isLineBreak c

def endsLine : List Char → Bool
  | [] => true
  | c :: _ => isLineBreak c

namespace Cursor

def failure (c : Cursor) (problem : SyntaxProblem) : SyntaxError :=
  ⟨problem, if c.line = 0 then 0 else c.line + 1⟩

def ofText (text : String) : Cursor :=
  let (blocks, complete) := Block.ofText text
  let rest := blocks.flatten
  { rest, size := rest.length, blocks := blocks.map List.length, broken := !complete }

def skip (c : Cursor) (count : Nat) : Cursor :=
  { c with
    rest := c.rest.drop count
    index := c.index + count
    column := c.column + count
    ahead := c.ahead - count }

/-- Adds blocks to the characters read ahead until there are enough. The end of the text counts as one
more character each time it is met. -/
def readBlocks (broken : Bool) (count ahead : Nat) : List Nat → Except SyntaxError (Nat × List Nat)
  | [] =>
    if count ≤ ahead then .ok (ahead, [])
    else if broken then .error ⟨.controlCharacter, 0⟩
    else .ok (ahead + 1, [])
  | size :: blocks =>
    if count ≤ ahead then .ok (ahead, size :: blocks)
    else readBlocks broken count (ahead + size) blocks

def need (count : Nat) (c : Cursor) : Except SyntaxError Cursor := do
  if count ≤ c.ahead then return c
  else
    let (ahead, blocks) ← readBlocks c.broken count c.ahead c.blocks
    return { c with ahead, blocks, marked := c.rest.head? == some byteOrderMark }

def advance (ahead : Nat) : Nat → Cursor → Except SyntaxError Cursor
  | 0, c => .ok c
  | count + 1, c => do advance ahead count (← (c.skip 1).need ahead)

def takeWhile (c : Cursor) (test : Char → Bool) : Except SyntaxError (List Char × Cursor) := do
  let taken := c.rest.takeWhile test
  return (taken, ← advance 1 taken.length c)

/-- Goes over one line break and gives what it stands for: a newline, except that the two Unicode
separators stand for themselves. -/
def breakLine (c : Cursor) : List Char × Cursor :=
  let next (rest : List Char) (count : Nat) : Cursor :=
    { c.skip count with rest, line := c.line + 1, column := 0 }
  match c.rest with
  | '\r' :: '\n' :: rest => (['\n'], next rest 2)
  | ch :: rest =>
    if ch == '\u2028' || ch == '\u2029' then ([ch], next rest 1)
    else if isLineBreak ch then (['\n'], next rest 1)
    else ([], c)
  | [] => ([], c)

def skipComment (c : Cursor) : Except SyntaxError Cursor := do
  if c.rest.head? == some '#' then return (← c.takeWhile fun ch => !isLineBreak ch).2 else return c

def atLineBreak (c : Cursor) : Bool := c.rest.head?.any isLineBreak

def skipBreak (c : Cursor) : Except SyntaxError Cursor := do
  if c.atLineBreak then return (← c.need 2).breakLine.2 else return c

def atDocumentMark (c : Cursor) (mark : Char) : Bool :=
  c.column == 0 && c.rest.take 3 == [mark, mark, mark] && endsWord (c.rest.drop 3)

def atDocumentBoundary (c : Cursor) : Bool := c.atDocumentMark '-' || c.atDocumentMark '.'

end Cursor

end StoryFlow.Document
