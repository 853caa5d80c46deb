import StoryFlow.Document.Scalar

/-! The tokens of a document. Indentation opens and closes block collections; a scalar or a flow
collection turns out to be a key when a colon follows it on its line, so its tokens are held back until
that is settled, and the tokens for the key are put in front of them. Anchors, aliases, tags and
directives do not start tokens. -/

namespace StoryFlow.Document

inductive TokenKind where
  | streamEnd
  | documentStart
  | documentEnd
  | blockSequenceStart
  | blockMappingStart
  | blockEnd
  | flowSequenceStart
  | flowSequenceEnd
  | flowMappingStart
  | flowMappingEnd
  | blockEntry
  | flowEntry
  | key
  | value
  | scalar (text : String) (plain : Bool)
  | invalid (error : SyntaxError)
  deriving DecidableEq, Repr

structure Token where
  kind : TokenKind
  line : Nat
  deriving DecidableEq, Repr

/-- Something that will be a key if a colon follows: where it starts, and how many tokens come before.
It is required when nothing else can stand at its column. It is awaited as long as its tokens are held
back for it. -/
structure PossibleKey where
  required : Bool
  awaited : Bool := true
  position : Nat
  index : Nat
  line : Nat
  column : Nat

/-- What may be a key in an open flow collection, or in the block around all of them. The latest
position is that of the last possible key there, at first that of the token that opened the
collection. -/
structure Level where
  possible : Option PossibleKey := none
  latest : Nat := 0

def Level.release (level : Level) (position : Nat) : Level :=
  { level with
    possible := level.possible.map fun k =>
      { k with awaited := k.awaited && k.position != position } }

def Level.settled (level : Level) : Level := { level with possible := none }

/-- The state of the reader. The queue has the tokens that are read and not given out. -/
structure Layout where
  cursor : Cursor
  queue : List Token := []
  given : Nat := 0
  indent : Int := -1
  outerIndents : List Int := []
  keyAllowed : Bool := true
  level : Level := {}
  outerLevels : List Level := []

namespace Layout

def inFlow (l : Layout) : Bool := !l.outerLevels.isEmpty

def count (l : Layout) : Nat := l.given + l.queue.length

/-- Puts a token at a position. If the tokens from there on are given out, it comes last. -/
def insert (l : Layout) (position : Nat) (t : Token) : Layout :=
  if position < l.given then { l with queue := l.queue ++ [t] }
  else
    let before := position - l.given
    { l with queue := l.queue.take before ++ t :: l.queue.drop before }

def emit (l : Layout) (kind : TokenKind) : Layout := l.insert l.count ⟨kind, l.cursor.line⟩

def closeBlocks (column : Int) : Nat → Layout → Layout
  | 0, l => l
  | fuel + 1, l =>
    if l.indent ≤ column then l
    else
      closeBlocks column fuel
        { l.emit .blockEnd with
          indent := l.outerIndents.headD (-1)
          outerIndents := l.outerIndents.drop 1 }

def unroll (l : Layout) (column : Int) : Layout :=
  if l.inFlow then l else closeBlocks column (l.outerIndents.length + 1) l

def depthLimit : Nat := 10000

def roll (l : Layout) (column position line : Nat) (kind : TokenKind) :
    Except SyntaxError Layout :=
  if l.inFlow || (column : Int) ≤ l.indent then .ok l
  else if depthLimit ≤ l.outerIndents.length then .error (l.cursor.failure .tooDeep)
  else
    .ok { l.insert position ⟨kind, line⟩ with
      indent := column
      outerIndents := l.indent :: l.outerIndents }

def rollHere (l : Layout) (kind : TokenKind) : Except SyntaxError Layout :=
  l.roll l.cursor.column l.count l.cursor.line kind

/-- A key is on one line and at most 1024 characters long. -/
def keyInReach (l : Layout) (k : PossibleKey) : Bool :=
  k.line == l.cursor.line && l.cursor.index ≤ k.index + 1024

def removeKey (l : Layout) : Except SyntaxError Layout :=
  match l.level.possible with
  | some k =>
    if k.required then .error (l.cursor.failure .noColon)
    else .ok { l with level := l.level.settled }
  | none => .ok l

def saveKey (l : Layout) : Except SyntaxError Layout :=
  if l.keyAllowed then do
    let l ← l.removeKey
    let c := l.cursor
    return { l with
      level := {
        possible := some {
          required := !l.inFlow && l.indent == (c.column : Int)
          position := l.count
          index := c.index
          line := c.line
          column := c.column }
        latest := l.count } }
  else .ok l

def moveTo (l : Layout) (c : Cursor) : Layout := { l with cursor := c }

def emitOver (l : Layout) (kind : TokenKind) (width : Nat) : Layout :=
  (l.emit kind).moveTo (l.cursor.skip width)

def openFlow (l : Layout) (kind : TokenKind) : Except SyntaxError Layout := do
  let l ← l.saveKey
  if depthLimit ≤ l.outerLevels.length then .error (l.cursor.failure .tooDeep)
  else
    return { l.emitOver kind 1 with
      keyAllowed := true
      level := { latest := l.count }
      outerLevels := l.level :: l.outerLevels }

/-- Closes a flow collection. One in which nothing could have been a key is not waited for to become a
key itself. -/
def closeFlow (l : Layout) (kind : TokenKind) : Except SyntaxError Layout := do
  let l ← l.removeKey
  match l.outerLevels with
  | [] => return { l.emitOver kind 1 with keyAllowed := false }
  | outer :: outerLevels =>
    return { l.emitOver kind 1 with
      keyAllowed := false
      level := outer.release l.level.latest
      outerLevels }

def nextInFlow (l : Layout) : Except SyntaxError Layout := do
  let l ← l.removeKey
  return { l.emitOver .flowEntry 1 with keyAllowed := true }

def blockEntry (l : Layout) : Except SyntaxError Layout := do
  if !l.inFlow && !l.keyAllowed then .error (l.cursor.failure .entryNotAllowed)
  else
    let l ← (← l.rollHere .blockSequenceStart).removeKey
    return { l.emitOver .blockEntry 1 with keyAllowed := true }

def explicitKey (l : Layout) : Except SyntaxError Layout := do
  if !l.inFlow && !l.keyAllowed then .error (l.cursor.failure .keyNotAllowed)
  else
    let l ← (← l.rollHere .blockMappingStart).removeKey
    return { l.emitOver .key 1 with keyAllowed := !l.inFlow }

def keyForColon (l : Layout) : Except SyntaxError (Option PossibleKey) :=
  match l.level.possible with
  | none => .ok none
  | some k =>
    if l.keyInReach k then .ok (some k)
    else if k.required then .error (l.cursor.failure .noColon)
    else .ok none

def value (l : Layout) : Except SyntaxError Layout := do
  match ← l.keyForColon with
  | some k =>
    let l := l.insert k.position ⟨.key, k.line⟩
    let l ← l.roll k.column k.position k.line .blockMappingStart
    return { l.emitOver .value 1 with level := l.level.settled, keyAllowed := false }
  | none =>
    if !l.inFlow && !l.keyAllowed then .error (l.cursor.failure .valueNotAllowed)
    else
      let l ← l.rollHere .blockMappingStart
      return { l.emitOver .value 1 with level := l.level.settled, keyAllowed := !l.inFlow }

def documentMark (l : Layout) (kind : TokenKind) : Except SyntaxError Layout := do
  let l ← (l.unroll (-1)).removeKey
  return { l.emitOver kind 3 with keyAllowed := false }

/-- The end of the text counts as the start of a line. -/
def finish (l : Layout) : Except SyntaxError Layout := do
  let c := l.cursor
  let c := if c.column = 0 then c else { c with column := 0, line := c.line + 1 }
  let l ← ((l.moveTo c).unroll (-1)).removeKey
  return { l.emit .streamEnd with keyAllowed := false }

def blockScalar (l : Layout) (literal : Bool) : Except SyntaxError Layout := do
  let l ← l.removeKey
  let (text, c) ← Scalar.readBlock literal l.indent l.cursor
  return { (l.emit (.scalar (String.ofList text) false)).moveTo c with keyAllowed := true }

def quotedScalar (l : Layout) (single : Bool) : Except SyntaxError Layout := do
  let l ← l.saveKey
  let (text, c) ← Scalar.readQuoted single l.cursor
  return { (l.emit (.scalar (String.ofList text) false)).moveTo c with keyAllowed := false }

def plainScalar (l : Layout) : Except SyntaxError Layout := do
  let l ← l.saveKey
  let (text, broken, c) ← Scalar.readPlain l.inFlow (l.indent + 1) l.cursor
  return { (l.emit (.scalar (String.ofList text) true)).moveTo c with keyAllowed := broken }

/-- Goes over the blanks and the comment before a token or a line break. A tab does not indent a block.
At the start of a line a marked cursor loses a character. -/
def skipBlanks (l : Layout) : Except SyntaxError Cursor := do
  let c ← l.cursor.need 1
  let c ← (if c.column = 0 && c.marked then c.skip 1 else c).need 1
  let (_, c) ← c.takeWhile fun ch =>
    ch == ' ' || (ch == '\t' && (l.inFlow || !l.keyAllowed))
  c.skipComment

def toNextToken : Nat → Layout → Except SyntaxError Layout
  | 0, l => .ok l
  | fuel + 1, l => do
    let c ← l.skipBlanks
    if c.atLineBreak then
      toNextToken fuel { l with cursor := ← c.skipBreak, keyAllowed := !l.inFlow || l.keyAllowed }
    else return l.moveTo c

def isIndicator (ch : Char) : Bool :=
  ['-', '?', ':', ',', '[', ']', '\x7b', '\x7d', '#', '&', '*', '!', '|', '>', '\x27', '\x22', '%', '@',
    '\x60'].contains ch

def startsPlain (inFlow : Bool) (ch : Char) (rest : List Char) : Bool :=
  (!endsWord [ch] && !isIndicator ch) || (ch == '-' && !(rest.head?.any isSpaceOrTab)) ||
    (!inFlow && (ch == '?' || ch == ':') && !endsWord rest)

def readToken (l : Layout) (ch : Char) (rest : List Char) : Except SyntaxError Layout :=
  if l.cursor.atDocumentMark '-' then l.documentMark .documentStart
  else if l.cursor.atDocumentMark '.' then l.documentMark .documentEnd
  else if ch == '[' then l.openFlow .flowSequenceStart
  else if ch == '\x7b' then l.openFlow .flowMappingStart
  else if ch == ']' then l.closeFlow .flowSequenceEnd
  else if ch == '\x7d' then l.closeFlow .flowMappingEnd
  else if ch == ',' then l.nextInFlow
  else if ch == '-' && endsWord rest then l.blockEntry
  else if ch == '?' && (l.inFlow || endsWord rest) then l.explicitKey
  else if ch == ':' && (l.inFlow || endsWord rest) then l.value
  else if ch == '|' && !l.inFlow then l.blockScalar true
  else if ch == '>' && !l.inFlow then l.blockScalar false
  else if ch == '\x27' then l.quotedScalar true
  else if ch == '\x22' then l.quotedScalar false
  else if startsPlain l.inFlow ch rest then l.plainScalar
  else .error (l.cursor.failure .noToken)

def step (l : Layout) : Except SyntaxError Layout := do
  let l ← toNextToken (l.cursor.size + 1) l
  let l := l.unroll l.cursor.column
  let l := l.moveTo (← l.cursor.need 4)
  match l.cursor.rest with
  | [] => l.finish
  | ch :: rest => l.readToken ch rest

def awaited? (l : Layout) : Option PossibleKey :=
  (l.level :: l.outerLevels).findSome? fun level =>
    level.possible.filter fun k => k.awaited && k.position == l.given

def isSettled (l : Layout) : Except SyntaxError Bool :=
  match l.awaited? with
  | none => .ok true
  | some k =>
    if l.keyInReach k then .ok false
    else if k.required then .error (l.cursor.failure .noColon)
    else .ok true

def next (l : Layout) : Except SyntaxError (Option Token × Layout) := do
  match l.queue with
  | [] => return (none, ← l.step)
  | t :: queue =>
    if ← l.isSettled then return (some t, { l with queue, given := l.given + 1 })
    else return (none, ← l.step)

/-- Gives out tokens up to the end of the stream or an error. The tokens given out so far are in
reverse. -/
def giveAll : Nat → List Token → Layout → List Token
  | 0, done, _ => done.reverse
  | fuel + 1, done, l =>
    match l.next with
    | .error e => (⟨.invalid e, l.cursor.line⟩ :: done).reverse
    | .ok (none, l) => giveAll fuel done l
    | .ok (some t, l) =>
      if t.kind = .streamEnd then (t :: done).reverse else giveAll fuel (t :: done) l

end Layout

def tokens (text : String) : List Token :=
  let cursor := Cursor.ofText text
  Layout.giveAll (6 * cursor.size + 8) [] { cursor }

end StoryFlow.Document
