import StoryFlow.Document.Cursor

/-! The text of scalars. Plain and quoted scalars can go over several lines: one line break between
words reads as a space, several read as one less. Block scalars keep their lines or fold them. -/

namespace StoryFlow.Document

/-- What lies between two words: blanks of one line, or line breaks with the blanks around them left
out. -/
structure Gap where
  spaces : List Char := []
  firstBreak : Option (List Char) := none
  moreBreaks : List Char := []

namespace Gap

def broken (g : Gap) : Bool := g.firstBreak.isSome

def text (g : Gap) : List Char :=
  match g.firstBreak with
  | none => g.spaces
  | some ['\n'] => if g.moreBreaks.isEmpty then [' '] else g.moreBreaks
  | some first => first ++ g.moreBreaks

def addBreak (g : Gap) (text : List Char) : Gap :=
  if g.broken then { g with moreBreaks := g.moreBreaks ++ text } else { firstBreak := some text }

def read (indent : Option Int) : Nat → Gap → Cursor → Except SyntaxError (Gap × Cursor)
  | 0, g, c => .ok (g, c)
  | fuel + 1, g, c =>
    match c.rest with
    | [] => .ok (g, c)
    | ch :: _ =>
      if isSpaceOrTab ch then
        if g.broken && ch == '\t' && indent.any (fun n => (c.column : Int) < n) then
          .error (c.failure .tabInPlain)
        else do
          let g := if g.broken then g else { g with spaces := g.spaces ++ [ch] }
          read indent fuel g (← (c.skip 1).need 1)
      else if isLineBreak ch then do
        let (text, c) := (← c.need 2).breakLine
        read indent fuel (g.addBreak text) (← c.need 1)
      else .ok (g, c)

end Gap

namespace Scalar

def plainWord (inFlow : Bool) : List Char → Nat
  | [] => 0
  | ch :: rest =>
    if endsWord [ch] || (ch == ':' && endsWord rest) ||
      (inFlow && [',', '?', '[', ']', '\x7b', '\x7d'].contains ch) then 0
    else plainWord inFlow rest + 1

/-- Reads words and the gaps between them, and puts them in front of what is read, last character
first. -/
def readPlainFrom (inFlow : Bool) (indent : Int) :
    Nat → List Char → Gap → Cursor → Except SyntaxError (List Char × Bool × Cursor)
  | 0, done, gap, c => .ok (done, gap.broken, c)
  | fuel + 1, done, gap, c => do
    let c ← c.need 4
    if c.atDocumentBoundary || c.rest.head? == some '#' then return (done, gap.broken, c)
    else
      let count := plainWord inFlow c.rest
      let (done, gap) :=
        if count = 0 then (done, gap)
        else ((c.rest.take count).reverse ++ (gap.text.reverse ++ done), {})
      let c ← Cursor.advance 2 count c
      if c.rest.isEmpty || !endsWord c.rest then return (done, gap.broken, c)
      else
        let (gap, c) ← gap.read (some indent) (c.size + 1) c
        if !inFlow && (c.column : Int) < indent then return (done, gap.broken, c)
        else readPlainFrom inFlow indent fuel done gap c

def readPlain (inFlow : Bool) (indent : Int) (c : Cursor) :
    Except SyntaxError (List Char × Bool × Cursor) := do
  let (done, broken, c) ← readPlainFrom inFlow indent (c.size + 1) [] {} c
  return (done.reverse, broken, c)

def hexValue? (ch : Char) : Option Nat :=
  if '0' ≤ ch && ch ≤ '9' then some (ch.toNat - '0'.toNat)
  else if 'a' ≤ ch && ch ≤ 'f' then some (ch.toNat - 'a'.toNat + 10)
  else if 'A' ≤ ch && ch ≤ 'F' then some (ch.toNat - 'A'.toNat + 10)
  else none

def hexNumber? (digits : List Char) : Option Nat :=
  digits.foldlM (fun n ch => (hexValue? ch).map (16 * n + ·)) 0

def escaped? : Char → Option Char
  | '0' => some '\x00'
  | 'a' => some '\x07'
  | 'b' => some '\x08'
  | 't' | '\t' => some '\t'
  | 'n' => some '\n'
  | 'v' => some '\x0b'
  | 'f' => some '\x0c'
  | 'r' => some '\r'
  | 'e' => some '\x1b'
  | ' ' => some ' '
  | '\x22' => some '\x22'
  | '\x27' => some '\x27'
  | '\\' => some '\\'
  | 'N' => some '\x85'
  | '_' => some '\xa0'
  | 'L' => some '\u2028'
  | 'P' => some '\u2029'
  | _ => none

def escapeWidth? : Char → Option Nat
  | 'x' => some 2
  | 'u' => some 4
  | 'U' => some 8
  | _ => none

def isCodePoint (n : Nat) : Bool := n < 0xd800 || (0xdfff < n && n < 0x110000)

def readEscape (c : Cursor) : Except SyntaxError (Char × Cursor) :=
  match c.rest with
  | _ :: kind :: digits =>
    match escaped? kind, escapeWidth? kind with
    | some ch, _ => .ok (ch, c.skip 2)
    | none, some width => do
      let after ← (c.skip 2).need width
      if (digits.take width).length < width then .error (after.failure .badHexadecimal)
      else
        match hexNumber? (digits.take width) with
        | none => .error (after.failure .badHexadecimal)
        | some n =>
          if isCodePoint n then .ok (Char.ofNat n, after.skip width)
          else .error (after.failure .badCodePoint)
    | none, none => .error (c.failure .unknownEscape)
  | _ => .error (c.failure .unknownEscape)

/-- Reads the characters of a quoted scalar up to a blank, a line break or the closing quote, and the
gap if it was opened by an escaped line break. What is read stands last character first. -/
def readQuotedWord (single : Bool) :
    Nat → List Char → Cursor → Except SyntaxError (List Char × Gap × Cursor)
  | 0, done, c => .ok (done, {}, c)
  | fuel + 1, done, c =>
    match c.rest with
    | [] => .ok (done, {}, c)
    | ch :: rest =>
      if endsWord [ch] then .ok (done, {}, c)
      else if single && ch == '\x27' then
        if rest.head? == some '\x27' then do
          readQuotedWord single fuel (ch :: done) (← (c.skip 2).need 2)
        else .ok (done, {}, c)
      else if !single && ch == '\x22' then .ok (done, {}, c)
      else if !single && ch == '\\' then
        if !rest.isEmpty && endsLine rest then do
          let c ← c.need 3
          return (done, { firstBreak := some [] }, ((c.skip 1).breakLine).2)
        else do
          let (read, c) ← readEscape c
          readQuotedWord single fuel (read :: done) (← c.need 2)
      else do readQuotedWord single fuel (ch :: done) (← (c.skip 1).need 2)

def readQuotedFrom (single : Bool) :
    Nat → List Char → Cursor → Except SyntaxError (List Char × Cursor)
  | 0, done, c => .ok (done.reverse, c)
  | fuel + 1, done, c => do
    let c ← c.need 4
    if c.atDocumentBoundary then .error (c.failure .documentMarkInQuotes)
    else if c.rest.isEmpty then .error (c.failure .endOfStream)
    else
      let (done, gap, c) ← readQuotedWord single (c.size + 1) done c
      let c ← c.need 1
      if !gap.broken && c.rest.head? == some (if single then '\x27' else '\x22') then
        return (done.reverse, c.skip 1)
      else
        let (gap, c) ← gap.read none (c.size + 1) c
        readQuotedFrom single fuel (gap.text.reverse ++ done) c

def readQuoted (single : Bool) (c : Cursor) : Except SyntaxError (List Char × Cursor) :=
  readQuotedFrom single (c.size + 1) [] (c.skip 1)

inductive Chomping where
  | strip
  | clip
  | keep
  deriving DecidableEq

def chomping? : Char → Option Chomping
  | '-' => some .strip
  | '+' => some .keep
  | _ => none

def indentDigit? (ch : Char) : Option Nat :=
  if '0' ≤ ch && ch ≤ '9' then some (ch.toNat - '0'.toNat) else none

def skipIndentDigit (n : Nat) (c : Cursor) : Except SyntaxError Cursor :=
  if n = 0 then .error (c.failure .zeroIndent) else (c.skip 1).need 1

def readHeader (c : Cursor) : Except SyntaxError (Chomping × Option Nat × Cursor) := do
  let c ← c.need 1
  match c.rest.head?.bind chomping?, c.rest.head?.bind indentDigit? with
  | some chomping, _ =>
    let c ← (c.skip 1).need 1
    match c.rest.head?.bind indentDigit? with
    | some n => return (chomping, some n, ← skipIndentDigit n c)
    | none => return (chomping, none, c)
  | none, some n =>
    let c ← skipIndentDigit n c
    match c.rest.head?.bind chomping? with
    | some chomping => return (chomping, some n, ← (c.skip 1).need 1)
    | none => return (.clip, some n, c)
  | none, none => return (.clip, none, c)

def readEmptyLines (indent : Nat) :
    Nat → Nat → List Char → Cursor → Except SyntaxError (List Char × Nat × Cursor)
  | 0, widest, breaks, c => .ok (breaks, widest, c)
  | fuel + 1, widest, breaks, c => do
    let c ← c.need 1
    let spaces := (c.rest.takeWhile (· == ' ')).length
    let c ← Cursor.advance 1 (if indent = 0 then spaces else min spaces (indent - c.column)) c
    let widest := max widest c.column
    if (indent = 0 || c.column < indent) && c.rest.head? == some '\t' then
      .error (c.failure .tabIndent)
    else if c.rest.isEmpty || !endsLine c.rest then return (breaks, widest, c)
    else
      let (text, c) := (← c.need 2).breakLine
      readEmptyLines indent fuel widest (breaks ++ text) c

/-- The lines of a block scalar so far; the text of all but the last break stands last character
first. -/
structure BlockLines where
  done : List Char := []
  lastBreak : List Char := []
  emptyLines : List Char := []
  blankStart : Bool := false

/-- The text with the breaks before a next line. A folded break between two lines that do not start
with a blank reads as a space, or as nothing when empty lines follow it. -/
def BlockLines.opened (b : BlockLines) (literal blank : Bool) : List Char :=
  let folded := !literal && !b.blankStart && !blank && b.lastBreak.head? == some '\n'
  let gap := if folded then (if b.emptyLines.isEmpty then [' '] else []) else b.lastBreak
  b.emptyLines.reverse ++ (gap.reverse ++ b.done)

def readBlockLines (literal : Bool) (indent : Nat) :
    Nat → BlockLines → Cursor → Except SyntaxError (BlockLines × Cursor)
  | 0, b, c => .ok (b, c)
  | fuel + 1, b, c =>
    match c.rest with
    | [] => .ok (b, c)
    | ch :: _ =>
      if c.column != indent then .ok (b, c)
      else do
        let blank := isSpaceOrTab ch
        let (line, c) ← c.takeWhile fun ch => !isLineBreak ch
        let (lastBreak, c) := (← c.need 2).breakLine
        let (emptyLines, _, c) ← readEmptyLines indent (c.size + 1) 0 [] c
        readBlockLines literal indent fuel
          ⟨line.reverse ++ b.opened literal blank, lastBreak, emptyLines, blank⟩ c

def readBlock (literal : Bool) (parentIndent : Int) (c : Cursor) :
    Except SyntaxError (List Char × Cursor) := do
  let (chomping, digit, c) ← readHeader (c.skip 1)
  let (_, c) ← c.takeWhile isSpaceOrTab
  let c ← c.skipComment
  if !endsLine c.rest then .error (c.failure .noLineBreak)
  else
    let c ← c.skipBreak
    let given := (digit.map fun n => (max parentIndent 0).toNat + n).getD 0
    let (emptyLines, widest, c) ← readEmptyLines given (c.size + 1) 0 [] c
    let indent := if given = 0 then max (max widest (parentIndent + 1).toNat) 1 else given
    let (b, c) ← readBlockLines literal indent (c.size + 1) { emptyLines } c
    let tail := match chomping with
      | .strip => []
      | .clip => b.lastBreak
      | .keep => b.lastBreak ++ b.emptyLines
    return (b.done.reverse ++ tail, c)

end Scalar

end StoryFlow.Document
