import StoryFlow.Document.Token

/-! Documents as trees. A scalar knows whether it was written plain, since only plain scalars can stand
for anything but text. Only the first document of a text is looked at. -/

namespace StoryFlow.Document

/-- Lines are counted from one. -/
inductive Node where
  | scalar (line : Nat) (text : String) (plain : Bool)
  | sequence (line : Nat) (items : List Node)
  | mapping (line : Nat) (entries : List (Node × Node))
  deriving Repr, Inhabited

namespace Node

def line : Node → Nat
  | .scalar line _ _ | .sequence line _ | .mapping line _ => line

def nothing (line : Nat) : Node := .scalar (line + 1) "" true

/-- Whether a key merges the mapping or the mappings under it into the mapping that it stands in. -/
def isMerge : Node → Bool
  | .scalar _ text plain => plain && text == "<<"
  | _ => false

def failure (problem : SyntaxProblem) (t : Token) : SyntaxError := ⟨problem, t.line⟩

/-- The first of the remaining tokens. There always is one before the end of the stream. -/
def peek : List Token → Except SyntaxError Token
  | [] => .error ⟨.endOfStream, 0⟩
  | t :: _ =>
    match t.kind with
    | .invalid e => .error e
    | _ => .ok t

mutual

/-- Reads a node. In block context it can be a block collection; as the value of a key it can be a
sequence whose dashes stand at the column of the key. -/
def read (block indentless : Bool) : Nat → List Token → Except SyntaxError (Node × List Token)
  | 0, ts => do .error (failure .noNode (← peek ts))
  | fuel + 1, ts => do
    let t ← peek ts
    let line := t.line + 1
    match t.kind with
    | .scalar text plain => return (.scalar line text plain, ts.drop 1)
    | .flowSequenceStart => readFlowSequence line true [] fuel (ts.drop 1)
    | .flowMappingStart => readFlowMapping line true [] fuel (ts.drop 1)
    | .blockEntry =>
      if indentless then readIndentless line [] fuel ts else .error (failure .noNode t)
    | .blockSequenceStart =>
      if block then readBlockSequence line [] fuel (ts.drop 1) else .error (failure .noNode t)
    | .blockMappingStart =>
      if block then readBlockMapping line [] fuel (ts.drop 1) else .error (failure .noNode t)
    | _ => .error (failure .noNode t)
termination_by structural fuel => fuel

def readUnless (block indentless : Bool) (ends : List TokenKind) (line : Nat) :
    Nat → List Token → Except SyntaxError (Node × List Token)
  | 0, ts => do .error (failure .noNode (← peek ts))
  | fuel + 1, ts => do
    let t ← peek ts
    if ends.contains t.kind then return (nothing line, ts) else read block indentless fuel ts
termination_by structural fuel => fuel

def readBlockSequence (line : Nat) (items : List Node) :
    Nat → List Token → Except SyntaxError (Node × List Token)
  | 0, ts => do .error (failure .noDash (← peek ts))
  | fuel + 1, ts => do
    let t ← peek ts
    match t.kind with
    | .blockEntry =>
      let (item, ts) ← readUnless true false [.blockEntry, .blockEnd] t.line fuel (ts.drop 1)
      readBlockSequence line (item :: items) fuel ts
    | .blockEnd => return (.sequence line items.reverse, ts.drop 1)
    | _ => .error (failure .noDash t)
termination_by structural fuel => fuel

def readIndentless (line : Nat) (items : List Node) :
    Nat → List Token → Except SyntaxError (Node × List Token)
  | 0, ts => do .error (failure .noDash (← peek ts))
  | fuel + 1, ts => do
    let t ← peek ts
    match t.kind with
    | .blockEntry =>
      let (item, ts) ←
        readUnless true false [.blockEntry, .key, .value, .blockEnd] t.line fuel (ts.drop 1)
      readIndentless line (item :: items) fuel ts
    | _ => return (.sequence line items.reverse, ts)
termination_by structural fuel => fuel

def readBlockMapping (line : Nat) (entries : List (Node × Node)) :
    Nat → List Token → Except SyntaxError (Node × List Token)
  | 0, ts => do .error (failure .noKey (← peek ts))
  | fuel + 1, ts => do
    let t ← peek ts
    match t.kind with
    | .key =>
      let (key, ts) ← readUnless true true [.key, .value, .blockEnd] t.line fuel (ts.drop 1)
      let (value, ts) ← readBlockValue fuel ts
      readBlockMapping line ((key, value) :: entries) fuel ts
    | .blockEnd => return (.mapping line entries.reverse, ts.drop 1)
    | _ => .error (failure .noKey t)
termination_by structural fuel => fuel

def readBlockValue : Nat → List Token → Except SyntaxError (Node × List Token)
  | 0, ts => do .error (failure .noKey (← peek ts))
  | fuel + 1, ts => do
    let t ← peek ts
    match t.kind with
    | .value => readUnless true true [.key, .value, .blockEnd] t.line fuel (ts.drop 1)
    | _ => return (nothing t.line, ts)
termination_by structural fuel => fuel

def readFlowValue (close : TokenKind) : Nat → List Token → Except SyntaxError (Node × List Token)
  | 0, ts => do .error (failure .noNode (← peek ts))
  | fuel + 1, ts => do
    let t ← peek ts
    match t.kind with
    | .value =>
      let next ← peek (ts.drop 1)
      readUnless false false [.flowEntry, close] next.line fuel (ts.drop 1)
    | _ => return (nothing t.line, ts)
termination_by structural fuel => fuel

def readFlowSequence (line : Nat) (first : Bool) (items : List Node) :
    Nat → List Token → Except SyntaxError (Node × List Token)
  | 0, ts => do .error (failure .noSequenceEnd (← peek ts))
  | fuel + 1, ts => do
    let t ← peek ts
    match t.kind, first with
    | .flowSequenceEnd, _ => return (.sequence line items.reverse, ts.drop 1)
    | .flowEntry, false => readFlowItem line items fuel (ts.drop 1)
    | _, false => .error (failure .noSequenceEnd t)
    | _, true => readFlowItem line items fuel ts
termination_by structural fuel => fuel

/-- An item of a flow sequence. A single pair is a mapping. A pair without a key loses the token behind
the mark of the key. -/
def readFlowItem (line : Nat) (items : List Node) :
    Nat → List Token → Except SyntaxError (Node × List Token)
  | 0, ts => do .error (failure .noSequenceEnd (← peek ts))
  | fuel + 1, ts => do
    let t ← peek ts
    match t.kind with
    | .flowSequenceEnd => return (.sequence line items.reverse, ts.drop 1)
    | .key =>
      let next ← peek (ts.drop 1)
      let (key, ts) ←
        if [.value, .flowEntry, .flowSequenceEnd].contains next.kind then
          pure (nothing next.line, ts.drop 2)
        else read false false fuel (ts.drop 1)
      let (value, ts) ← readFlowValue .flowSequenceEnd fuel ts
      readFlowSequence line false (.mapping (t.line + 1) [(key, value)] :: items) fuel ts
    | _ =>
      let (item, ts) ← read false false fuel ts
      readFlowSequence line false (item :: items) fuel ts
termination_by structural fuel => fuel

def readFlowMapping (line : Nat) (first : Bool) (entries : List (Node × Node)) :
    Nat → List Token → Except SyntaxError (Node × List Token)
  | 0, ts => do .error (failure .noMappingEnd (← peek ts))
  | fuel + 1, ts => do
    let t ← peek ts
    match t.kind, first with
    | .flowMappingEnd, _ => return (.mapping line entries.reverse, ts.drop 1)
    | .flowEntry, false => readFlowPair line entries fuel (ts.drop 1)
    | _, false => .error (failure .noMappingEnd t)
    | _, true => readFlowPair line entries fuel ts
termination_by structural fuel => fuel

/-- A pair of a flow mapping. A lone node is a key without a value. -/
def readFlowPair (line : Nat) (entries : List (Node × Node)) :
    Nat → List Token → Except SyntaxError (Node × List Token)
  | 0, ts => do .error (failure .noMappingEnd (← peek ts))
  | fuel + 1, ts => do
    let t ← peek ts
    match t.kind with
    | .flowMappingEnd => return (.mapping line entries.reverse, ts.drop 1)
    | .key =>
      let next ← peek (ts.drop 1)
      let (key, ts) ←
        readUnless false false [.value, .flowEntry, .flowMappingEnd] next.line fuel (ts.drop 1)
      let (value, ts) ← readFlowValue .flowMappingEnd fuel ts
      readFlowMapping line false ((key, value) :: entries) fuel ts
    | _ =>
      let (key, ts) ← read false false fuel ts
      let next ← peek ts
      readFlowMapping line false ((key, nothing next.line) :: entries) fuel ts
termination_by structural fuel => fuel

end

def ofTokens (ts : List Token) : Except SyntaxError (Option Node) := do
  let fuel := 4 * ts.length + 8
  let t ← peek ts
  match t.kind with
  | .streamEnd => return none
  | .documentStart =>
    let next ← peek (ts.drop 1)
    let (root, rest) ←
      readUnless true false [.documentStart, .documentEnd, .streamEnd] next.line fuel (ts.drop 1)
    let _ ← peek rest
    return some root
  | _ =>
    let (root, rest) ← read true false fuel ts
    let _ ← peek rest
    return some root

def ofText (text : String) : Except SyntaxError (Option Node) := ofTokens (tokens text)

end Node

end StoryFlow.Document
