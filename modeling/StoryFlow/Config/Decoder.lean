import StoryFlow.Config.Reading

/-! What stories are read with. A decoder turns a text into a document and the nodes of the document into
values of the types that are asked for. -/

namespace StoryFlow.Config

/-- A field of a record: its name, and what a value makes of the record. -/
structure Field (Node σ : Type) where
  name : String
  read : Node → σ → Reading σ

/-- A key of a statement: a text, or else something that is shown this way. -/
inductive StmtKey where
  | text (s : String)
  | other (shown : String)

structure Decoder where
  Node : Type
  /-- The first document of a text, if there is one. -/
  parse : String → Except Document.SyntaxError (Option Node)
  /-- Nodes inside a node have smaller depths. -/
  depth : Node → Nat
  readText : Node → Reading String
  /-- A text that may be left out. -/
  readOptionalText : Node → Reading (Option String)
  readFlag : Node → Reading Bool
  readNumber : Node → Reading Float
  /-- A list of a type, or `none` where nothing is given. -/
  readList {α : Type} (type : String) (item : Node → Reading α) : Node → Reading (Option (List α))
  /-- A value of a type that may be left out. -/
  readOptional {α : Type} (type : String) (read : Node → Reading α) : Node → Reading (Option α)
  /-- A record of a type. What is given is added to what the record was before; a record of which nothing
  is given is empty. -/
  readRecord {σ : Type} (type : String) (fields : List (Field Node σ)) (empty before : σ) :
    Node → Reading σ
  /-- The keys of a mapping in the order in which they are written. -/
  readKeys : Node → Reading (List StmtKey)

namespace Decoder

variable (D : Decoder) {σ : Type}

def readTexts : D.Node → Reading (Option (List String)) := D.readList "[]string" D.readText

def readPart (type : String) (fields : List (Field D.Node σ)) (empty : σ) (before : Option σ) :
    D.Node → Reading (Option σ) :=
  D.readOptional type (D.readRecord type fields empty (before.getD empty))

def readRecords (type : String) (fields : List (Field D.Node σ)) (empty : σ) (n : D.Node) :
    Reading (List (Option σ)) := do
  return (← D.readList ("[]*" ++ type) (D.readPart type fields empty none) n).getD []

end Decoder

end StoryFlow.Config
