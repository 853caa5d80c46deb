import StoryFlow.Config.Decoder
import StoryFlow.Document.Datum

/-! The decoder of the documents that are read as trees. It is strict: fields that are not known and
fields that are given twice are issues. A merge key is not a field; what it merges is read into the record
or the map that it stands in, and must be a mapping or a sequence of mappings. -/

namespace StoryFlow.Config

open Document

/-- The first bytes of a text. Where the cut goes through a character, every byte left of it is shown
by a replacement character. -/
def firstBytes : Nat → List Char → List Char
  | 0, _ => []
  | _, [] => []
  | count, c :: rest =>
    if c.utf8Size ≤ count then c :: firstBytes (count - c.utf8Size) rest
    else List.replicate count '\ufffd'

def clipped (text : String) : String :=
  if text.utf8ByteSize ≤ 10 then text else String.ofList (firstBytes 7 text.toList) ++ "..."

def describe : Node → String
  | .scalar _ text plain =>
    (Node.valueOf text plain).tag ++ " `" ++ clipped text ++ "`"
  | .sequence _ _ => "!!seq"
  | .mapping _ _ => "!!map"

def mismatch (n : Node) (target : String) : Reading Unit :=
  report (.mismatch n.line (describe n) target)

def isNull : Node → Bool
  | .scalar _ text plain =>
    match Node.valueOf text plain with
    | .null => true
    | _ => false
  | _ => false

/-- The spellings that leave a value out: a tilde and the small `null`, also in quotes, and nothing. -/
def leavesOut : Node → Bool
  | .scalar _ text plain => text == "null" || text == "~" || (text.isEmpty && plain)
  | _ => false

def readText (n : Node) : Reading String :=
  match n with
  | .scalar _ text _ => return if isNull n then "" else text
  | _ => do mismatch n "string"; return ""

/-- The capital spellings of `null` give an empty text. -/
def readOptionalText (n : Node) : Reading (Option String) :=
  if isNull n && leavesOut n then return none else some <$> readText n

def readFlag (n : Node) : Reading Bool :=
  match n with
  | .scalar _ text plain =>
    match Node.valueOf text plain with
    | .bool b => return b
    | .null => return false
    | _ => do mismatch n "bool"; return false
  | _ => do mismatch n "bool"; return false

def readNumber (n : Node) : Reading Float :=
  match n with
  | .scalar _ text plain =>
    let v := Node.valueOf text plain
    match v.toFloat?, v with
    | some x, _ => return x
    | none, .null => return 0.0
    | none, _ => do mismatch n "float64"; return 0.0
  | _ => do mismatch n "float64"; return 0.0

def readList {α : Type} (type : String) (item : Node → Reading α) (n : Node) :
    Reading (Option (List α)) :=
  match n with
  | .sequence _ items => some <$> items.mapM item
  | _ => do
    if isNull n then return none
    else
      mismatch n type
      return none

def readOptional {α : Type} (type : String) (read : Node → Reading α) (n : Node) :
    Reading (Option α) :=
  if leavesOut n then do
    if isNull n then return none
    else
      mismatch n ("*" ++ type)
      return none
  else some <$> read n

def fieldName (key : Node) : Reading (Option String) :=
  match key with
  | .scalar _ _ _ => some <$> readText key
  | _ => do mismatch key "string"; return none

section Records

variable {σ : Type} (type : String) (fields : List (Field Node σ))

def readField (seen : List String) (key value : Node) (r : σ) : Reading (List String × σ) := do
  match ← fieldName key with
  | none => return (seen, r)
  | some name =>
    match fields.find? (·.name == name) with
    | none =>
      report (.unknownField key.line name type)
      return (seen, r)
    | some field =>
      if seen.contains name then
        report (.repeatedField key.line name type)
        return (seen, r)
      else return (name :: seen, ← field.read value r)

def noMergedMapping {α : Type} : Reading α := .ended (.malformed ⟨.noMergedMapping, 0⟩)

mutual

/-- Reads the entries of a mapping, where some fields were given before. -/
def readEntries : List String → List (Node × Node) → σ → Reading σ
  | _, [], r => return r
  | seen, (key, value) :: rest, r => do
    if key.isMerge then readEntries seen rest (← readMerged value r)
    else
      let (seen, r) ← readField type fields seen key value r
      readEntries seen rest r

def readMerged : Node → σ → Reading σ
  | .mapping _ entries, r => readEntries [] entries r
  | .sequence _ items, r => readMergedItems items r
  | .scalar _ _ _, _ => noMergedMapping

/-- The last item comes first, so that the items before it overwrite what it gives. -/
def readMergedItems : List Node → σ → Reading σ
  | [], r => return r
  | .mapping _ entries :: rest, r => do readEntries [] entries (← readMergedItems rest r)
  | _ :: rest, r => do
    let _ ← readMergedItems rest r
    noMergedMapping

end

def readRecord (empty before : σ) (n : Node) : Reading σ :=
  match n with
  | .mapping _ entries => readEntries type fields [] entries before
  | _ => do
    if isNull n then return empty
    else
      mismatch n type
      return before

end Records

def readDatum (n : Node) : Reading Datum :=
  match (Datum.ofNode n).run [] with
  | .error (.keyNotScalar key) => .ended (.keyNotScalar key.spelled)
  | .error .noMergedMapping => noMergedMapping
  | .ok (d, repeated) => .read d (repeated.map fun r => .repeatedKey r.line r.key.spelledKey)

def StmtKey.ofNode (n : Node) : StmtKey :=
  match n with
  | .scalar _ written plain =>
    match Node.valueOf written plain with
    | .text | .timestamp => .text written
    | _ => .other n.display
  | _ => .other n.display

def StmtKey.ofDatum : Datum → StmtKey
  | .text s => .text s
  | d => .other d.display

/-- A pair that is spelled out as a record, as far as its key goes. -/
def pairFields : List (Field Node Datum) := [
  ⟨"key", fun n _ => readDatum n⟩,
  ⟨"value", fun n r => do
    let _ ← readDatum n
    return r⟩]

def isMergeable : Node → Bool
  | .scalar _ _ _ => false
  | .sequence _ items => items.all fun
    | .mapping _ _ => true
    | _ => false
  | .mapping _ _ => true

mutual

def mergesInside : Node → Bool
  | .scalar _ _ _ => true
  | .sequence _ items => mergesInItems items
  | .mapping _ entries => mergesInEntries entries

def mergesInItems : List Node → Bool
  | [] => true
  | n :: rest => mergesInside n && mergesInItems rest

def mergesInEntries : List (Node × Node) → Bool
  | [] => true
  | (key, value) :: rest =>
    (!key.isMerge || isMergeable value) && mergesInside key && mergesInside value &&
      mergesInEntries rest

end

/-- Merge keys are left out. A sequence of spelled-out pairs has keys too. Without any keys there may have
been an error. -/
def readKeys (n : Node) : Reading (List StmtKey) :=
  match n with
  | .mapping _ entries =>
    if mergesInside n then
      return (entries.filter (!·.1.isMerge)).map fun p => .ofNode p.1
    else noMergedMapping
  | .sequence _ items => do
    return (← items.mapM (readRecord "yaml.MapItem" pairFields .null .null)).map .ofDatum
  | .scalar _ _ _ => do
    if isNull n then return []
    else
      mismatch n "yaml.MapSlice"
      return []

def treeDecoder : Decoder where
  Node := Node
  parse := Node.ofText
  depth := Node.depth
  readText := readText
  readOptionalText := readOptionalText
  readFlag := readFlag
  readNumber := readNumber
  readList := readList
  readOptional := readOptional
  readRecord := readRecord
  readKeys := readKeys

end StoryFlow.Config
