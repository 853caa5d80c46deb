import StoryFlow.Text.Blank

/-! Identifiers made from free text: words in lower case joined by underscores. A change between
upper case, lower case and digits ends a word; a run of capitals is one word. -/

namespace StoryFlow.Text

def isCapital (c : Char) : Bool := 'A' ≤ c && c ≤ 'Z'
def isSmall (c : Char) : Bool := 'a' ≤ c && c ≤ 'z'
def isDecimalDigit (c : Char) : Bool := '0' ≤ c && c ≤ '9'

def isSeparator (c : Char) : Bool := c == ' ' || c == '_' || c == '-' || c == '.'

def snakeChar (before : Option Char) (c : Char) (after : Option Char) : List Char :=
  let lowered := c.toLower
  let separated := if isSeparator lowered then ['_'] else [lowered]
  match after with
  | none => separated
  | some next =>
    let boundary :=
      (isCapital c && (isSmall next || isDecimalDigit next)) ||
      (isSmall c && (isCapital next || isDecimalDigit next)) ||
      (isDecimalDigit c && (isCapital next || isSmall next))
    if boundary then
      let opening := isCapital c && isSmall next && before.any isCapital
      let closing := isSmall c || isDecimalDigit c || isDecimalDigit next
      (if opening then ['_'] else []) ++ lowered :: (if closing then ['_'] else [])
    else separated

def snakeFrom (before : Option Char) : List Char → List Char
  | [] => []
  | c :: rest => snakeChar before c rest.head? ++ snakeFrom (some c) rest

def snakeCase (s : String) : List Char := snakeFrom none (trimBlank s.toList)

/-- A name that can stand unquoted in a graph description: small letters, digits and underscores,
not empty and not starting with a digit. -/
def graphIdentifier (s : String) : String :=
  let cs := (snakeCase s).map fun c =>
    if c == '_' || isSmall c || isDecimalDigit c then c else '_'
  match cs with
  | [] => "flow"
  | c :: _ => if isDecimalDigit c then "g_" ++ String.ofList cs else String.ofList cs

end StoryFlow.Text
