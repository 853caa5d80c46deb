import StoryFlow.Document.Node
import StoryFlow.Text.Decimal
import StoryFlow.Text.Identifier

/-! What plain scalars stand for: nothing, a truth value, an integer of 64 bits, a number, a point in
time, or else their text. -/

namespace StoryFlow.Document

inductive Value where
  | null
  | bool (b : Bool)
  | int (n : Int)
  | float (x : Float)
  | timestamp
  | text
  deriving Repr

namespace Value

def tag : Value → String
  | .null => "!!null"
  | .bool _ => "!!bool"
  | .int _ => "!!int"
  | .float _ => "!!float"
  | .timestamp => "!!timestamp"
  | .text => "!!str"

def infinity : Float := 1.0 / 0.0

def notANumber : Float := 0.0 / 0.0

def words : List (String × Value) :=
  ["", "~", "null", "Null", "NULL"].map (·, .null) ++
  ["y", "Y", "yes", "Yes", "YES", "true", "True", "TRUE", "on", "On", "ON"].map (·, .bool true) ++
  ["n", "N", "no", "No", "NO", "false", "False", "FALSE", "off", "Off", "OFF"].map
    (·, .bool false) ++
  [".nan", ".NaN", ".NAN"].map (·, .float notANumber) ++
  [".inf", ".Inf", ".INF", "+.inf", "+.Inf", "+.INF"].map (·, .float infinity) ++
  ["-.inf", "-.Inf", "-.INF"].map (·, .float (-infinity))

def digitValue (c : Char) : Nat :=
  if Text.isDecimalDigit c then c.toNat - '0'.toNat
  else if Text.isSmall c then c.toNat - 'a'.toNat + 10
  else if Text.isCapital c then c.toNat - 'A'.toNat + 10
  else 36

def ofDigits? (base : Nat) (digits : List Char) : Option Nat :=
  digits.foldlM (fun n c => if digitValue c < base then some (base * n + digitValue c) else none) 0

/-- The size of an integer. A leading zero marks an octal number, a letter behind it another base. -/
def readSize? : List Char → Option Nat
  | [] => none
  | ['0'] => some 0
  | ['0', c] => ofDigits? 8 [c]
  | '0' :: mark :: digits =>
    if mark == 'b' || mark == 'B' then ofDigits? 2 digits
    else if mark == 'o' || mark == 'O' then ofDigits? 8 digits
    else if mark == 'x' || mark == 'X' then ofDigits? 16 digits
    else ofDigits? 8 (mark :: digits)
  | digits => ofDigits? 10 digits

def negative? (n : Nat) : Option Int := if n ≤ UInt64.size / 2 then some (-(n : Int)) else none

def positive? (signed : Bool) (n : Nat) : Option Int :=
  if n < (if signed then UInt64.size / 2 else UInt64.size) then some n else none

/-- An integer of 64 bits. The sign of a binary number can also stand behind its mark. -/
def readInt? (cs : List Char) : Option Int :=
  match cs with
  | '-' :: size => (readSize? size).bind negative?
  | '+' :: size => (readSize? size).bind (positive? true)
  | '0' :: 'b' :: '-' :: c :: size => (ofDigits? 2 (c :: size)).bind negative?
  | '0' :: 'b' :: '+' :: c :: size => (ofDigits? 2 (c :: size)).bind (positive? true)
  | size => (readSize? size).bind (positive? false)

structure DecimalParts where
  negative : Bool
  whole : List Char
  fraction : List Char
  exponent : Int

def readSign : List Char → Bool × List Char
  | '-' :: rest => (true, rest)
  | '+' :: rest => (false, rest)
  | cs => (false, cs)

def readExponent? : List Char → Option Int
  | [] => some 0
  | mark :: rest =>
    let (negative, digits) := readSign rest
    if (mark == 'e' || mark == 'E') && !digits.isEmpty && digits.all Text.isDecimalDigit then
      (ofDigits? 10 digits).map fun n => if negative then -(n : Int) else n
    else none

def readDecimal? (cs : List Char) : Option DecimalParts :=
  let (negative, cs) := readSign cs
  let whole := cs.takeWhile Text.isDecimalDigit
  let rest := cs.drop whole.length
  let (fraction, rest) := match rest with
    | '.' :: rest => (rest.takeWhile Text.isDecimalDigit, rest.dropWhile Text.isDecimalDigit)
    | rest => ([], rest)
  if whole.isEmpty && fraction.isEmpty then none
  else (readExponent? rest).map fun exponent => { negative, whole, fraction, exponent }

def DecimalParts.toFloat (d : DecimalParts) : Float :=
  let digits := d.whole ++ d.fraction
  let size := (ofDigits? 10 digits).getD 0
  let exponent := d.exponent - d.fraction.length
  let limit : Int := 400 + digits.length
  let x :=
    if size = 0 then 0.0
    else if exponent < 0 then Float.ofScientific size true (min (-exponent) limit).toNat
    else Float.ofScientific size false (min exponent limit).toNat
  if d.negative then -x else x

def readFloat? (cs : List Char) : Option Float :=
  (readDecimal? cs).bind fun d => if d.toFloat.isInf then none else some d.toFloat

def separatesDigits : List Char → Bool
  | [] => true
  | c :: '_' :: d :: rest =>
    Text.isDecimalDigit c && Text.isDecimalDigit d && separatesDigits (d :: rest)
  | c :: rest => c != '_' && !(rest == ['_']) && separatesDigits rest

def daysOf (year month : Nat) : Nat :=
  if month = 2 then
    if year % 4 = 0 && (year % 100 != 0 || year % 400 = 0) then 29 else 28
  else if [4, 6, 9, 11].contains month then 30 else 31

def readShort? (cs : List Char) : Option (Nat × List Char) :=
  let digits := (cs.take 2).takeWhile Text.isDecimalDigit
  if digits.isEmpty then none else some ((ofDigits? 10 digits).getD 0, cs.drop digits.length)

def after? (mark : Char) : List Char → Option (List Char)
  | c :: rest => if c = mark then some rest else none
  | [] => none

def dropFraction : List Char → List Char
  | mark :: c :: rest =>
    if (mark == '.' || mark == ',') && Text.isDecimalDigit c then rest.dropWhile Text.isDecimalDigit
    else mark :: c :: rest
  | cs => cs

def afterTime? (cs : List Char) : Option (List Char) := do
  let (hour, cs) ← readShort? cs
  let (minute, cs) ← readShort? (← after? ':' cs)
  let (second, cs) ← readShort? (← after? ':' cs)
  if hour < 24 && minute < 60 && second < 60 then some (dropFraction cs) else none

def isShortUpTo (limit : Nat) (digits : List Char) : Bool :=
  digits.all Text.isDecimalDigit && (ofDigits? 10 digits).any (· ≤ limit)

/-- The distance from the common time can be as much as a whole day, and a whole hour in minutes. -/
def isZone (cs : List Char) : Bool :=
  match cs with
  | ['Z'] => true
  | [sign, a, b, ':', c, d] =>
    (sign == '+' || sign == '-') && isShortUpTo 24 [a, b] && isShortUpTo 60 [c, d]
  | _ => false

def isTimestamp (cs : List Char) : Bool :=
  let year := cs.take 4
  let date := do
    let rest ← after? '-' (cs.drop 4)
    let (month, rest) ← readShort? rest
    let (day, rest) ← readShort? (← after? '-' rest)
    return (month, day, rest)
  match date with
  | none => false
  | some (month, day, rest) =>
    let yearNumber := (ofDigits? 10 year).getD 0
    year.length == 4 && year.all Text.isDecimalDigit && 1 ≤ month && month ≤ 12 && 1 ≤ day &&
      day ≤ daysOf yearNumber month &&
      match rest with
      | [] => true
      | ' ' :: rest => afterTime? (rest.dropWhile (· == ' ')) == some []
      | mark :: rest => (mark == 'T' || mark == 't') && (afterTime? rest).any isZone

/-- A scalar that starts with a digit or a sign. Underscores between digits do not count. -/
def ofNumeral (cs : List Char) : Value :=
  if isTimestamp cs then .timestamp
  else
    let plain := cs.filter (· != '_')
    match readInt? plain, readFloat? plain with
    | some n, _ => .int n
    | none, some x => .float x
    | none, none => .text

def ofPlain (s : String) : Value :=
  match words.lookup s with
  | some v => v
  | none =>
    match s.toList with
    | '.' :: rest =>
      match readFloat? ('.' :: rest.filter (· != '_')) with
      | some x => if separatesDigits ('.' :: rest) then .float x else .text
      | none => .text
    | c :: rest =>
      if Text.isDecimalDigit c || c == '+' || c == '-' then ofNumeral (c :: rest) else .text
    | [] => .text

def toFloat? : Value → Option Float
  | .int n =>
    some (if n < 0 then (Int64.ofInt n).toFloat else (UInt64.ofNat n.toNat).toFloat)
  | .float x => some x
  | _ => none

end Value

namespace Node

/-- What a scalar stands for. Only plain ones can stand for anything but text. -/
def valueOf (text : String) (plain : Bool) : Value := if plain then .ofPlain text else .text

mutual

/-- The tree as text on one line, as it is shown in messages. Merge keys are not shown. -/
def display : Node → String
  | .scalar _ text plain =>
    match valueOf text plain with
    | .null => "<nil>"
    | .bool b => if b then "true" else "false"
    | .int n => toString n
    | .float x => Text.Decimal.general x
    | .timestamp | .text => text
  | .sequence _ items => "[" ++ String.intercalate " " (displayAll items) ++ "]"
  | .mapping _ entries => "[" ++ String.intercalate " " (displayEntries entries) ++ "]"

def displayAll : List Node → List String
  | [] => []
  | n :: rest => n.display :: displayAll rest

def displayEntries : List (Node × Node) → List String
  | [] => []
  | (key, value) :: rest =>
    if key.isMerge then displayEntries rest
    else ("\x7b" ++ key.display ++ " " ++ value.display ++ "\x7d") :: displayEntries rest

end

mutual

def depth : Node → Nat
  | .scalar _ _ _ => 1
  | .sequence _ items => depthAll items + 1
  | .mapping _ entries => depthEntries entries + 1

def depthAll : List Node → Nat
  | [] => 0
  | n :: rest => max n.depth (depthAll rest)

def depthEntries : List (Node × Node) → Nat
  | [] => 0
  | (key, value) :: rest => max (max key.depth value.depth) (depthEntries rest)

end

end Node

end StoryFlow.Document
