import StoryFlow.Names
import StoryFlow.Text.Decimal

/-! Declarations. An outcome is assigned one of its options; a spectrum is adjusted, and its band
follows from the ratio of the positive adjustments. A symbol table holds the declared variables,
whose names are distinct across both kinds, and the scenes. -/

namespace StoryFlow

inductive VarKind where
  | outcome
  | spectrum
  deriving DecidableEq, Repr

namespace VarKind

def name : VarKind → String
  | .outcome => "outcome"
  | .spectrum => "spectrum"

def ofCode? : Int → Option VarKind
  | 0 => some .outcome
  | 1 => some .spectrum
  | _ => none

def describe (code : Int) : String :=
  match ofCode? code with
  | some kind => kind.name
  | none => "VarKind(" ++ toString code ++ ")"

end VarKind

/-- The empty fallback means that there is none. -/
structure Outcome where
  name : String
  options : List String
  fallback : String := ""
  deriving DecidableEq, Repr

structure Band where
  name : String
  threshold : Float
  deriving Repr

/-- The bands are in increasing order; the last one takes whatever the others leave. -/
structure Spectrum where
  name : String
  bands : List Band
  fallback : String := ""
  deriving Repr

def withFallback (declaration fallback : String) : String :=
  if fallback.isEmpty then declaration else declaration ++ " default " ++ fallback

def Outcome.declaration (o : Outcome) : String :=
  withFallback ("outcome " ++ o.name ++ "(" ++ String.intercalate ", " o.options ++ ")") o.fallback

namespace Spectrum

def bandTexts : List Band → List String
  | [] => []
  | [band] => [band.name]
  | band :: rest => (band.name ++ " " ++ Text.Decimal.general band.threshold) :: bandTexts rest

def declaration (s : Spectrum) : String :=
  withFallback
    ("spectrum " ++ s.name ++ "(" ++ String.intercalate ", " (bandTexts s.bands) ++ ")") s.fallback

def bandAt (ratio : Float) : List Band → String
  | [] => ""
  | [band] => band.name
  | band :: rest => if ratio ≤ band.threshold then band.name else bandAt ratio rest

/-- The band chosen by the adjustments so far, and the fallback when there were none. -/
def select (s : Spectrum) (positive total : Int64) : String :=
  if total ≤ 0 || s.bands.isEmpty then s.fallback
  else bandAt (positive.toFloat / total.toFloat) s.bands

end Spectrum

inductive Variable where
  | outcome (o : Outcome)
  | spectrum (s : Spectrum)
  deriving Repr

namespace Variable

def name : Variable → String
  | .outcome o => o.name
  | .spectrum s => s.name

def kind : Variable → VarKind
  | .outcome _ => .outcome
  | .spectrum _ => .spectrum

def optionNames : Variable → List String
  | .outcome o => o.options
  | .spectrum s => s.bands.map Band.name

def hasFallback : Variable → Bool
  | .outcome o => !o.fallback.isEmpty
  | .spectrum s => !s.fallback.isEmpty

def declaration : Variable → String
  | .outcome o => o.declaration
  | .spectrum s => s.declaration

end Variable

structure SceneSymbol where
  name : String
  chapter : Bool
  deriving DecidableEq, Repr

/-- A table is unprepared until the first declaration or until it is prepared on purpose. -/
structure SymbolTable where
  outcomes : List Outcome := []
  spectrums : List Spectrum := []
  scenes : List SceneSymbol := []
  prepared : Bool := true
  deriving Repr

inductive SymbolError where
  | variableDeclared (name : String)
  | sceneDeclared (name : String)
  deriving DecidableEq, Repr

def SymbolError.message : SymbolError → String
  | .variableDeclared name => "variable `" ++ name ++ "` is already declared"
  | .sceneDeclared name => "scene `" ++ name ++ "` is already declared"

namespace SymbolTable

def empty : SymbolTable := {}

def unprepared : SymbolTable := { prepared := false }

def prepare (t : SymbolTable) : SymbolTable := { t with prepared := true }

def copy (t : SymbolTable) : SymbolTable := t.prepare

def outcome? (t : SymbolTable) (name : String) : Option Outcome :=
  t.outcomes.find? (·.name == name)

def spectrum? (t : SymbolTable) (name : String) : Option Spectrum :=
  t.spectrums.find? (·.name == name)

def scene? (t : SymbolTable) (name : String) : Option SceneSymbol :=
  t.scenes.find? (·.name == name)

def declared? (t : SymbolTable) (name : String) : Option Variable :=
  match t.outcome? name with
  | some o => some (.outcome o)
  | none => (t.spectrum? name).map .spectrum

def addOutcome (t : SymbolTable) (o : Outcome) : Except SymbolError SymbolTable :=
  if (t.declared? o.name).isSome then .error (.variableDeclared o.name)
  else .ok { t.prepare with outcomes := t.outcomes ++ [o] }

def addSpectrum (t : SymbolTable) (s : Spectrum) : Except SymbolError SymbolTable :=
  if (t.declared? s.name).isSome then .error (.variableDeclared s.name)
  else .ok { t.prepare with spectrums := t.spectrums ++ [s] }

def addScene (t : SymbolTable) (s : SceneSymbol) : Except SymbolError SymbolTable :=
  if (t.scene? s.name).isSome then .error (.sceneDeclared s.name)
  else .ok { t.prepare with scenes := t.scenes ++ [s] }

def variableNames (t : SymbolTable) : List String :=
  Names.sorted (t.outcomes.map Outcome.name ++ t.spectrums.map Spectrum.name)

end SymbolTable

end StoryFlow
