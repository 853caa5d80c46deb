import StoryFlow.TextArea
import StoryFlow.Text.Quoted

/-! The bound tree of a story: scenes with bodies of statements. Menus, branches on a variable and
ifs hold bodies of their own; every other statement is a single action. -/

namespace StoryFlow

inductive MenuKind where
  | switch
  | choose
  | loopSwitch
  deriving DecidableEq, Repr

namespace MenuKind

def name : MenuKind → String
  | .switch => "switch"
  | .choose => "choose"
  | .loopSwitch => "loopswitch"

def code : MenuKind → Nat
  | .switch => 0
  | .choose => 1
  | .loopSwitch => 2

def ofCode? : Int → Option MenuKind
  | 0 => some .switch
  | 1 => some .choose
  | 2 => some .loopSwitch
  | _ => none

def describe (n : Int) : String :=
  match ofCode? n with
  | some kind => kind.name
  | none => "MenuKind(" ++ toString n ++ ")"

end MenuKind

inductive Action where
  | output (text : String)
  | line (speaker text : String)
  | run (method : String) (args : Option (List String))
  | call (scene : String)
  | declareOutcome (name : String)
  | declareSpectrum (name : String)
  | assign (name option : String)
  | adjust (name : String) (positive : Bool)
  | checkpoint (name : String) (implicit : Bool)
  deriving DecidableEq, Repr

mutual

inductive Stmt where
  | plain (area : TextArea) (action : Action)
  | menu (area : TextArea) (kind : MenuKind) (prompt : String) (options : List MenuOption)
  | branchOn (area : TextArea) (name : String) (cases : List BranchCase)
  | ifElse (area : TextArea) (branches : List IfBranch) (hasElse : Bool) (elseBody : List Stmt)

/-- A loop option returns to the prompt when its body is done. -/
structure MenuOption where
  area : TextArea
  label : String
  loop : Bool
  body : List Stmt

/-- A case names options, or it is the catch-all. -/
structure BranchCase where
  area : TextArea
  options : Option (List String)
  other : Bool
  body : List Stmt

structure IfBranch where
  condition : String
  body : List Stmt

end

structure Scene where
  area : TextArea
  name : String
  chapter : Bool
  body : List Stmt

/-- The empty entry means the first scene. -/
structure Story where
  scenes : List Scene
  entry : String := ""

namespace Action

def visible : Action → Bool
  | .output _ | .line _ _ | .run _ _ | .checkpoint _ _ => true
  | _ => false

def label : Action → String
  | .output text => "output(" ++ Text.quoted text ++ ")"
  | .line speaker text => "line(" ++ speaker ++ ": " ++ Text.quoted text ++ ")"
  | .run method args =>
    "run(" ++ method ++ "(" ++ String.intercalate ", " (args.getD []) ++ "))"
  | .call scene => "call(" ++ scene ++ ")"
  | .declareOutcome name => "outcome(" ++ name ++ ")"
  | .declareSpectrum name => "spectrum(" ++ name ++ ")"
  | .assign name option => name ++ " = " ++ option
  | .adjust name positive =>
    (if positive then "strengthen(" else "weaken(") ++ name ++ ")"
  | .checkpoint name _ => if name.isEmpty then "checkpoint" else "checkpoint(" ++ name ++ ")"

end Action

namespace Stmt

def area : Stmt → TextArea
  | .plain area _ | .menu area _ _ _ | .branchOn area _ _ | .ifElse area _ _ _ => area

def visible : Stmt → Bool
  | .plain _ action => action.visible
  | .menu _ _ _ _ | .branchOn _ _ _ => true
  | .ifElse _ _ _ _ => false

def label : Stmt → String
  | .plain _ action => action.label
  | .menu _ kind _ options => kind.name ++ "(" ++ Nat.repr options.length ++ " options)"
  | .branchOn _ name _ => "branchon(" ++ name ++ ")"
  | .ifElse _ branches hasElse _ =>
    "if(" ++ Nat.repr branches.length ++ (if hasElse then " branches, else)" else " branches)")

def callee? : Stmt → Option String
  | .plain _ (.call scene) => some scene
  | _ => none

end Stmt

namespace BranchCase

def optionNames (c : BranchCase) : List String := c.options.getD []

def label (c : BranchCase) : String :=
  if c.other then "case(other)"
  else "case(" ++ String.intercalate ", " c.optionNames ++ ")"

end BranchCase

def MenuOption.caption (o : MenuOption) : String :=
  "option(" ++ Text.quoted o.label ++ (if o.loop then ", loop)" else ")")

def IfBranch.label (b : IfBranch) : String := "when(" ++ b.condition ++ ")"

def Scene.label (s : Scene) : String :=
  (if s.chapter then "chapter(" else "scene(") ++ s.name ++ ")"

namespace Story

def label (s : Story) : String := "story(" ++ Nat.repr s.scenes.length ++ " scenes)"

def scene? (s : Story) (name : String) : Option Scene := s.scenes.find? (·.name == name)

def entryScene? (s : Story) : Option Scene :=
  if s.entry.isEmpty then s.scenes.head? else s.scene? s.entry

end Story

end StoryFlow
