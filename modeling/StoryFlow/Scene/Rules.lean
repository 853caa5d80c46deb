import StoryFlow.Diagnostic
import StoryFlow.Names
import StoryFlow.Story.Stmt
import StoryFlow.Symbols

/-! The rules for menus and branches. An option shows something of its own before a nested prompt or a
call, the body of a branch does not end on a statement that nobody sees, loops have a way out, and the
cases of a branch cover every declared option exactly once. -/

namespace StoryFlow

/-- How a body can end: without a statement of its own, and on which invisible statements. -/
structure Ending where
  falls : Bool
  unseen : List Stmt

mutual

/-- The ending of a body of one statement. A call is fine, since the callee is looked at on its own. -/
def Stmt.ending : Stmt → Ending
  | .plain area action =>
    match action with
    | .call _ => ⟨false, []⟩
    | action => ⟨false, if action.visible then [] else [.plain area action]⟩
  | .menu _ _ _ _ | .branchOn _ _ _ => ⟨false, []⟩
  | .ifElse _ branches _ elseBody =>
    let first := branchEnding branches
    let last := bodyEnding elseBody
    ⟨first.falls || last.falls, first.unseen ++ last.unseen⟩

def bodyEnding : List Stmt → Ending
  | [] => ⟨true, []⟩
  | s :: rest =>
    let last := bodyEnding rest
    if last.falls then
      let before := s.ending
      ⟨before.falls, last.unseen ++ before.unseen⟩
    else last

def branchEnding : List IfBranch → Ending
  | [] => ⟨false, []⟩
  | ⟨_, body⟩ :: rest =>
    let first := bodyEnding body
    let others := branchEnding rest
    ⟨first.falls || others.falls, first.unseen ++ others.unseen⟩

end

namespace Scene

def problem (scene : String) (kind : DiagnosticKind) (area : TextArea) (names : List String)
    (message : String) : Diagnostic :=
  { kind, message, area := some area, names, chain := [scene] }

def endingProblems (scene : String) (body : List Stmt) : List Diagnostic :=
  (bodyEnding body).unseen.map fun s =>
    problem scene .invisibleEnd s.area [] ("branch body ends on " ++ s.label)

def openingProblems (scene : String) (kind : MenuKind) (label : String) (body : List Stmt) :
    List Diagnostic :=
  let opens := "option " ++ Text.quoted label ++ " of a " ++ kind.name ++ " opens with a "
  match body with
  | .menu area nested _ _ :: _ =>
    [problem scene .nestedMenu area [label] (opens ++ "nested " ++ nested.name)]
  | .plain area (.call callee) :: _ =>
    [problem scene .nestedCall area [label, callee] (opens ++ "call to " ++ callee)]
  | _ => []

def loopProblems (scene : String) (kind : MenuKind) (area : TextArea) (label : String)
    (loop : Bool) : List Diagnostic :=
  if loop && kind != .loopSwitch then
    [problem scene .loopOutsideLoopSwitch area [label]
      ("option " ++ Text.quoted label ++ " loops in a " ++ kind.name)]
  else []

def exitProblems (scene : String) (kind : MenuKind) (area : TextArea) (options : List MenuOption) :
    List Diagnostic :=
  if kind == .loopSwitch && options.all (·.loop) then
    [problem scene .noLoopExit area [] "every option of this loopswitch loops"]
  else []

/-- The catch-all problems of a case, given whether an earlier case was the catch-all and whether this
case is the last one. -/
def otherProblems (scene : String) (area : TextArea) (name : String) (seen last : Bool) :
    List Diagnostic :=
  if seen then
    [problem scene .duplicateOther area [name]
      ("branchon " ++ name ++ " has more than one other branch")]
  else if last then []
  else
    [problem scene .otherNotLast area [name]
      ("the other branch of branchon " ++ name ++ " is not last")]

def caseProblems (scene : String) (area : TextArea) (name : String) :
    Bool → List BranchCase → List Diagnostic
  | _, [] => []
  | seen, c :: rest =>
    endingProblems scene c.body ++
      (if c.other then otherProblems scene area name seen rest.isEmpty else []) ++
      caseProblems scene area name (seen || c.other) rest

def writtenOptions (cases : List BranchCase) : List String :=
  (cases.filter fun c => !c.other).flatMap BranchCase.optionNames

def optionNameProblems (scene : String) (area : TextArea) (name : String) (declared : List String) :
    List String → List String → List Diagnostic
  | _, [] => []
  | named, option :: rest =>
    if !declared.contains option then
      problem scene .unknownOption area [name, option] (option ++ " is not an option of " ++ name) ::
        optionNameProblems scene area name declared named rest
    else if named.contains option then
      problem scene .duplicateOption area [name, option]
          ("option " ++ option ++ " of " ++ name ++ " is named more than once") ::
        optionNameProblems scene area name declared named rest
    else optionNameProblems scene area name declared (option :: named) rest

def coverageProblems (scene : String) (area : TextArea) (name : String) (declared : List String)
    (cases : List BranchCase) : List Diagnostic :=
  let left := Names.without (writtenOptions cases) declared
  if cases.any (·.other) then
    if left.isEmpty then
      [problem scene .redundantOther area [name]
        ("branchon " ++ name ++ " names every option and has an other branch")]
    else []
  else if left.isEmpty then []
  else
    [problem scene .notExhaustive area (name :: left)
      ("branchon " ++ name ++ " does not handle: " ++ String.intercalate ", " left)]

/-- The problems of the options of a branch. An undeclared variable is the concern of the assignment
rules. -/
def branchProblems (table : SymbolTable) (scene : String) (area : TextArea) (name : String)
    (cases : List BranchCase) : List Diagnostic :=
  match table.declared? name with
  | none => []
  | some declaration =>
    optionNameProblems scene area name declaration.optionNames [] (writtenOptions cases) ++
      coverageProblems scene area name declaration.optionNames cases

end Scene

mutual

def Stmt.problems (table : SymbolTable) (scene : String) : Stmt → List Diagnostic
  | .plain _ _ => []
  | .menu area kind _ options =>
    if options.isEmpty then
      [Scene.problem scene .emptyMenu area [] (kind.name ++ " has no options")]
    else
      optionProblems table scene area kind options ++ Scene.exitProblems scene kind area options
  | .branchOn area name cases =>
    Scene.caseProblems scene area name false cases ++ caseBodyProblems table scene cases ++
      Scene.branchProblems table scene area name cases
  | .ifElse _ branches _ elseBody =>
    branchBodyProblems table scene branches ++ bodyProblems table scene elseBody

def bodyProblems (table : SymbolTable) (scene : String) : List Stmt → List Diagnostic
  | [] => []
  | s :: rest => s.problems table scene ++ bodyProblems table scene rest

def optionProblems (table : SymbolTable) (scene : String) (area : TextArea) (kind : MenuKind) :
    List MenuOption → List Diagnostic
  | [] => []
  | ⟨_, label, loop, body⟩ :: rest =>
    Scene.openingProblems scene kind label body ++ Scene.endingProblems scene body ++
      bodyProblems table scene body ++ Scene.loopProblems scene kind area label loop ++
      optionProblems table scene area kind rest

def caseBodyProblems (table : SymbolTable) (scene : String) : List BranchCase → List Diagnostic
  | [] => []
  | ⟨_, _, _, body⟩ :: rest => bodyProblems table scene body ++ caseBodyProblems table scene rest

def branchBodyProblems (table : SymbolTable) (scene : String) : List IfBranch → List Diagnostic
  | [] => []
  | ⟨_, body⟩ :: rest => bodyProblems table scene body ++ branchBodyProblems table scene rest

end

def Scene.problems (table : SymbolTable) (s : Scene) : List Diagnostic :=
  bodyProblems table s.name s.body

end StoryFlow
