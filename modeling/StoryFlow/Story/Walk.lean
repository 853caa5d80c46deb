import StoryFlow.Story.Stmt

/-! Walks over the bound tree: every node with its children in front of it, and the call
statements of a scene in source order. -/

namespace StoryFlow

inductive TreeNode where
  | story (s : Story)
  | scene (s : Scene)
  | stmt (s : Stmt)
  | option (o : MenuOption)
  | branchCase (c : BranchCase)
  | ifBranch (b : IfBranch)

namespace TreeNode

def label : TreeNode → String
  | .story s => s.label
  | .scene s => s.label
  | .stmt s => s.label
  | .option o => o.caption
  | .branchCase c => c.label
  | .ifBranch b => b.label

/-- Where the node stands. The story as a whole stands nowhere, a branch of an if has no place of
its own. -/
def area? : TreeNode → Option TextArea
  | .story _ => none
  | .scene s => some s.area
  | .stmt s => some s.area
  | .option o => some o.area
  | .branchCase c => some c.area
  | .ifBranch _ => some {}

end TreeNode

mutual

/-- The nodes of a statement, children before parents. -/
def Stmt.nodes : Stmt → List TreeNode
  | .plain area action => [.stmt (.plain area action)]
  | .menu area kind prompt options =>
    optionNodes options ++ [.stmt (.menu area kind prompt options)]
  | .branchOn area name cases => caseNodes cases ++ [.stmt (.branchOn area name cases)]
  | .ifElse area branches hasElse elseBody =>
    branchNodes branches ++ bodyNodes elseBody ++ [.stmt (.ifElse area branches hasElse elseBody)]

def bodyNodes : List Stmt → List TreeNode
  | [] => []
  | s :: rest => s.nodes ++ bodyNodes rest

def optionNodes : List MenuOption → List TreeNode
  | [] => []
  | ⟨area, label, loop, body⟩ :: rest =>
    bodyNodes body ++ .option ⟨area, label, loop, body⟩ :: optionNodes rest

def caseNodes : List BranchCase → List TreeNode
  | [] => []
  | ⟨area, options, other, body⟩ :: rest =>
    bodyNodes body ++ .branchCase ⟨area, options, other, body⟩ :: caseNodes rest

def branchNodes : List IfBranch → List TreeNode
  | [] => []
  | ⟨condition, body⟩ :: rest =>
    bodyNodes body ++ .ifBranch ⟨condition, body⟩ :: branchNodes rest

end

def Scene.nodes (s : Scene) : List TreeNode := bodyNodes s.body ++ [.scene s]

def Story.nodes (s : Story) : List TreeNode := s.scenes.flatMap Scene.nodes ++ [.story s]

/-- A walk that accepts at most `limit` nodes and says at which node it stopped. -/
def Story.nodesUpTo (s : Story) (limit : Option Nat) : List TreeNode × Option TreeNode :=
  match limit with
  | none => (s.nodes, none)
  | some n => (s.nodes.take n, (s.nodes.drop n).head?)

structure CallStmt where
  area : TextArea
  scene : String
  deriving DecidableEq

def TreeNode.call? : TreeNode → Option CallStmt
  | .stmt (.plain area (.call callee)) => some ⟨area, callee⟩
  | _ => none

def Scene.calls (s : Scene) : List CallStmt := (bodyNodes s.body).filterMap TreeNode.call?

end StoryFlow
