import Mathlib.Computability.Language
import StoryFlow.Scene.Graph

/-! Executions of statements and bodies, read off the tree. An execution is the list of the statements
that are carried out, and a body has the language of its executions. Which way a menu, a branch or an
if goes is left open. Calls are single steps here. -/

namespace StoryFlow

open Computability

/-- The property passes from the statements in the bodies of a statement to the statement. -/
structure Hereditary (P : Stmt → Prop) : Prop where
  plain : ∀ area action, P (.plain area action)
  menu : ∀ area kind prompt options, (∀ o ∈ options, ∀ s ∈ o.body, P s) →
    P (.menu area kind prompt options)
  branchOn : ∀ area name cases, (∀ c ∈ cases, ∀ s ∈ c.body, P s) → P (.branchOn area name cases)
  ifElse : ∀ area branches hasElse elseBody, (∀ b ∈ branches, ∀ s ∈ b.body, P s) →
    (∀ s ∈ elseBody, P s) → P (.ifElse area branches hasElse elseBody)

mutual

theorem Hereditary.stmt {P : Stmt → Prop} (h : Hereditary P) : ∀ s : Stmt, P s
  | .plain area action => h.plain area action
  | .menu area kind prompt options => h.menu area kind prompt options (h.options options)
  | .branchOn area name cases => h.branchOn area name cases (h.cases cases)
  | .ifElse area branches hasElse elseBody =>
    h.ifElse area branches hasElse elseBody (h.branches branches) (h.body elseBody)

theorem Hereditary.body {P : Stmt → Prop} (h : Hereditary P) : ∀ body : List Stmt, ∀ s ∈ body, P s
  | [] => by simp
  | s :: rest => List.forall_mem_cons.2 ⟨h.stmt s, h.body rest⟩

theorem Hereditary.options {P : Stmt → Prop} (h : Hereditary P) :
    ∀ options : List MenuOption, ∀ o ∈ options, ∀ s ∈ o.body, P s
  | [] => by simp
  | ⟨_, _, _, body⟩ :: rest => List.forall_mem_cons.2 ⟨h.body body, h.options rest⟩

theorem Hereditary.cases {P : Stmt → Prop} (h : Hereditary P) :
    ∀ cases : List BranchCase, ∀ c ∈ cases, ∀ s ∈ c.body, P s
  | [] => by simp
  | ⟨_, _, _, body⟩ :: rest => List.forall_mem_cons.2 ⟨h.body body, h.cases rest⟩

theorem Hereditary.branches {P : Stmt → Prop} (h : Hereditary P) :
    ∀ branches : List IfBranch, ∀ b ∈ branches, ∀ s ∈ b.body, P s
  | [] => by simp
  | ⟨_, body⟩ :: rest => List.forall_mem_cons.2 ⟨h.body body, h.branches rest⟩

end

namespace BranchCase

def Names (c : BranchCase) (option : String) : Prop := c.other = false ∧ option ∈ c.optionNames

/-- The case that an option leads to: one that names it, else the catch-all. -/
def Owns (cases : List BranchCase) (c : BranchCase) (option : String) : Prop :=
  c.Names option ∨ (c.other = true ∧ ∀ d ∈ cases, ¬ d.Names option)

/-- A case of a branch can be entered when it owns an option of the variable. Nothing is known of the
options of an undeclared one. -/
def Entered (table : SymbolTable) (name : String) (cases : List BranchCase) (c : BranchCase) : Prop :=
  match table.declared? name with
  | none => True
  | some x => ∃ option ∈ x.optionNames, Owns cases c option

end BranchCase

def Returns (kind : MenuKind) (loop : Bool) : Prop := loop = true ∧ kind = .loopSwitch

def onlyIf (p : Prop) (l : Language Stmt) : Language Stmt := {w | p ∧ w ∈ l}

theorem mem_onlyIf {p : Prop} {l : Language Stmt} {w : List Stmt} :
    w ∈ onlyIf p l ↔ p ∧ w ∈ l := Iff.rfl

theorem onlyIf_pos {p : Prop} (h : p) (l : Language Stmt) : onlyIf p l = l := by
  ext w
  exact and_iff_right h

theorem onlyIf_neg {p : Prop} (h : ¬p) (l : Language Stmt) : onlyIf p l = 0 := by
  ext w
  exact iff_of_false (fun hw => h hw.1) (Language.notMem_zero w)

mutual

/-- The executions of a statement. A loop switch asks again after every loop option. -/
def Stmt.executions (table : SymbolTable) : Stmt → Language Stmt
  | .plain area action => {[.plain area action]}
  | .menu area kind prompt options =>
    let ask : Language Stmt := {[.menu area kind prompt options]}
    if kind = .loopSwitch then
      ask * ((optionExecutions table (· = true) options * ask)∗ *
        optionExecutions table (· = false) options)
    else ask * optionExecutions table (fun _ => True) options
  | .branchOn area name cases =>
    {[.branchOn area name cases]} *
      caseExecutions table (BranchCase.Entered table name cases) cases
  | .ifElse _ branches _ elseBody =>
    branchExecutions table branches + bodyExecutions table elseBody

def bodyExecutions (table : SymbolTable) : List Stmt → Language Stmt
  | [] => 1
  | s :: rest => s.executions table * bodyExecutions table rest

def optionExecutions (table : SymbolTable) (chosen : Bool → Prop) :
    List MenuOption → Language Stmt
  | [] => 0
  | ⟨_, _, loop, body⟩ :: rest =>
    onlyIf (chosen loop) (bodyExecutions table body) + optionExecutions table chosen rest

def caseExecutions (table : SymbolTable) (entered : BranchCase → Prop) :
    List BranchCase → Language Stmt
  | [] => 0
  | ⟨area, options, other, body⟩ :: rest =>
    onlyIf (entered ⟨area, options, other, body⟩) (bodyExecutions table body) +
      caseExecutions table entered rest

def branchExecutions (table : SymbolTable) : List IfBranch → Language Stmt
  | [] => 0
  | ⟨_, body⟩ :: rest => bodyExecutions table body + branchExecutions table rest

end

section Members

variable {table : SymbolTable}

theorem mem_optionExecutions {chosen : Bool → Prop} {options : List MenuOption} {w : List Stmt} :
    w ∈ optionExecutions table chosen options ↔
      ∃ o ∈ options, chosen o.loop ∧ w ∈ bodyExecutions table o.body := by
  induction options with
  | nil => simp [optionExecutions]
  | cons o rest ih =>
    obtain ⟨area, label, loop, body⟩ := o
    rw [optionExecutions, Language.mem_add, mem_onlyIf, ih, List.exists_mem_cons_iff]

theorem mem_caseExecutions {entered : BranchCase → Prop} {cases : List BranchCase} {w : List Stmt} :
    w ∈ caseExecutions table entered cases ↔
      ∃ c ∈ cases, entered c ∧ w ∈ bodyExecutions table c.body := by
  induction cases with
  | nil => simp [caseExecutions]
  | cons c rest ih =>
    obtain ⟨area, options, other, body⟩ := c
    rw [caseExecutions, Language.mem_add, mem_onlyIf, ih, List.exists_mem_cons_iff]

theorem mem_branchExecutions {branches : List IfBranch} {w : List Stmt} :
    w ∈ branchExecutions table branches ↔ ∃ b ∈ branches, w ∈ bodyExecutions table b.body := by
  induction branches with
  | nil => simp [branchExecutions]
  | cons b rest ih =>
    obtain ⟨condition, body⟩ := b
    rw [branchExecutions, Language.mem_add, ih, List.exists_mem_cons_iff]

end Members

/-- A chapter opens with its checkpoint. -/
def Scene.executions (table : SymbolTable) (s : Scene) : Language Stmt :=
  (if s.chapter then {[s.opening]} else 1) * bodyExecutions table s.body

end StoryFlow
