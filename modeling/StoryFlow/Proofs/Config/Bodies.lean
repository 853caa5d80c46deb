import StoryFlow.Config.Binding
import StoryFlow.Proofs.Flow.Composition
import StoryFlow.Story.Walk

/-! Bound bodies. The tree has one statement for each written one, in the same order and at the same
nesting, and what the later stages rely on holds at every depth: branches are named, a case is the
catch-all or names an option, an if has a branch. -/

namespace StoryFlow

/-- What a bound tree promises about one of its nodes. -/
def TreeNode.Lawful : TreeNode → Prop
  | .stmt (.branchOn _ name cases) => name ≠ "" ∧ ∀ c ∈ cases,
      (c.other = true ∧ c.optionNames = []) ∨ (c.other = false ∧ c.optionNames ≠ [])
  | .stmt (.ifElse _ branches _ _) => branches ≠ []
  | _ => True

namespace Config

mutual

/-- The statement is what a written statement stands for. -/
inductive Binds (path : String) : StmtConfig → Stmt → Prop
  | text {place : String} {kind : TextKind} {value : Option String} {area : TextArea} {action : Action}
      (meant : textAction kind value = .ok action) (position : locate path place = .ok area) :
      Binds path (.text place kind value) (.plain area action)
  | line {place : String} {value : LineConfig} {area : TextArea}
      (position : locate path place = .ok area) :
      Binds path (.line place (some value)) (.plain area (.line value.speaker value.text))
  | run {place : String} {value : RunConfig} {area : TextArea} (named : value.method ≠ "")
      (position : locate path place = .ok area) :
      Binds path (.run place value) (.plain area (.run value.method value.args))
  | assign {place : String} {value : AssignConfig} {area : TextArea}
      (position : locate path place = .ok area) :
      Binds path (.assign place (some value)) (.plain area (.assign value.name value.option))
  | menu {place : String} {kind : MenuKind} {prompt : String} {area : TextArea}
      {options : List (Option OptionConfig)} {bound : List MenuOption}
      (inner : BindsOptions path options bound) (position : locate path place = .ok area) :
      Binds path (.menu place kind prompt options) (.menu area kind prompt bound)
  | branchOn {place name : String} {area : TextArea} {cases : List (Option CaseConfig)}
      {bound : List BranchCase} (inner : BindsCases path cases bound)
      (position : locate path place = .ok area) :
      Binds path (.branchOn place name cases) (.branchOn area name bound)
  | ifElse {place : String} {area : TextArea} {branches : List (Option WhenConfig)}
      {elseBody : Option (List (Option StmtConfig))} {bound : List IfBranch} {last : List Stmt}
      (inner : BindsBranches path branches bound)
      (closing : BindsBody path (elseBody.getD []) last)
      (position : locate path place = .ok area) :
      Binds path (.ifElse place branches elseBody) (.ifElse area bound elseBody.isSome last)

inductive BindsBody (path : String) : List (Option StmtConfig) → List Stmt → Prop
  | nil : BindsBody path [] []
  | cons {c : StmtConfig} {s : Stmt} {cs : List (Option StmtConfig)} {ss : List Stmt}
      (first : Binds path c s) (rest : BindsBody path cs ss) : BindsBody path (some c :: cs) (s :: ss)

inductive BindsOptions (path : String) : List (Option OptionConfig) → List MenuOption → Prop
  | nil : BindsOptions path [] []
  | cons {o : OptionConfig} {area : TextArea} {body : List Stmt} {os : List (Option OptionConfig)}
      {xs : List MenuOption} (position : locate path o.place = .ok area)
      (own : BindsBody path o.body body) (rest : BindsOptions path os xs) :
      BindsOptions path (some o :: os) (⟨area, o.label, o.loop, body⟩ :: xs)

inductive BindsCases (path : String) : List (Option CaseConfig) → List BranchCase → Prop
  | nil : BindsCases path [] []
  | cons {c : CaseConfig} {area : TextArea} {body : List Stmt} {cs : List (Option CaseConfig)}
      {xs : List BranchCase} (position : locate path c.place = .ok area)
      (own : BindsBody path c.body body) (rest : BindsCases path cs xs) :
      BindsCases path (some c :: cs) (⟨area, c.options, c.other, body⟩ :: xs)

inductive BindsBranches (path : String) : List (Option WhenConfig) → List IfBranch → Prop
  | nil : BindsBranches path [] []
  | cons {w : WhenConfig} {body : List Stmt} {ws : List (Option WhenConfig)} {xs : List IfBranch}
      (own : BindsBody path w.body body) (rest : BindsBranches path ws xs) :
      BindsBranches path (some w :: ws) (⟨w.condition, body⟩ :: xs)

end

theorem inside_ok {α : Type} {context : String} {r : Binding α} {a : α}
    (h : inside context r = .ok a) : r = .ok a := by
  cases r with
  | error e => cases h
  | ok b =>
    cases h
    rfl

theorem checkCase_ok {index : Nat} {options : List String} {other : Bool}
    (h : checkCase index options other = .ok ()) :
    (other = true ∧ options = []) ∨ (other = false ∧ options ≠ []) := by
  unfold checkCase at h
  by_cases ho : options = []
  · cases other
    · simp [ho, refuse] at h
    · exact Or.inl ⟨rfl, ho⟩
  · cases other
    · exact Or.inr ⟨rfl, ho⟩
    · simp [ho, refuse] at h

theorem bindPlain_ok {path place kind : String} {action : Action} {x : Stmt}
    (h : bindPlain path place kind action = .ok x) :
    ∃ area, locate path place = .ok area ∧ x = .plain area action := by
  obtain ⟨area, harea, h₁⟩ := ok_of_bind_ok h
  cases h₁
  exact ⟨area, inside_ok harea, rfl⟩

theorem lawful_plain {area : TextArea} {action : Action} :
    ∀ node ∈ (Stmt.plain area action).nodes, node.Lawful := by
  intro node hn
  rw [Stmt.nodes, List.mem_singleton] at hn
  subst hn
  trivial

section Bodies

variable {path : String}

mutual

theorem bindStmt_ok : ∀ (s : StmtConfig) {x : Stmt}, bindStmt path s = .ok x →
    Binds path s x ∧ ∀ node ∈ x.nodes, node.Lawful
  | .text place kind value, x, h => by
    rw [bindStmt] at h
    obtain ⟨action, haction, h⟩ := ok_of_bind_ok h
    obtain ⟨area, harea, rfl⟩ := bindPlain_ok h
    exact ⟨.text haction harea, lawful_plain⟩
  | .line place none, x, h => by
    rw [bindStmt] at h
    cases h
  | .line place (some line), x, h => by
    rw [bindStmt] at h
    obtain ⟨area, harea, rfl⟩ := bindPlain_ok h
    exact ⟨.line harea, lawful_plain⟩
  | .run place value, x, h => by
    rw [bindStmt] at h
    split at h <;> rename_i hmethod
    · cases h
    · obtain ⟨area, harea, rfl⟩ := bindPlain_ok h
      exact ⟨.run (by simpa using hmethod) harea, lawful_plain⟩
  | .assign place none, x, h => by
    rw [bindStmt] at h
    cases h
  | .assign place (some a), x, h => by
    rw [bindStmt] at h
    obtain ⟨area, harea, rfl⟩ := bindPlain_ok h
    exact ⟨.assign harea, lawful_plain⟩
  | .menu place kind prompt options, x, h => by
    rw [bindStmt] at h
    obtain ⟨bound, hbound, h⟩ := ok_of_bind_ok h
    obtain ⟨area, harea, h⟩ := ok_of_bind_ok h
    cases h
    obtain ⟨binds, lawful⟩ := bindOptions_ok options (inside_ok hbound)
    refine ⟨.menu binds (inside_ok harea), ?_⟩
    rw [Stmt.nodes]
    exact List.forall_mem_append.2 ⟨lawful, by simp [TreeNode.Lawful]⟩
  | .branchOn place name cases, x, h => by
    rw [bindStmt] at h
    split at h <;> rename_i hname
    · cases h
    · obtain ⟨bound, hbound, h⟩ := ok_of_bind_ok h
      obtain ⟨area, harea, h⟩ := ok_of_bind_ok h
      cases h
      obtain ⟨binds, each, lawful⟩ := bindCases_ok cases (inside_ok hbound)
      refine ⟨.branchOn binds (inside_ok harea), ?_⟩
      rw [Stmt.nodes]
      refine List.forall_mem_append.2 ⟨lawful, List.forall_mem_singleton.2 ⟨?_, each⟩⟩
      simpa using hname
  | .ifElse place branches elseBody, x, h => by
    rw [bindStmt] at h
    split at h <;> rename_i hbranches
    · cases h
    · obtain ⟨bound, hbound, h⟩ := ok_of_bind_ok h
      obtain ⟨last, hlast, h⟩ := ok_of_bind_ok h
      obtain ⟨area, harea, h⟩ := ok_of_bind_ok h
      cases h
      obtain ⟨binds, length, lawful⟩ := bindBranches_ok branches (inside_ok hbound)
      obtain ⟨bindsLast, lawfulLast⟩ := bindElse_ok elseBody (inside_ok hlast)
      refine ⟨.ifElse binds bindsLast (inside_ok harea), ?_⟩
      rw [Stmt.nodes]
      refine List.forall_mem_append.2
        ⟨List.forall_mem_append.2 ⟨lawful, lawfulLast⟩, List.forall_mem_singleton.2 ?_⟩
      rintro rfl
      rw [List.length_nil, eq_comm, List.length_eq_zero_iff] at length
      exact hbranches (by rw [length]; rfl)
  | .unknown place kind, x, h => by
    rw [bindStmt] at h
    cases h

theorem bindBody_ok : ∀ (body : List (Option StmtConfig)) {index : Nat} {xs : List Stmt},
    bindBody path index body = .ok xs →
      BindsBody path body xs ∧ ∀ node ∈ bodyNodes xs, node.Lawful
  | [], index, xs, h => by
    rw [bindBody] at h
    cases h
    exact ⟨.nil, by simp [bodyNodes]⟩
  | none :: rest, index, xs, h => by
    rw [bindBody] at h
    cases h
  | some s :: rest, index, xs, h => by
    rw [bindBody] at h
    obtain ⟨bound, hbound, h⟩ := ok_of_bind_ok h
    obtain ⟨others, hothers, h⟩ := ok_of_bind_ok h
    cases h
    obtain ⟨first, lawful⟩ := bindStmt_ok s (inside_ok hbound)
    obtain ⟨binds, lawfulRest⟩ := bindBody_ok rest hothers
    rw [bodyNodes]
    exact ⟨.cons first binds, List.forall_mem_append.2 ⟨lawful, lawfulRest⟩⟩

theorem bindElse_ok : ∀ (body : Option (List (Option StmtConfig))) {xs : List Stmt},
    bindElse path body = .ok xs →
      BindsBody path (body.getD []) xs ∧ ∀ node ∈ bodyNodes xs, node.Lawful
  | none, xs, h => by
    rw [bindElse] at h
    cases h
    exact ⟨.nil, by simp [bodyNodes]⟩
  | some body, xs, h => by
    rw [bindElse] at h
    exact bindBody_ok body (inside_ok h)

theorem bindOptions_ok : ∀ (options : List (Option OptionConfig)) {index : Nat}
    {xs : List MenuOption}, bindOptions path index options = .ok xs →
      BindsOptions path options xs ∧ ∀ node ∈ optionNodes xs, node.Lawful
  | [], index, xs, h => by
    rw [bindOptions] at h
    cases h
    exact ⟨.nil, by simp [optionNodes]⟩
  | none :: rest, index, xs, h => by
    rw [bindOptions] at h
    cases h
  | some ⟨label, loop, place, body⟩ :: rest, index, xs, h => by
    rw [bindOptions] at h
    obtain ⟨bound, hbound, h⟩ := ok_of_bind_ok h
    obtain ⟨area, harea, h⟩ := ok_of_bind_ok h
    obtain ⟨others, hothers, h⟩ := ok_of_bind_ok h
    cases h
    obtain ⟨bindsOwn, lawful⟩ := bindBody_ok body (inside_ok hbound)
    obtain ⟨binds, lawfulRest⟩ := bindOptions_ok rest hothers
    rw [optionNodes]
    exact ⟨.cons harea bindsOwn binds,
      List.forall_mem_append.2 ⟨lawful, List.forall_mem_cons.2 ⟨trivial, lawfulRest⟩⟩⟩

theorem bindCases_ok : ∀ (cases : List (Option CaseConfig)) {index : Nat} {xs : List BranchCase},
    bindCases path index cases = .ok xs → BindsCases path cases xs ∧
      (∀ c ∈ xs, (c.other = true ∧ c.optionNames = []) ∨ (c.other = false ∧ c.optionNames ≠ [])) ∧
      ∀ node ∈ caseNodes xs, node.Lawful
  | [], index, xs, h => by
    rw [bindCases] at h
    cases h
    exact ⟨.nil, by simp, by simp [caseNodes]⟩
  | none :: rest, index, xs, h => by
    rw [bindCases] at h
    cases h
  | some ⟨options, other, place, body⟩ :: rest, index, xs, h => by
    rw [bindCases] at h
    obtain ⟨⟨⟩, hcheck, h⟩ := ok_of_bind_ok h
    obtain ⟨bound, hbound, h⟩ := ok_of_bind_ok h
    obtain ⟨area, harea, h⟩ := ok_of_bind_ok h
    obtain ⟨others, hothers, h⟩ := ok_of_bind_ok h
    cases h
    obtain ⟨bindsOwn, lawful⟩ := bindBody_ok body (inside_ok hbound)
    obtain ⟨binds, each, lawfulRest⟩ := bindCases_ok rest hothers
    rw [caseNodes]
    exact ⟨.cons harea bindsOwn binds, List.forall_mem_cons.2 ⟨checkCase_ok hcheck, each⟩,
      List.forall_mem_append.2 ⟨lawful, List.forall_mem_cons.2 ⟨trivial, lawfulRest⟩⟩⟩

theorem bindBranches_ok : ∀ (branches : List (Option WhenConfig)) {index : Nat}
    {xs : List IfBranch}, bindBranches path index branches = .ok xs →
      BindsBranches path branches xs ∧ xs.length = branches.length ∧
      ∀ node ∈ branchNodes xs, node.Lawful
  | [], index, xs, h => by
    rw [bindBranches] at h
    cases h
    exact ⟨.nil, rfl, by simp [branchNodes]⟩
  | none :: rest, index, xs, h => by
    rw [bindBranches] at h
    cases h
  | some ⟨condition, body⟩ :: rest, index, xs, h => by
    rw [bindBranches] at h
    obtain ⟨bound, hbound, h⟩ := ok_of_bind_ok h
    obtain ⟨others, hothers, h⟩ := ok_of_bind_ok h
    cases h
    obtain ⟨bindsOwn, lawful⟩ := bindBody_ok body (inside_ok hbound)
    obtain ⟨binds, length, lawfulRest⟩ := bindBranches_ok rest hothers
    rw [branchNodes]
    exact ⟨.cons bindsOwn binds, congrArg (· + 1) length,
      List.forall_mem_append.2 ⟨lawful, List.forall_mem_cons.2 ⟨trivial, lawfulRest⟩⟩⟩

end

end Bodies

end Config

end StoryFlow
