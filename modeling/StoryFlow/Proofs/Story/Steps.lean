import StoryFlow.Proofs.Story.Execution

/-! A story that is carried out step by step. What is left to do is a list of statements, and a call puts
the statements of its scene in front of it. Every sequence of statements that a run carries out is also
found by looking into the bodies of one scene at a time, with its calls as single steps. -/

namespace StoryFlow

open Computability

variable {table : SymbolTable} {area : TextArea} {kind : MenuKind} {prompt name : String}
  {options : List MenuOption} {cases : List BranchCase} {branches : List IfBranch} {hasElse : Bool}
  {elseBody rest body u v w : List Stmt} {s t : Stmt}

def Scene.statements (s : Scene) : List Stmt := if s.chapter then s.opening :: s.body else s.body

theorem Scene.bodyExecutions_statements (s : Scene) :
    bodyExecutions table s.statements = s.executions table := by
  unfold Scene.statements Scene.executions
  split
  · rw [bodyExecutions]
    rfl
  · rw [one_mul]

/-- An if is not carried out itself, only what it leads to. -/
def Stmt.IsStep : Stmt → Prop
  | .ifElse _ _ _ _ => False
  | _ => True

namespace Story

/-- One step, from what is left to do to what is left after it, with the statement that is carried out
if there is one. Which way a menu, a branch or an if goes is left open. -/
inductive Step (story : Story) (table : SymbolTable) : List Stmt → List Stmt → List Stmt → Prop
  | act {area : TextArea} {action : Action} {rest : List Stmt} :
      (Stmt.plain area action).callee? = none →
      Step story table (.plain area action :: rest) [.plain area action] rest
  | call {area : TextArea} {name : String} {scene : Scene} {rest : List Stmt} :
      story.scene? name = some scene →
      Step story table (.plain area (.call name) :: rest) [] (scene.statements ++ rest)
  | leave {area : TextArea} {kind : MenuKind} {prompt : String} {options : List MenuOption}
      {rest : List Stmt} {o : MenuOption} : o ∈ options → ¬Returns kind o.loop →
      Step story table (.menu area kind prompt options :: rest) [.menu area kind prompt options]
        (o.body ++ rest)
  | again {area : TextArea} {kind : MenuKind} {prompt : String} {options : List MenuOption}
      {rest : List Stmt} {o : MenuOption} : o ∈ options → Returns kind o.loop →
      Step story table (.menu area kind prompt options :: rest) [.menu area kind prompt options]
        (o.body ++ .menu area kind prompt options :: rest)
  | case {area : TextArea} {name : String} {cases : List BranchCase} {rest : List Stmt}
      {c : BranchCase} : c ∈ cases → BranchCase.Entered table name cases c →
      Step story table (.branchOn area name cases :: rest) [.branchOn area name cases]
        (c.body ++ rest)
  | branch {area : TextArea} {branches : List IfBranch} {hasElse : Bool}
      {elseBody rest : List Stmt} {b : IfBranch} : b ∈ branches →
      Step story table (.ifElse area branches hasElse elseBody :: rest) [] (b.body ++ rest)
  | otherwise {area : TextArea} {branches : List IfBranch} {hasElse : Bool}
      {elseBody rest : List Stmt} :
      Step story table (.ifElse area branches hasElse elseBody :: rest) [] (elseBody ++ rest)

inductive Runs (story : Story) (table : SymbolTable) : List Stmt → List Stmt → List Stmt → Prop
  | stop (rest : List Stmt) : Runs story table rest [] rest
  | step {todo rest after u v : List Stmt} : Step story table todo u rest →
      Runs story table rest v after → Runs story table todo (u ++ v) after

/-- From its entry scene the story carries out the statements and comes to the last one. -/
def Comes (story : Story) (table : SymbolTable) (u : List Stmt) (s : Stmt) : Prop :=
  ∃ entry rest, story.entryScene? = some entry ∧
    story.Runs table entry.statements u (s :: rest) ∧ s.IsStep ∧ s.callee? = none

/-- A finite part of an execution, from its beginning on: the statements up to one that the story comes
to. -/
def Executes (story : Story) (table : SymbolTable) (w : List Stmt) : Prop :=
  w = [] ∨ ∃ u s, w = u ++ [s] ∧ story.Comes table u s

variable {story : Story} {todo after : List Stmt}

theorem Step.carried (h : story.Step table todo u rest) :
    u = [] ∨ ∃ s more, todo = s :: more ∧ u = [s] ∧ s.IsStep ∧ s.callee? = none := by
  cases h with
  | act hc => exact Or.inr ⟨_, _, rfl, rfl, trivial, hc⟩
  | call => exact Or.inl rfl
  | leave => exact Or.inr ⟨_, _, rfl, rfl, trivial, rfl⟩
  | again => exact Or.inr ⟨_, _, rfl, rfl, trivial, rfl⟩
  | case => exact Or.inr ⟨_, _, rfl, rfl, trivial, rfl⟩
  | branch => exact Or.inl rfl
  | otherwise => exact Or.inl rfl

theorem Step.call_or (h : story.Step table todo u rest) :
    (∃ area name scene more, todo = .plain area (.call name) :: more ∧
        story.scene? name = some scene ∧ u = [] ∧ rest = scene.statements ++ more) ∨
      ∀ s more, todo = s :: more → s.callee? = none := by
  cases h with
  | call hs => exact Or.inl ⟨_, _, _, _, rfl, hs, rfl, rfl⟩
  | act hc => exact Or.inr fun _ _ ht => (List.cons.inj ht).1 ▸ hc
  | leave => exact Or.inr fun _ _ ht => (List.cons.inj ht).1 ▸ rfl
  | again => exact Or.inr fun _ _ ht => (List.cons.inj ht).1 ▸ rfl
  | case => exact Or.inr fun _ _ ht => (List.cons.inj ht).1 ▸ rfl
  | branch => exact Or.inr fun _ _ ht => (List.cons.inj ht).1 ▸ rfl
  | otherwise => exact Or.inr fun _ _ ht => (List.cons.inj ht).1 ▸ rfl

theorem Runs.comes_within (h : story.Runs table todo w after) (hw : w = u ++ s :: v) :
    ∃ more, story.Runs table todo u (s :: more) ∧ s.IsStep ∧ s.callee? = none := by
  induction h generalizing u with
  | stop => simp at hw
  | step hstep hruns ih =>
    rcases hstep.carried with rfl | ⟨t, more, rfl, rfl, hs, hc⟩
    · obtain ⟨more, hr, hs⟩ := ih hw
      exact ⟨more, .step hstep hr, hs⟩
    · cases u with
      | nil =>
        obtain ⟨rfl, -⟩ := List.cons.inj hw
        exact ⟨more, .stop _, hs, hc⟩
      | cons a u =>
        obtain ⟨rfl, hw'⟩ := List.cons.inj hw
        obtain ⟨more', hr, hs'⟩ := ih hw'
        exact ⟨more', .step hstep hr, hs'⟩

theorem Step.of_declared {table' : SymbolTable} (h : story.Step table todo u rest)
    (hd : ∀ name, table'.declared? name = table.declared? name) : story.Step table' todo u rest := by
  cases h with
  | act hc => exact .act hc
  | call hs => exact .call hs
  | leave ho hr => exact .leave ho hr
  | again ho hr => exact .again ho hr
  | case hc he =>
    refine .case hc ?_
    unfold BranchCase.Entered at he ⊢
    rwa [hd]
  | branch hb => exact .branch hb
  | otherwise => exact .otherwise

theorem Runs.of_declared {table' : SymbolTable} (h : story.Runs table todo w after)
    (hd : ∀ name, table'.declared? name = table.declared? name) : story.Runs table' todo w after := by
  induction h with
  | stop rest => exact .stop rest
  | step hstep _ ih => exact .step (hstep.of_declared hd) ih

theorem Comes.of_declared {table' : SymbolTable} (h : story.Comes table u s)
    (hd : ∀ name, table'.declared? name = table.declared? name) : story.Comes table' u s := by
  obtain ⟨entry, rest, hentry, hruns, hs⟩ := h
  exact ⟨entry, rest, hentry, hruns.of_declared hd, hs⟩

theorem Executes.comes (h : story.Executes table w) (hw : w = u ++ s :: v) :
    story.Comes table u s := by
  rcases h with rfl | ⟨u', t, rfl, entry, more, hentry, hruns, hs, hc⟩
  · simp at hw
  rcases List.eq_nil_or_concat v with rfl | ⟨v, z, rfl⟩
  · obtain ⟨rfl, ht⟩ := List.append_inj' hw rfl
    cases ht
    exact ⟨entry, more, hentry, hruns, hs, hc⟩
  · have hu : u' = u ++ s :: v := by
      have hw' : u' ++ [t] = (u ++ s :: v) ++ [z] := by simpa using hw
      exact (List.append_inj' hw' rfl).1
    obtain ⟨more', hr, hs'⟩ := hruns.comes_within hu
    exact ⟨entry, more', hentry, hr, hs'⟩

end Story

section Executions

variable {o : MenuOption}

theorem mem_executions_of_leave (ho : o ∈ options) (hr : ¬Returns kind o.loop)
    (hw : w ∈ bodyExecutions table o.body) :
    .menu area kind prompt options :: w ∈
      (Stmt.menu area kind prompt options).executions table := by
  rw [Stmt.executions]
  split <;> rename_i hk
  · have hl : o.loop = false := by simpa [Returns, hk] using hr
    have hout : w ∈ optionExecutions table (· = false) options :=
      mem_optionExecutions.2 ⟨o, ho, hl, hw⟩
    exact Language.append_mem_mul (a := [_]) rfl
      (Language.append_mem_mul (a := []) (Language.nil_mem_kstar _) hout)
  · have hout : w ∈ optionExecutions table (fun _ => True) options :=
      mem_optionExecutions.2 ⟨o, ho, trivial, hw⟩
    exact Language.append_mem_mul (a := [_]) rfl hout

theorem mem_executions_of_again (ho : o ∈ options) (hr : Returns kind o.loop)
    (hv : v ∈ bodyExecutions table o.body)
    (hw : w ∈ (Stmt.menu area kind prompt options).executions table) :
    .menu area kind prompt options :: v ++ w ∈
      (Stmt.menu area kind prompt options).executions table := by
  rw [Stmt.executions, if_pos hr.2] at hw ⊢
  obtain ⟨m, hm, y, hy, rfl⟩ := Language.mem_mul.1 hw
  obtain ⟨turns, hturns, out, hout, rfl⟩ := Language.mem_mul.1 hy
  obtain rfl : m = [.menu area kind prompt options] := hm
  have ask : [Stmt.menu area kind prompt options] ∈
      ({[Stmt.menu area kind prompt options]} : Language Stmt) := rfl
  -- one more turn goes in front of the turns there are
  have hback : v ∈ optionExecutions table (· = true) options :=
    mem_optionExecutions.2 ⟨o, ho, hr.1, hv⟩
  have hmore := Set.mem_of_mem_of_subset
    (Language.append_mem_mul (Language.append_mem_mul hback ask) hturns)
    (mul_kstar_le_kstar (a := optionExecutions table (· = true) options *
      {[Stmt.menu area kind prompt options]}))
  simpa using Language.append_mem_mul ask (Language.append_mem_mul hmore hout)

theorem mem_executions_of_case {c : BranchCase} (hc : c ∈ cases)
    (he : BranchCase.Entered table name cases c) (hw : w ∈ bodyExecutions table c.body) :
    .branchOn area name cases :: w ∈ (Stmt.branchOn area name cases).executions table := by
  rw [Stmt.executions]
  exact Language.append_mem_mul (a := [_]) rfl (mem_caseExecutions.2 ⟨c, hc, he, hw⟩)

theorem mem_executions_of_branch {b : IfBranch} (hb : b ∈ branches)
    (hw : w ∈ bodyExecutions table b.body) :
    w ∈ (Stmt.ifElse area branches hasElse elseBody).executions table := by
  rw [Stmt.executions, Language.mem_add]
  exact Or.inl (mem_branchExecutions.2 ⟨b, hb, hw⟩)

theorem mem_executions_of_otherwise (hw : w ∈ bodyExecutions table elseBody) :
    w ∈ (Stmt.ifElse area branches hasElse elseBody).executions table := by
  rw [Stmt.executions, Language.mem_add]
  exact Or.inr hw

end Executions

/-- Control that entered the body comes, after these statements, to the statement. Calls are single
steps. -/
inductive Begins (table : SymbolTable) : List Stmt → List Stmt → Stmt → Prop
  | here {s : Stmt} {rest : List Stmt} : s.IsStep → Begins table (s :: rest) [] s
  | next {s t : Stmt} {rest v u : List Stmt} : v ∈ s.executions table → Begins table rest u t →
      Begins table (s :: rest) (v ++ u) t
  | option {area : TextArea} {kind : MenuKind} {prompt : String} {options : List MenuOption}
      {rest u : List Stmt} {o : MenuOption} {t : Stmt} : o ∈ options → Begins table o.body u t →
      Begins table (.menu area kind prompt options :: rest)
        (.menu area kind prompt options :: u) t
  | again {area : TextArea} {kind : MenuKind} {prompt : String} {options : List MenuOption}
      {rest v u : List Stmt} {o : MenuOption} {t : Stmt} : o ∈ options → Returns kind o.loop →
      v ∈ bodyExecutions table o.body → Begins table (.menu area kind prompt options :: rest) u t →
      Begins table (.menu area kind prompt options :: rest)
        (.menu area kind prompt options :: v ++ u) t
  | case {area : TextArea} {name : String} {cases : List BranchCase} {rest u : List Stmt}
      {c : BranchCase} {t : Stmt} : c ∈ cases → BranchCase.Entered table name cases c →
      Begins table c.body u t →
      Begins table (.branchOn area name cases :: rest) (.branchOn area name cases :: u) t
  | branch {area : TextArea} {branches : List IfBranch} {hasElse : Bool}
      {elseBody rest u : List Stmt} {b : IfBranch} {t : Stmt} : b ∈ branches →
      Begins table b.body u t → Begins table (.ifElse area branches hasElse elseBody :: rest) u t
  | otherwise {area : TextArea} {branches : List IfBranch} {hasElse : Bool}
      {elseBody rest u : List Stmt} {t : Stmt} : Begins table elseBody u t →
      Begins table (.ifElse area branches hasElse elseBody :: rest) u t

namespace Begins

theorem of_append {front back : List Stmt} (h : Begins table (front ++ back) u t) :
    Begins table front u t ∨
      ∃ x y, u = x ++ y ∧ x ∈ bodyExecutions table front ∧ Begins table back y t := by
  induction front generalizing u with
  | nil => exact Or.inr ⟨[], u, rfl, Language.nil_mem_one, h⟩
  | cons s front outer =>
    -- the turns of a menu keep the body, so an induction on the way to the statement is needed too
    generalize hb : s :: front ++ back = body at h
    induction h with
    | here hs =>
      cases hb
      exact Or.inl (.here hs)
    | next hv hrest =>
      cases hb
      rcases outer hrest with h | ⟨x, y, rfl, hx, hy⟩
      · exact Or.inl (.next hv h)
      · refine Or.inr ⟨_ ++ x, y, (List.append_assoc ..).symm, ?_, hy⟩
        rw [bodyExecutions]
        exact Language.append_mem_mul hv hx
    | option ho hbody =>
      cases hb
      exact Or.inl (.option ho hbody)
    | @again area kind prompt options _ v _ _ _ ho hr hv _ ih =>
      obtain ⟨rfl, rfl⟩ := List.cons.inj hb
      rcases ih outer rfl with h | ⟨x, y, rfl, hx, hy⟩
      · exact Or.inl (.again ho hr hv h)
      · rw [bodyExecutions] at hx
        obtain ⟨a, ha, b, hb, rfl⟩ := Language.mem_mul.1 hx
        refine Or.inr ⟨.menu area kind prompt options :: v ++ (a ++ b), y, by simp, ?_, hy⟩
        rw [bodyExecutions, ← List.append_assoc]
        exact Language.append_mem_mul (mem_executions_of_again ho hr hv ha) hb
    | case hc he hbody =>
      cases hb
      exact Or.inl (.case hc he hbody)
    | branch hm hbody =>
      cases hb
      exact Or.inl (.branch hm hbody)
    | otherwise hbody =>
      cases hb
      exact Or.inl (.otherwise hbody)

theorem of_cons (h : Begins table (s :: rest) u t) :
    Begins table [s] u t ∨
      ∃ x y, u = x ++ y ∧ x ∈ s.executions table ∧ Begins table rest y t := by
  rcases (show Begins table ([s] ++ rest) u t from h).of_append with h | ⟨x, y, rfl, hx, hy⟩
  · exact Or.inl h
  · rw [bodyExecutions, bodyExecutions, mul_one] at hx
    exact Or.inr ⟨x, y, rfl, hx, hy⟩

/-- What begins after a step that is not a call begins before it too. -/
theorem of_step {story : Story} {todo : List Stmt} (h : story.Step table todo v rest)
    (hc : ∀ s more, todo = s :: more → s.callee? = none) (hb : Begins table rest u t) :
    Begins table todo (v ++ u) t := by
  cases h with
  | act => exact .next rfl hb
  | call => cases hc _ _ rfl
  | leave ho hr =>
    rcases hb.of_append with hb | ⟨x, y, rfl, hx, hy⟩
    · exact .option ho hb
    · rw [← List.append_assoc]
      exact .next (mem_executions_of_leave ho hr hx) hy
  | again ho hr =>
    rcases hb.of_append with hb | ⟨x, y, rfl, hx, hy⟩
    · exact .option ho hb
    · rw [← List.append_assoc]
      exact .again ho hr hx hy
  | case hm he =>
    rcases hb.of_append with hb | ⟨x, y, rfl, hx, hy⟩
    · exact .case hm he hb
    · rw [← List.append_assoc]
      exact .next (mem_executions_of_case hm he hx) hy
  | branch hm =>
    rcases hb.of_append with hb | ⟨x, y, rfl, hx, hy⟩
    · exact .branch hm hb
    · rw [List.nil_append]
      exact .next (mem_executions_of_branch hm hx) hy
  | otherwise =>
    rcases hb.of_append with hb | ⟨x, y, rfl, hx, hy⟩
    · exact .otherwise hb
    · rw [List.nil_append]
      exact .next (mem_executions_of_otherwise hx) hy

end Begins

end StoryFlow
