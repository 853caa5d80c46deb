import StoryFlow.Proofs.Scene.Vertices
import StoryFlow.Proofs.Story.Outline

/-! How bodies end. The ending of a body is read off its last statements, going back past the ifs that can be
left without doing anything; what it tells is what the outlines of the body show. So in a scene that keeps the
rules, an execution of an option or of a case that does anything at all ends on a statement that is seen, or on
a call. -/

namespace StoryFlow

open Computability
open StoryFlow.Flow

def Stmt.Shown (x : Stmt) : Prop := x.visible = true ∨ x.callee?.isSome = true

def Within (place : Place) (lo hi : Nat) (q : Place) : Prop := ∃ j r, lo ≤ j ∧ j < hi ∧ q = place ++ j :: r

section Places

variable {place q : Place} {lo mid mid' hi : Nat}

theorem Within.mono {lo' hi' : Nat} (h : Within place lo hi q) (hl : lo' ≤ lo) (hh : hi ≤ hi') :
    Within place lo' hi' q := by
  obtain ⟨j, r, hlo, hhi, rfl⟩ := h
  exact ⟨j, r, by omega, by omega, rfl⟩

theorem Within.apart (h : Within place lo mid q) (hm : mid ≤ mid') : ¬Within place mid' hi q := by
  obtain ⟨j, r, hlo, hhi, rfl⟩ := h
  rintro ⟨j', r', hlo', hhi', heq⟩
  obtain ⟨rfl, -⟩ := List.cons.inj (List.append_cancel_left heq)
  omega

theorem within_of_prefix {i : Nat} (h : place ++ [i] <+: q) : Within place i (i + 1) q := by
  obtain ⟨r, rfl⟩ := h
  exact ⟨i, r, le_rfl, Nat.lt_succ_self i, by simp⟩

theorem Within.prefix (h : Within place lo hi q) : place <+: q := by
  obtain ⟨j, r, -, -, rfl⟩ := h
  exact List.prefix_append _ _

end Places

/-- The ending tells what the outlines show, with the places where they end on a hidden statement. -/
structure Ending.Tells (e : Ending) (l : Language (Place × Stmt)) (within : Place → Prop) : Prop where
  falls : e.falls = true ↔ [] ∈ l
  ends : ∃ ends : List (Place × Stmt), (ends.map Prod.fst).Nodup ∧
    (∀ p, p ∈ ends ↔ Closes l p ∧ ¬p.2.Shown) ∧ (∀ p ∈ ends, within p.1) ∧
    ends.map Prod.snd = e.unseen

section Tells

variable {e f : Ending} {l m : Language (Place × Stmt)} {A B C : Place → Prop}

theorem Ending.Tells.mono (h : e.Tells l A) (hA : ∀ q, A q → C q) : e.Tells l C := by
  obtain ⟨ends, hnd, hmem, hin, hs⟩ := h.ends
  exact ⟨h.falls, ends, hnd, hmem, fun p hp => hA _ (hin p hp), hs⟩

theorem nodup_ends_append {xs ys : List (Place × Stmt)} (hx : (xs.map Prod.fst).Nodup)
    (hy : (ys.map Prod.fst).Nodup) (hA : ∀ p ∈ xs, A p.1) (hB : ∀ p ∈ ys, B p.1)
    (apart : ∀ q, A q → ¬B q) : ((xs ++ ys).map Prod.fst).Nodup := by
  rw [List.map_append]
  refine List.nodup_append.2 ⟨hx, hy, ?_⟩
  rintro a ha b hb rfl
  obtain ⟨p, hp, rfl⟩ := List.mem_map.1 ha
  obtain ⟨p', hp', heq⟩ := List.mem_map.1 hb
  exact apart _ (hA p hp) (heq ▸ hB p' hp')

/-- One thing after the other: what comes first matters where the second can be left at once. -/
theorem Ending.Tells.mul (he : e.Tells l A) (hf : f.Tells m B) (hl : ∃ w, w ∈ l)
    (apart : ∀ q, A q → ¬B q) (hA : ∀ q, A q → C q) (hB : ∀ q, B q → C q) :
    (if f.falls then ⟨e.falls, f.unseen ++ e.unseen⟩ else f : Ending).Tells (l * m) C := by
  by_cases hfalls : f.falls = true
  · rw [if_pos hfalls]
    obtain ⟨xs, hx, hmemx, hinx, hsx⟩ := he.ends
    obtain ⟨ys, hy, hmemy, hiny, hsy⟩ := hf.ends
    have empty : [] ∈ m := hf.falls.1 hfalls
    refine ⟨?_, ys ++ xs, ?_, fun p => ?_, ?_, ?_⟩
    · rw [nil_mem_mul_iff, ← he.falls]
      exact (and_iff_left empty).symm
    · exact nodup_ends_append hy hx hiny hinx fun q hb ha => apart q ha hb
    · rw [List.mem_append, hmemx, hmemy, closes_mul hl, ← or_and_right]
      simp only [empty, true_and]
    · rw [List.forall_mem_append]
      exact ⟨fun p hp => hB _ (hiny p hp), fun p hp => hA _ (hinx p hp)⟩
    · rw [List.map_append, hsx, hsy]
  · rw [if_neg hfalls]
    have nonempty : [] ∉ m := fun h => hfalls (hf.falls.2 h)
    obtain ⟨ys, hy, hmemy, hiny, hsy⟩ := hf.ends
    refine ⟨?_, ys, hy, fun p => ?_, fun p hp => hB _ (hiny p hp), hsy⟩
    · rw [nil_mem_mul_iff]
      exact iff_of_false hfalls fun h => nonempty h.2
    · rw [hmemy, closes_mul hl]
      simp only [nonempty, false_and, or_false]

theorem Ending.Tells.add (he : e.Tells l A) (hf : f.Tells m B) (apart : ∀ q, A q → ¬B q)
    (hA : ∀ q, A q → C q) (hB : ∀ q, B q → C q) :
    (⟨e.falls || f.falls, e.unseen ++ f.unseen⟩ : Ending).Tells (l + m) C := by
  obtain ⟨xs, hx, hmemx, hinx, hsx⟩ := he.ends
  obtain ⟨ys, hy, hmemy, hiny, hsy⟩ := hf.ends
  refine ⟨?_, xs ++ ys, nodup_ends_append hx hy hinx hiny apart, fun p => ?_, ?_, ?_⟩
  · rw [Bool.or_eq_true, he.falls, hf.falls, Language.mem_add]
  · rw [List.mem_append, hmemx, hmemy, closes_add, or_and_right]
  · rw [List.forall_mem_append]
    exact ⟨fun p hp => hA _ (hinx p hp), fun p hp => hB _ (hiny p hp)⟩
  · rw [List.map_append, hsx, hsy]

end Tells

section Exactness

variable {place : Place} {i : Nat} {x : Stmt} {body : List Stmt} {branches : List IfBranch}

theorem Stmt.IsStep.tells {e : Ending} (hx : x.IsStep) (hf : e.falls = false)
    (hu : (x.Shown ∧ e.unseen = []) ∨ (¬x.Shown ∧ e.unseen = [x])) :
    e.Tells (x.outlines place) (place <+: ·) := by
  rw [hx.outlines]
  refine ⟨iff_of_false (by simp [hf]) (fun h => by cases h), ?_⟩
  rcases hu with ⟨hshown, hu⟩ | ⟨hhidden, hu⟩
  · refine ⟨[], List.nodup_nil, fun p => ?_, by simp, hu.symm⟩
    rw [closes_singleton]
    exact iff_of_false List.not_mem_nil fun ⟨hp, hn⟩ => hn (hp ▸ hshown)
  · refine ⟨[(place, x)], by simp, fun p => ?_, by simp, hu.symm⟩
    rw [closes_singleton, List.mem_singleton]
    exact (and_iff_left_of_imp fun hp => hp ▸ hhidden).symm

theorem plain_tells (area : TextArea) (action : Action) (place : Place) :
    (Stmt.plain area action).ending.Tells ((Stmt.plain area action).outlines place) (place <+: ·) := by
  have hx : (Stmt.plain area action).IsStep := trivial
  cases action with
  | call => exact hx.tells rfl (Or.inl ⟨Or.inr rfl, rfl⟩)
  | output | line | run | checkpoint => exact hx.tells rfl (Or.inl ⟨Or.inl rfl, rfl⟩)
  | declareOutcome | declareSpectrum | assign | adjust =>
    exact hx.tells rfl (Or.inr ⟨by simp [Stmt.Shown, Stmt.visible, Action.visible, Stmt.callee?], rfl⟩)

theorem body_tells (h : ∀ x ∈ body, ∀ place, x.ending.Tells (x.outlines place) (place <+: ·)) :
    (bodyEnding body).Tells (bodyOutlines place i body) (Within place i (i + body.length)) := by
  induction body generalizing i with
  | nil =>
    refine ⟨iff_of_true rfl rfl, [], List.nodup_nil, fun p => iff_of_false List.not_mem_nil ?_, by simp, rfl⟩
    rintro ⟨⟨u, hu⟩, -⟩
    simp [bodyOutlines] at hu
  | cons x rest ih =>
    obtain ⟨hx, hrest⟩ := List.forall_mem_cons.1 h
    have first := (hx (place ++ [i])).mono fun q hq => within_of_prefix hq
    have later := ih (i := i + 1) hrest
    rw [List.length_cons]
    exact first.mul later (x.exists_mem_outlines _) (fun q hq => hq.apart le_rfl)
      (fun q hq => hq.mono le_rfl (by omega)) (fun q hq => hq.mono (Nat.le_succ i) (by omega))

theorem branches_tell (h : ∀ b ∈ branches, ∀ x ∈ b.body, ∀ place,
    x.ending.Tells (x.outlines place) (place <+: ·)) :
    (branchEnding branches).Tells (branchOutlines place i branches)
      (Within place i (i + branches.length)) := by
  induction branches generalizing i with
  | nil =>
    refine ⟨iff_of_false (by simp [branchEnding]) (Language.notMem_zero _), [], List.nodup_nil,
      fun p => iff_of_false List.not_mem_nil ?_, by simp, rfl⟩
    rintro ⟨⟨u, hu⟩, -⟩
    exact Language.notMem_zero _ hu
  | cons b rest ih =>
    obtain ⟨condition, body⟩ := b
    obtain ⟨hb, hrest⟩ := List.forall_mem_cons.1 h
    have first : (bodyEnding body).Tells (bodyOutlines (place ++ [i]) 0 body) (Within place i (i + 1)) :=
      (body_tells hb).mono fun q hq => within_of_prefix hq.prefix
    have later := ih (i := i + 1) hrest
    rw [List.length_cons]
    exact first.add later (fun q hq => hq.apart le_rfl) (fun q hq => hq.mono le_rfl (by omega))
      (fun q hq => hq.mono (Nat.le_succ i) (by omega))

theorem Stmt.ending_tells : ∀ (x : Stmt) (place : Place),
    x.ending.Tells (x.outlines place) (place <+: ·) := by
  refine Hereditary.stmt ⟨plain_tells, fun _ _ _ _ _ place => ?_, fun _ _ _ _ place => ?_,
    fun area branches hasElse elseBody hb he place => ?_⟩
  · exact Stmt.IsStep.tells trivial rfl (Or.inl ⟨Or.inl rfl, rfl⟩)
  · exact Stmt.IsStep.tells trivial rfl (Or.inl ⟨Or.inl rfl, rfl⟩)
  · have first : (branchEnding branches).Tells (branchOutlines place 0 branches) _ := branches_tell hb
    have last : (bodyEnding elseBody).Tells (bodyOutlines (place ++ [branches.length]) 0 elseBody)
        (Within place branches.length (branches.length + 1)) :=
      (body_tells he).mono fun q hq => within_of_prefix hq.prefix
    exact first.add last (fun q hq => hq.apart (by omega)) (fun q hq => hq.prefix) (fun q hq => hq.prefix)

theorem bodyEnding_tells (place : Place) (i : Nat) (body : List Stmt) :
    (bodyEnding body).Tells (bodyOutlines place i body) (Within place i (i + body.length)) :=
  body_tells fun x _ => x.ending_tells

end Exactness

section Executions

variable {table : SymbolTable} {scene : String} {x : Stmt} {body : List Stmt} {l m : Language Stmt}

def EndsShown (l : Language Stmt) : Prop := ∀ x, Closes l x → x.Shown

theorem endsShown_singleton (h : x.Shown) : EndsShown {[x]} := by
  intro y hy
  rwa [closes_singleton.1 hy]

theorem EndsShown.mul (hl : [] ∈ m → EndsShown l) (hm : EndsShown m) : EndsShown (l * m) := by
  intro x hx
  rcases hx.of_mul with hx | ⟨empty, hx⟩
  · exact hm x hx
  · exact hl empty x hx

theorem EndsShown.add (hl : EndsShown l) (hm : EndsShown m) : EndsShown (l + m) :=
  fun x hx => (closes_add.1 hx).elim (hl x) (hm x)

theorem EndsShown.kstar (hl : EndsShown l) : EndsShown l∗ := fun x hx => hl x hx.of_kstar

theorem endsShown_options {chosen : Bool → Prop} {options : List MenuOption}
    (h : ∀ o ∈ options, EndsShown (bodyExecutions table o.body)) :
    EndsShown (optionExecutions table chosen options) := by
  rintro x ⟨w, hw⟩
  obtain ⟨o, ho, -, hw⟩ := mem_optionExecutions.1 hw
  exact h o ho x ⟨w, hw⟩

theorem endsShown_cases {entered : BranchCase → Prop} {cases : List BranchCase}
    (h : ∀ c ∈ cases, EndsShown (bodyExecutions table c.body)) :
    EndsShown (caseExecutions table entered cases) := by
  rintro x ⟨w, hw⟩
  obtain ⟨c, hc, -, hw⟩ := mem_caseExecutions.1 hw
  exact h c hc x ⟨w, hw⟩

theorem endsShown_branches {branches : List IfBranch}
    (h : ∀ b ∈ branches, EndsShown (bodyExecutions table b.body)) :
    EndsShown (branchExecutions table branches) := by
  rintro x ⟨w, hw⟩
  obtain ⟨b, hb, hw⟩ := mem_branchExecutions.1 hw
  exact h b hb x ⟨w, hw⟩

/-- A body whose executions can be empty falls through. -/
theorem falls_of_nil_mem (h : [] ∈ bodyExecutions table body) : (bodyEnding body).falls = true := by
  rw [(bodyEnding_tells [] 0 body).falls]
  exact (nil_mem_bodyExecutions_iff fun x _ => x.nil_mem_executions_iff table).1 h

theorem unseen_branches {branches : List IfBranch} (h : (branchEnding branches).unseen = []) :
    ∀ b ∈ branches, (bodyEnding b.body).unseen = [] := by
  induction branches with
  | nil => simp
  | cons b rest ih =>
    obtain ⟨condition, body⟩ := b
    rw [branchEnding, List.append_eq_nil_iff] at h
    exact List.forall_mem_cons.2 ⟨h.1, ih h.2⟩

theorem unseen_of_endingProblems (h : Scene.endingProblems scene body = []) :
    (bodyEnding body).unseen = [] := List.map_eq_nil_iff.1 h

end Executions

namespace Scene

variable {table : SymbolTable} {scene : String} {x y : Stmt} {body : List Stmt}

section Rules

variable {area : TextArea} {name : String} {kind : MenuKind} {options : List MenuOption}
  {cases : List BranchCase}

theorem bodyProblems_eq_nil (h : bodyProblems table scene body = []) :
    ∀ x ∈ body, x.problems table scene = [] := by
  induction body with
  | nil => simp
  | cons x rest ih =>
    rw [bodyProblems, List.append_eq_nil_iff] at h
    exact List.forall_mem_cons.2 ⟨h.1, ih h.2⟩

theorem option_lawful (h : optionProblems table scene area kind options = []) :
    ∀ o ∈ options, openingProblems scene kind o.label o.body = [] ∧
      endingProblems scene o.body = [] := by
  induction options with
  | nil => simp
  | cons o rest ih =>
    obtain ⟨area', label, loop, body⟩ := o
    simp only [optionProblems, List.append_eq_nil_iff] at h
    exact List.forall_mem_cons.2 ⟨h.1.1.1, ih h.2⟩

theorem case_lawful {seen : Bool} (h : caseProblems scene area name seen cases = []) :
    ∀ c ∈ cases, endingProblems scene c.body = [] := by
  induction cases generalizing seen with
  | nil => simp
  | cons c rest ih =>
    simp only [caseProblems, List.append_eq_nil_iff] at h
    exact List.forall_mem_cons.2 ⟨h.1.1, ih h.2⟩

theorem exists_of_mem_bodyNodes (h : .stmt y ∈ bodyNodes body) : ∃ x ∈ body, .stmt y ∈ x.nodes := by
  induction body with
  | nil => simp [bodyNodes] at h
  | cons x rest ih =>
    rw [bodyNodes, List.mem_append] at h
    rcases h with h | h
    · exact ⟨x, List.mem_cons_self, h⟩
    · obtain ⟨z, hz, h⟩ := ih h
      exact ⟨z, List.mem_cons_of_mem _ hz, h⟩

theorem lawful_in_body (hb : ∀ x ∈ body, .stmt y ∈ x.nodes → x.problems table scene = [] →
      y.problems table scene = [])
    (hy : .stmt y ∈ bodyNodes body) (hp : bodyProblems table scene body = []) :
    y.problems table scene = [] := by
  obtain ⟨x, hx, hy⟩ := exists_of_mem_bodyNodes hy
  exact hb x hx hy (bodyProblems_eq_nil hp x hx)

theorem lawful_in_stmt : ∀ x : Stmt, .stmt y ∈ x.nodes → x.problems table scene = [] →
    y.problems table scene = [] := by
  refine Hereditary.stmt ⟨fun area action hy hp => ?_, fun area kind prompt options hb hy hp => ?_,
    fun area name cases hb hy hp => ?_, fun area branches hasElse elseBody hb he hy hp => ?_⟩
  · rwa [TreeNode.stmt.inj (List.mem_singleton.1 hy)]
  · rcases List.mem_append.1 hy with hin | hy
    · obtain ⟨o, ho, hin⟩ := exists_of_mem_optionNodes hin
      exact lawful_in_body (hb o ho) hin (optionProblems_eq_nil (menu_lawful hp).2 o ho)
    · rwa [TreeNode.stmt.inj (List.mem_singleton.1 hy)]
  · rcases List.mem_append.1 hy with hin | hy
    · obtain ⟨c, hc, hin⟩ := exists_of_mem_caseNodes hin
      rw [Stmt.problems] at hp
      obtain ⟨-, hbodies⟩ := List.append_eq_nil_iff.1 (List.append_eq_nil_iff.1 hp).1
      exact lawful_in_body (hb c hc) hin (caseBodyProblems_eq_nil hbodies c hc)
    · rwa [TreeNode.stmt.inj (List.mem_singleton.1 hy)]
  · rcases List.mem_append.1 hy with hin | hy
    · rw [Stmt.problems, List.append_eq_nil_iff] at hp
      rcases List.mem_append.1 hin with hin | hin
      · obtain ⟨b, hbm, hin⟩ := exists_of_mem_branchNodes hin
        exact lawful_in_body (hb b hbm) hin (branchBodyProblems_eq_nil hp.1 b hbm)
      · exact lawful_in_body he hin hp.2
    · rwa [TreeNode.stmt.inj (List.mem_singleton.1 hy)]

theorem lawful_of_build {s : Scene} {supply : Supply} {built : Built} {g : Graph}
    (h : s.build table supply = .ok built) (hg : built.graph = some g)
    (hy : .stmt y ∈ bodyNodes s.body) : y.problems table s.name = [] := by
  obtain ⟨d, -, ⟨hp, -⟩ | ⟨-, hnone, -⟩⟩ := build_cases h
  · exact lawful_in_body (fun x _ => lawful_in_stmt x) hy hp
  · cases hnone.symm.trans hg

end Rules

section Ends

theorem body_endsShown (hb : ∀ x ∈ body, x.problems table scene = [] → x.ending.unseen = [] →
      EndsShown (x.executions table))
    (hp : bodyProblems table scene body = []) (hu : (bodyEnding body).unseen = []) :
    EndsShown (bodyExecutions table body) := by
  induction body with
  | nil =>
    rintro x ⟨w, hw⟩
    exact absurd (show w ++ [x] = [] from hw) (by simp)
  | cons x rest ih =>
    obtain ⟨hx, hrest⟩ := List.forall_mem_cons.1 hb
    rw [bodyProblems, List.append_eq_nil_iff] at hp
    rw [bodyEnding] at hu
    dsimp only at hu
    rw [bodyExecutions]
    by_cases hfalls : (bodyEnding rest).falls = true
    · rw [if_pos hfalls, List.append_eq_nil_iff] at hu
      exact EndsShown.mul (fun _ => hx hp.1 hu.2) (ih hrest hp.2 hu.1)
    · rw [if_neg hfalls] at hu
      exact EndsShown.mul (fun empty => absurd (falls_of_nil_mem empty) hfalls) (ih hrest hp.2 hu)

theorem options_endShown {area : TextArea} {kind : MenuKind} {prompt : String} {options : List MenuOption}
    (hb : ∀ o ∈ options, ∀ x ∈ o.body, x.problems table scene = [] → x.ending.unseen = [] →
      EndsShown (x.executions table))
    (hp : (Stmt.menu area kind prompt options).problems table scene = []) :
    ∀ o ∈ options, EndsShown (bodyExecutions table o.body) := by
  intro o ho
  obtain ⟨-, hp⟩ := menu_lawful hp
  exact body_endsShown (hb o ho) (optionProblems_eq_nil hp o ho)
    (unseen_of_endingProblems (option_lawful hp o ho).2)

theorem cases_endShown {area : TextArea} {name : String} {cases : List BranchCase}
    (hb : ∀ c ∈ cases, ∀ x ∈ c.body, x.problems table scene = [] → x.ending.unseen = [] →
      EndsShown (x.executions table))
    (hp : (Stmt.branchOn area name cases).problems table scene = []) :
    ∀ c ∈ cases, EndsShown (bodyExecutions table c.body) := by
  intro c hc
  rw [Stmt.problems, List.append_assoc] at hp
  obtain ⟨hcases, hp⟩ := List.append_eq_nil_iff.1 hp
  obtain ⟨hbodies, -⟩ := List.append_eq_nil_iff.1 hp
  exact body_endsShown (hb c hc) (caseBodyProblems_eq_nil hbodies c hc)
    (unseen_of_endingProblems (case_lawful hcases c hc))

theorem stmt_endsShown : ∀ x : Stmt, x.problems table scene = [] → x.ending.unseen = [] →
    EndsShown (x.executions table) := by
  refine Hereditary.stmt ⟨fun area action _ hu => ?_, fun area kind prompt options hb hp _ => ?_,
    fun area name cases hb hp _ => ?_, fun area branches hasElse elseBody hb he hp hu => ?_⟩
  · refine endsShown_singleton ?_
    by_contra hhidden
    obtain ⟨ends, -, hmem, -, hs⟩ := (plain_tells area action []).ends
    rw [hu, List.map_eq_nil_iff] at hs
    have hm := (hmem ([], .plain area action)).2 ⟨closes_singleton.2 rfl, hhidden⟩
    rw [hs] at hm
    cases hm
  · have chosen : ∀ p, EndsShown (optionExecutions table p options) :=
      fun _ => endsShown_options (options_endShown hb hp)
    have ask : EndsShown {[.menu area kind prompt options]} := endsShown_singleton (Or.inl rfl)
    rw [Stmt.executions]
    split
    · exact .mul (fun _ => ask) (.mul (fun _ => .kstar (.mul (fun _ => chosen _) ask)) (chosen _))
    · exact .mul (fun _ => ask) (chosen _)
  · rw [Stmt.executions]
    exact .mul (fun _ => endsShown_singleton (Or.inl rfl)) (endsShown_cases (cases_endShown hb hp))
  · rw [Stmt.problems, List.append_eq_nil_iff] at hp
    rw [Stmt.ending, List.append_eq_nil_iff] at hu
    rw [Stmt.executions]
    refine .add (endsShown_branches fun b hbm => ?_) (body_endsShown he hp.2 hu.2)
    exact body_endsShown (hb b hbm) (branchBodyProblems_eq_nil hp.1 b hbm) (unseen_branches hu.1 b hbm)

end Ends

/-- The ending of a body tells whether it has an empty outline, and the reports are about the hidden
statements that outlines end on, one for every place. So in a scene that is built, the executions of options
and cases that do anything end on a statement that is seen, or on a call. -/
theorem endings_exact :
    (∀ (scene : String) (body : List Stmt),
      ((bodyEnding body).falls = true ↔ [] ∈ bodyOutlines [] 0 body) ∧
      ∃ ends : List (Place × Stmt), (ends.map Prod.fst).Nodup ∧
        (∀ p, p ∈ ends ↔ Closes (bodyOutlines [] 0 body) p ∧ ¬p.2.Shown) ∧
        endingProblems scene body = ends.map fun p =>
          problem scene .invisibleEnd p.2.area [] ("branch body ends on " ++ p.2.label)) ∧
    ∀ (table : SymbolTable) (s : Scene) (supply : Supply) (built : Built) (g : Graph),
      s.build table supply = .ok built → built.graph = some g →
      (∀ area kind prompt options, .stmt (.menu area kind prompt options) ∈ bodyNodes s.body →
        ∀ o ∈ options, EndsShown (bodyExecutions table o.body)) ∧
      ∀ area name cases, .stmt (.branchOn area name cases) ∈ bodyNodes s.body →
        ∀ c ∈ cases, EndsShown (bodyExecutions table c.body) := by
  refine ⟨fun scene body => ?_, fun table s supply built g hbuild hg => ⟨?_, ?_⟩⟩
  · obtain ⟨falls, ends, hnd, hmem, -, hs⟩ := bodyEnding_tells [] 0 body
    refine ⟨falls, ends, hnd, hmem, ?_⟩
    rw [endingProblems, ← hs, List.map_map]
    rfl
  · intro area kind prompt options hm
    exact options_endShown (fun _ _ x _ => stmt_endsShown x) (lawful_of_build hbuild hg hm)
  · intro area name cases hm
    exact cases_endShown (fun _ _ x _ => stmt_endsShown x) (lawful_of_build hbuild hg hm)

/-- Two ifs at the end, the first of which can be left without doing anything, and a third inside. -/
def vigil : List Stmt := [
  .plain {} (.assign "mood" "calm"),
  .plain {} (.output "bells"),
  .ifElse {} [⟨"late", [.plain {} (.call "road")]⟩, ⟨"early", []⟩] false [],
  .ifElse {} [⟨"dark", [
    .plain {} (.assign "mood" "grim"),
    .ifElse {} [⟨"lit", [.plain {} (.line "monk" "come")]⟩] true [.plain {} (.output "night")]]⟩] false []]

def vespers : Scene where
  area := {}
  name := "vespers"
  chapter := false
  body := [.menu {} .choose "Stay?" [⟨{}, "stay", false, vigil⟩, ⟨{}, "go", false, []⟩]]

/-- What was shown at the end is now hidden, in front of the ifs as well as inside. -/
def stray : List Stmt := [
  .plain {} (.adjust "mood" true),
  .ifElse {} [⟨"late", [.plain {} (.call "road")]⟩, ⟨"early", []⟩] false [],
  .ifElse {} [⟨"dark", [
    .plain {} (.assign "mood" "grim"),
    .ifElse {} [⟨"lit", []⟩] true [.plain {} (.assign "mood" "grim")]]⟩] false []]

theorem endings_exact_vespers :
    (∃ built g, vespers.build moods {} = .ok built ∧ built.graph = some g ∧
      EndsShown (bodyExecutions moods vigil)) ∧
    ∃ ends : List (Place × Stmt), ends.length = 3 ∧ (ends.map Prod.fst).Nodup ∧
      ∀ p, p ∈ ends ↔ Closes (bodyOutlines [] 0 stray) p ∧ ¬p.2.Shown := by
  obtain ⟨tells, shown⟩ := endings_exact
  constructor
  · obtain ⟨built, g, hb, hg⟩ : ∃ built g, vespers.build moods {} = .ok built ∧
        built.graph = some g := ⟨_, _, rfl, rfl⟩
    obtain ⟨menus, -⟩ := shown moods vespers {} built g hb hg
    have stay := menus {} .choose "Stay?" [⟨{}, "stay", false, vigil⟩, ⟨{}, "go", false, []⟩]
      (by simp [vespers, bodyNodes, Stmt.nodes])
    exact ⟨built, g, hb, hg, stay _ List.mem_cons_self⟩
  · obtain ⟨-, ends, hnd, hmem, hreports⟩ := tells "home" stray
    refine ⟨ends, ?_, hnd, hmem⟩
    have count : (endingProblems "home" stray).length = 3 := rfl
    rwa [hreports, List.length_map] at count

end Scene

end StoryFlow
