import StoryFlow.Proofs.Story.Steps

/-! Outlines of a body: the ways through it with menus and branches as single steps, so that only the ifs are
looked into. Every step is noted with its place. An outline tells where an execution begins: control comes
first to the statements that an outline begins with, and an execution can be empty if an outline can. -/

namespace StoryFlow

open Computability

section Ends

variable {α : Type} {l m : Language α} {a b : α}

def Opens (l : Language α) (a : α) : Prop := ∃ w, a :: w ∈ l

def Closes (l : Language α) (a : α) : Prop := ∃ w, w ++ [a] ∈ l

theorem nil_mem_mul_iff : [] ∈ l * m ↔ [] ∈ l ∧ [] ∈ m := by
  rw [Language.mem_mul]
  constructor
  · rintro ⟨x, hx, y, hy, h⟩
    obtain ⟨rfl, rfl⟩ := List.append_eq_nil_iff.1 h
    exact ⟨hx, hy⟩
  · rintro ⟨hl, hm⟩
    exact ⟨[], hl, [], hm, rfl⟩

theorem opens_add : Opens (l + m) a ↔ Opens l a ∨ Opens m a := by
  simp only [Opens, Language.mem_add, exists_or]

theorem closes_add : Closes (l + m) a ↔ Closes l a ∨ Closes m a := by
  simp only [Closes, Language.mem_add, exists_or]

theorem Opens.of_mul (h : Opens (l * m) a) : Opens l a ∨ ([] ∈ l ∧ Opens m a) := by
  obtain ⟨w, hw⟩ := h
  obtain ⟨x, hx, y, hy, hxy⟩ := Language.mem_mul.1 hw
  cases x with
  | nil => exact Or.inr ⟨hx, w, by rwa [← hxy]⟩
  | cons c x =>
    obtain ⟨rfl, -⟩ := List.cons.inj hxy
    exact Or.inl ⟨x, hx⟩

theorem Closes.of_mul (h : Closes (l * m) a) : Closes m a ∨ ([] ∈ m ∧ Closes l a) := by
  obtain ⟨w, hw⟩ := h
  obtain ⟨x, hx, y, hy, hxy⟩ := Language.mem_mul.1 hw
  rcases List.eq_nil_or_concat y with rfl | ⟨y, c, rfl⟩
  · exact Or.inr ⟨hy, w, by rwa [← hxy, List.append_nil]⟩
  · have hlast : (x ++ y) ++ [c] = w ++ [a] := by simpa using hxy
    obtain ⟨-, hc⟩ := List.append_inj' hlast rfl
    obtain rfl : c = a := by simpa using hc
    exact Or.inl ⟨y, by simpa using hy⟩

/-- If the second part is never missing, the product begins as the first part does, or as the second one
where the first is empty. -/
theorem opens_mul (hm : ∃ w, w ∈ m) : Opens (l * m) a ↔ Opens l a ∨ ([] ∈ l ∧ Opens m a) := by
  refine ⟨Opens.of_mul, ?_⟩
  rintro (⟨x, hx⟩ | ⟨hl, y, hy⟩)
  · obtain ⟨y, hy⟩ := hm
    exact ⟨x ++ y, Language.append_mem_mul hx hy⟩
  · exact ⟨y, Language.append_mem_mul (a := []) hl hy⟩

theorem closes_mul (hl : ∃ w, w ∈ l) : Closes (l * m) a ↔ Closes m a ∨ ([] ∈ m ∧ Closes l a) := by
  refine ⟨Closes.of_mul, ?_⟩
  rintro (⟨y, hy⟩ | ⟨hm, x, hx⟩)
  · obtain ⟨x, hx⟩ := hl
    exact ⟨x ++ y, by simpa using Language.append_mem_mul hx hy⟩
  · exact ⟨x, by simpa using Language.append_mem_mul hx hm⟩

theorem Closes.of_kstar (h : Closes l∗ a) : Closes l a := by
  obtain ⟨w, hw⟩ := h
  obtain ⟨parts, hparts, hl⟩ := Language.mem_kstar.1 hw
  clear hw
  induction parts using List.reverseRecOn generalizing w with
  | nil => simp at hparts
  | append_singleton parts y ih =>
    simp only [List.mem_append, List.mem_singleton, or_imp, forall_and, forall_eq] at hl
    rw [List.flatten_append, List.flatten_singleton] at hparts
    rcases List.eq_nil_or_concat y with rfl | ⟨y, c, rfl⟩
    · rw [List.append_nil] at hparts
      exact ih w hparts hl.1
    · have hlast : w ++ [a] = (parts.flatten ++ y) ++ [c] := by simpa using hparts
      obtain ⟨-, hc⟩ := List.append_inj' hlast rfl
      obtain rfl : a = c := by simpa using hc
      exact ⟨y, by simpa using hl.2⟩

theorem opens_singleton : Opens ({[b]} : Language α) a ↔ a = b := by
  constructor
  · rintro ⟨w, hw⟩
    exact (List.cons.inj hw).1
  · rintro rfl
    exact ⟨[], rfl⟩

theorem closes_singleton : Closes ({[b]} : Language α) a ↔ a = b := by
  constructor
  · rintro ⟨w, hw⟩
    have hw : w ++ [a] = [] ++ [b] := hw
    simpa using (List.append_inj' hw rfl).2
  · rintro rfl
    exact ⟨[], rfl⟩

end Ends

/-- Where a statement stands: the index in its body, and in front of it, for a statement inside of an if, the
place of the if and the number of the branch. The else has the number behind those of the branches. -/
abbrev Place := List Nat

mutual

/-- The outlines of a statement at a place. An if is carried out as one of its branches or as its else. -/
def Stmt.outlines (place : Place) : Stmt → Language (Place × Stmt)
  | .plain area action => {[(place, .plain area action)]}
  | .menu area kind prompt options => {[(place, .menu area kind prompt options)]}
  | .branchOn area name cases => {[(place, .branchOn area name cases)]}
  | .ifElse _ branches _ elseBody =>
    branchOutlines place 0 branches + bodyOutlines (place ++ [branches.length]) 0 elseBody

def bodyOutlines (place : Place) (i : Nat) : List Stmt → Language (Place × Stmt)
  | [] => 1
  | s :: rest => s.outlines (place ++ [i]) * bodyOutlines place (i + 1) rest

def branchOutlines (place : Place) (i : Nat) : List IfBranch → Language (Place × Stmt)
  | [] => 0
  | ⟨_, body⟩ :: rest => bodyOutlines (place ++ [i]) 0 body + branchOutlines place (i + 1) rest

end

variable {table : SymbolTable} {place : Place} {i : Nat} {x t : Stmt} {body rest elseBody : List Stmt}
  {branches : List IfBranch} {area : TextArea} {hasElse : Bool}

theorem Stmt.IsStep.outlines (h : x.IsStep) : x.outlines place = {[(place, x)]} := by
  cases x with
  | ifElse => cases h
  | plain | menu | branchOn => rw [Stmt.outlines]

section Existence

theorem exists_mem_bodyOutlines (h : ∀ x ∈ body, ∀ place, ∃ w, w ∈ x.outlines place) :
    ∃ w, w ∈ bodyOutlines place i body := by
  induction body generalizing i with
  | nil => exact ⟨[], rfl⟩
  | cons x rest ih =>
    obtain ⟨hx, hrest⟩ := List.forall_mem_cons.1 h
    obtain ⟨u, hu⟩ := hx (place ++ [i])
    obtain ⟨v, hv⟩ := ih (i := i + 1) hrest
    rw [bodyOutlines]
    exact ⟨u ++ v, Language.append_mem_mul hu hv⟩

theorem Stmt.exists_mem_outlines : ∀ (x : Stmt) (place : Place), ∃ w, w ∈ x.outlines place := by
  refine Hereditary.stmt ⟨fun _ _ place => ?_, fun _ _ _ _ _ place => ?_, fun _ _ _ _ place => ?_,
    fun _ _ _ _ _ he place => ?_⟩
  · exact ⟨_, rfl⟩
  · exact ⟨_, rfl⟩
  · exact ⟨_, rfl⟩
  · obtain ⟨w, hw⟩ := exists_mem_bodyOutlines he
    rw [Stmt.outlines]
    exact ⟨w, Or.inr hw⟩

theorem exists_outline (place : Place) (i : Nat) (body : List Stmt) :
    ∃ w, w ∈ bodyOutlines place i body :=
  exists_mem_bodyOutlines fun x _ => x.exists_mem_outlines

end Existence

section Empty

theorem nil_mem_bodyExecutions_iff
    (h : ∀ x ∈ body, ∀ place, [] ∈ x.executions table ↔ [] ∈ x.outlines place) :
    [] ∈ bodyExecutions table body ↔ [] ∈ bodyOutlines place i body := by
  induction body generalizing i with
  | nil => exact iff_of_true rfl rfl
  | cons x rest ih =>
    obtain ⟨hx, hrest⟩ := List.forall_mem_cons.1 h
    rw [bodyExecutions, bodyOutlines, nil_mem_mul_iff, nil_mem_mul_iff, hx, ih hrest]

theorem nil_mem_branchExecutions_iff
    (h : ∀ b ∈ branches, ∀ x ∈ b.body, ∀ place, [] ∈ x.executions table ↔ [] ∈ x.outlines place) :
    [] ∈ branchExecutions table branches ↔ [] ∈ branchOutlines place i branches := by
  induction branches generalizing i with
  | nil => exact Iff.rfl
  | cons b rest ih =>
    obtain ⟨condition, body⟩ := b
    obtain ⟨hb, hrest⟩ := List.forall_mem_cons.1 h
    rw [branchExecutions, branchOutlines, Language.mem_add, Language.mem_add, ih hrest,
      nil_mem_bodyExecutions_iff hb]

theorem Stmt.nil_mem_executions_iff (table : SymbolTable) :
    ∀ (x : Stmt) (place : Place), [] ∈ x.executions table ↔ [] ∈ x.outlines place := by
  -- the word of a step is not empty, nor is a product that begins with it
  have step : ∀ (α : Type) (a : α), [] ∉ ({[a]} : Language α) := fun _ _ h => by cases h
  refine Hereditary.stmt ⟨fun area action place => ?_, fun area kind prompt options _ place => ?_,
    fun area name cases _ place => ?_, fun area branches hasElse elseBody hb he place => ?_⟩
  · exact iff_of_false (step _ _) (step _ _)
  · refine iff_of_false (fun h => ?_) (step _ _)
    rw [Stmt.executions] at h
    split at h
    · exact step _ _ (nil_mem_mul_iff.1 h).1
    · exact step _ _ (nil_mem_mul_iff.1 h).1
  · refine iff_of_false (fun h => ?_) (step _ _)
    rw [Stmt.executions] at h
    exact step _ _ (nil_mem_mul_iff.1 h).1
  · rw [Stmt.executions, Stmt.outlines, Language.mem_add, Language.mem_add,
      nil_mem_branchExecutions_iff hb, nil_mem_bodyExecutions_iff he]

end Empty

section First

theorem Begins.append {u : List Stmt} (h : Begins table body u t) (back : List Stmt) :
    Begins table (body ++ back) u t := by
  induction h with
  | here hs => exact .here hs
  | next hv _ ih => exact .next hv ih
  | option ho hb => exact .option ho hb
  | again ho hr hv _ ih => exact .again ho hr hv ih
  | case hc he hb => exact .case hc he hb
  | branch hb ht => exact .branch hb ht
  | otherwise ht => exact .otherwise ht

theorem begins_cons_iff : Begins table (x :: rest) [] t ↔
    Begins table [x] [] t ∨ ([] ∈ x.executions table ∧ Begins table rest [] t) := by
  constructor
  · intro h
    rcases h.of_cons with h | ⟨u, v, huv, hu, hv⟩
    · exact Or.inl h
    · obtain ⟨rfl, rfl⟩ := List.append_eq_nil_iff.1 huv.symm
      exact Or.inr ⟨hu, hv⟩
  · rintro (h | ⟨hx, h⟩)
    · exact h.append rest
    · exact .next hx h

theorem Begins.cases_of_nil {u : List Stmt} (h : Begins table body u t) (hu : u = []) (hb : body = [x]) :
    (x.IsStep ∧ t = x) ∨ ∃ area branches hasElse elseBody, x = .ifElse area branches hasElse elseBody ∧
      ((∃ b ∈ branches, Begins table b.body [] t) ∨ Begins table elseBody [] t) := by
  cases h with
  | here hs =>
    obtain ⟨rfl, -⟩ := List.cons.inj hb
    exact Or.inl ⟨hs, rfl⟩
  | next _ hrest =>
    obtain ⟨-, rfl⟩ := List.cons.inj hb
    cases hrest
  | option => cases hu
  | again => simp at hu
  | case => cases hu
  | branch hm ht =>
    obtain ⟨rfl, -⟩ := List.cons.inj hb
    exact Or.inr ⟨_, _, _, _, rfl, Or.inl ⟨_, hm, hu ▸ ht⟩⟩
  | otherwise ht =>
    obtain ⟨rfl, -⟩ := List.cons.inj hb
    exact Or.inr ⟨_, _, _, _, rfl, Or.inr (hu ▸ ht)⟩

theorem begins_step_iff (hx : x.IsStep) : Begins table [x] [] t ↔ t = x := by
  constructor
  · intro h
    rcases h.cases_of_nil rfl rfl with ⟨-, ht⟩ | ⟨_, _, _, _, rfl, -⟩
    · exact ht
    · cases hx
  · rintro rfl
    exact .here hx

theorem begins_ifElse_iff : Begins table [.ifElse area branches hasElse elseBody] [] t ↔
    (∃ b ∈ branches, Begins table b.body [] t) ∨ Begins table elseBody [] t := by
  constructor
  · intro h
    rcases h.cases_of_nil rfl rfl with ⟨hs, -⟩ | ⟨_, _, _, _, heq, ht⟩
    · cases hs
    · cases heq
      exact ht
  · rintro (⟨b, hb, ht⟩ | ht)
    · exact .branch hb ht
    · exact .otherwise ht

theorem begins_body_iff
    (h : ∀ x ∈ body, ∀ place t, Begins table [x] [] t ↔ ∃ q, Opens (x.outlines place) (q, t)) :
    Begins table body [] t ↔ ∃ q, Opens (bodyOutlines place i body) (q, t) := by
  induction body generalizing i with
  | nil =>
    refine iff_of_false (fun hb => by cases hb) ?_
    rintro ⟨q, w, hw⟩
    cases hw
  | cons x rest ih =>
    obtain ⟨hx, hrest⟩ := List.forall_mem_cons.1 h
    simp only [bodyOutlines, opens_mul (exists_outline place (i + 1) rest), exists_or, exists_and_left]
    rw [begins_cons_iff, hx (place ++ [i]), ih (i := i + 1) hrest,
      x.nil_mem_executions_iff table (place ++ [i])]

theorem begins_branches_iff
    (h : ∀ b ∈ branches, ∀ x ∈ b.body, ∀ place t,
      Begins table [x] [] t ↔ ∃ q, Opens (x.outlines place) (q, t)) :
    (∃ b ∈ branches, Begins table b.body [] t) ↔ ∃ q, Opens (branchOutlines place i branches) (q, t) := by
  induction branches generalizing i with
  | nil =>
    refine iff_of_false (by simp) ?_
    rintro ⟨q, w, hw⟩
    cases hw
  | cons b rest ih =>
    obtain ⟨condition, body⟩ := b
    obtain ⟨hb, hrest⟩ := List.forall_mem_cons.1 h
    simp only [branchOutlines, opens_add, exists_or, List.exists_mem_cons_iff]
    rw [ih hrest, begins_body_iff hb]

theorem Stmt.begins_iff (table : SymbolTable) : ∀ (x : Stmt) (place : Place) (t : Stmt),
    Begins table [x] [] t ↔ ∃ q, Opens (x.outlines place) (q, t) := by
  have step : ∀ (x : Stmt) (_ : x.IsStep) (place : Place) (t : Stmt),
      Begins table [x] [] t ↔ ∃ q, Opens (x.outlines place) (q, t) := by
    intro x hx place t
    simp only [begins_step_iff hx, hx.outlines, opens_singleton, Prod.mk.injEq, exists_and_right,
      exists_eq, true_and]
  refine Hereditary.stmt ⟨fun _ _ => step _ trivial, fun _ _ _ _ _ => step _ trivial,
    fun _ _ _ _ => step _ trivial, fun area branches hasElse elseBody hb he place t => ?_⟩
  simp only [Stmt.outlines, opens_add, exists_or]
  rw [begins_ifElse_iff, begins_branches_iff hb, begins_body_iff he]

/-- Control comes first to the statements that an outline of the body begins with. -/
theorem begins_iff_opens (table : SymbolTable) (place : Place) (i : Nat) (body : List Stmt) (t : Stmt) :
    Begins table body [] t ↔ ∃ q, Opens (bodyOutlines place i body) (q, t) :=
  begins_body_iff fun x _ => x.begins_iff table

end First

end StoryFlow
