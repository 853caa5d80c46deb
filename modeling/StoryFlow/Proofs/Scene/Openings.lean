import StoryFlow.Proofs.Scene.Endings

/-! How options open. The opening of an option is read off its first statement, and the ifs are not looked into.
So the check is exact for bodies that do not begin with an if, and what a body that does begins with is what
its outlines begin with, prompts and calls included. -/

namespace StoryFlow

open StoryFlow.Flow

def Stmt.Asks : Stmt → Prop
  | .menu _ _ _ _ => True
  | .plain _ (.call _) => True
  | _ => False

section Executions

variable {table : SymbolTable} {body : List Stmt} {t : Stmt}

theorem begins_of_opens_body (hb : ∀ x ∈ body, Opens (x.executions table) t → Begins table [x] [] t)
    (h : Opens (bodyExecutions table body) t) : Begins table body [] t := by
  induction body with
  | nil =>
    obtain ⟨w, hw⟩ := h
    exact absurd (show t :: w = [] from hw) (by simp)
  | cons x rest ih =>
    obtain ⟨hx, hrest⟩ := List.forall_mem_cons.1 hb
    rw [bodyExecutions] at h
    rcases h.of_mul with h | ⟨empty, h⟩
    · exact begins_cons_iff.2 (Or.inl (hx h))
    · exact begins_cons_iff.2 (Or.inr ⟨empty, ih hrest h⟩)

theorem begins_of_opens_stmt : ∀ x : Stmt, Opens (x.executions table) t → Begins table [x] [] t := by
  -- what a step is carried out as begins with the step
  have step : ∀ (x : Stmt) (_ : x.IsStep) (l : Language Stmt), Opens ({[x]} * l) t →
      Begins table [x] [] t := by
    intro x hx l h
    rcases h.of_mul with h | ⟨empty, -⟩
    · exact (begins_step_iff hx).2 (opens_singleton.1 h)
    · cases empty
  refine Hereditary.stmt ⟨fun area action h => ?_, fun area kind prompt options _ h => ?_,
    fun area name cases _ h => ?_, fun area branches hasElse elseBody hb he h => ?_⟩
  · exact (begins_step_iff (x := .plain area action) trivial).2 (opens_singleton.1 h)
  · rw [Stmt.executions] at h
    split at h
    · exact step _ trivial _ h
    · exact step _ trivial _ h
  · exact step _ trivial _ h
  · rw [Stmt.executions] at h
    rw [begins_ifElse_iff]
    rcases opens_add.1 h with ⟨w, hw⟩ | h
    · obtain ⟨b, hbm, hw⟩ := mem_branchExecutions.1 hw
      exact Or.inl ⟨b, hbm, begins_of_opens_body (hb b hbm) ⟨w, hw⟩⟩
    · exact Or.inr (begins_of_opens_body he h)

theorem begins_of_opens (h : Opens (bodyExecutions table body) t) : Begins table body [] t :=
  begins_of_opens_body (fun x _ => begins_of_opens_stmt x) h

end Executions

namespace Scene

variable {table : SymbolTable} {scene : String} {kind : MenuKind} {label : String} {body : List Stmt}

theorem openingProblems_eq_nil_iff :
    openingProblems scene kind label body = [] ↔ ∀ x ∈ body.head?, ¬x.Asks := by
  rcases body with - | ⟨x, rest⟩
  · simp [openingProblems]
  · cases x with
    | plain area action => cases action <;> simp [openingProblems, Stmt.Asks]
    | menu | branchOn | ifElse => simp [openingProblems, Stmt.Asks]

/-- The first statement of a body that does not begin with an if is what every execution begins with. -/
theorem openingProblems_exact (hs : ∀ x ∈ body.head?, x.IsStep) :
    openingProblems scene kind label body = [] ↔ ∀ t, t.Asks → ¬Begins table body [] t := by
  rw [openingProblems_eq_nil_iff]
  rcases body with - | ⟨x, rest⟩
  · refine iff_of_true (by simp) fun t _ h => ?_
    cases h
  · have hx : x.IsStep := hs x rfl
    have first : ∀ t, Begins table (x :: rest) [] t ↔ t = x := by
      intro t
      rw [begins_cons_iff, begins_step_iff hx, or_iff_left]
      rintro ⟨empty, -⟩
      rw [x.nil_mem_executions_iff table [], hx.outlines] at empty
      cases empty
    constructor
    · rintro h t ht hb
      exact h x rfl ((first t).1 hb ▸ ht)
    · rintro h y hy ht
      cases hy
      exact h x ht ((first x).2 rfl)

/-- The check of openings is exact for bodies that do not begin with an if. An option of a scene that is built
opens with a prompt or a call only if its body begins with an if, and then if one of its outlines does. -/
theorem openings_exact (table : SymbolTable) (s : Scene) :
    (∀ (kind : MenuKind) (label : String) (body : List Stmt), (∀ x ∈ body.head?, x.IsStep) →
      (openingProblems s.name kind label body = [] ↔ ∀ t, t.Asks → ¬Begins table body [] t)) ∧
    ∀ (supply : Supply) (built : Built) (g : Graph),
      s.build table supply = .ok built → built.graph = some g →
      ∀ area kind prompt options, .stmt (.menu area kind prompt options) ∈ bodyNodes s.body →
        ∀ o ∈ options, ∀ t, t.Asks →
          (Opens (bodyExecutions table o.body) t → Begins table o.body [] t) ∧
          (Begins table o.body [] t ↔ (∃ x ∈ o.body.head?, ¬x.IsStep) ∧
            ∃ place, Opens (bodyOutlines [] 0 o.body) (place, t)) := by
  refine ⟨fun kind label body hs => openingProblems_exact hs, ?_⟩
  intro supply built g hbuild hg area kind prompt options hm o ho t ht
  refine ⟨begins_of_opens, ?_⟩
  rw [begins_iff_opens table [] 0, iff_and_self]
  intro hopens
  obtain ⟨-, hp⟩ := menu_lawful (lawful_of_build hbuild hg hm)
  obtain ⟨clean, -⟩ := option_lawful hp o ho
  by_contra hnone
  push Not at hnone
  exact (openingProblems_exact hnone).1 clean t ht ((begins_iff_opens table [] 0 o.body t).2 hopens)

def lateCall : List Stmt := [.ifElse {} [⟨"late", [.plain {} (.call "road")]⟩] false []]

/-- One option opens with an if, the other one with something to see. -/
def doors : List MenuOption :=
  [⟨{}, "on", false, lateCall⟩, ⟨{}, "back", false, [.plain {} (.output "dust"), .plain {} (.call "road")]⟩]

def doorway : Scene where
  area := {}
  name := "doorway"
  chapter := false
  body := [.menu {} .switch "Go?" doors]

theorem openings_exact_doorway : ∃ built g, doorway.build moods {} = .ok built ∧ built.graph = some g ∧
    (∀ t, t.Asks → ¬Opens
      (bodyExecutions moods [.plain {} (.output "dust"), .plain {} (.call "road")]) t) ∧
    Begins moods lateCall [] (.plain {} (.call "road")) := by
  obtain ⟨-, options⟩ := openings_exact moods doorway
  obtain ⟨built, g, hb, hg⟩ : ∃ built g, doorway.build moods {} = .ok built ∧
      built.graph = some g := ⟨_, _, rfl, rfl⟩
  have each := options {} built g hb hg {} .switch "Go?" doors
    (by simp [doorway, bodyNodes, Stmt.nodes])
  refine ⟨built, g, hb, hg, fun t ht hopens => ?_, ?_⟩
  · obtain ⟨begins, exactly⟩ := each _ (List.mem_cons_of_mem _ List.mem_cons_self) t ht
    obtain ⟨⟨x, hx, hif⟩, -⟩ := exactly.1 (begins hopens)
    cases hx
    exact hif trivial
  · obtain ⟨-, exactly⟩ := each _ List.mem_cons_self (.plain {} (.call "road")) trivial
    refine exactly.2 ⟨⟨_, rfl, id⟩, [0, 0, 0], [], ?_⟩
    simp only [lateCall, bodyOutlines, branchOutlines, Stmt.outlines, mul_one, add_zero]
    exact Or.inl rfl

theorem not_openings_shown_doorway :
    ¬∀ (table : SymbolTable) (s : Scene) (supply : Supply) (built : Built) (g : Graph),
      s.build table supply = .ok built → built.graph = some g →
      ∀ area kind prompt options, .stmt (.menu area kind prompt options) ∈ bodyNodes s.body →
        ∀ o ∈ options, ∀ t, t.Asks → ¬Opens (bodyExecutions table o.body) t := by
  intro h
  obtain ⟨built, g, hb, hg⟩ : ∃ built g, doorway.build moods {} = .ok built ∧
      built.graph = some g := ⟨_, _, rfl, rfl⟩
  have on := h moods doorway {} built g hb hg {} .switch "Go?" doors
    (by simp [doorway, bodyNodes, Stmt.nodes]) _ List.mem_cons_self (.plain {} (.call "road")) trivial
  refine on ⟨[], ?_⟩
  simp only [lateCall, bodyExecutions, branchExecutions, Stmt.executions, mul_one, add_zero]
  exact Or.inl rfl

end Scene

end StoryFlow
