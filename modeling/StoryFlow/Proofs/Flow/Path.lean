import StoryFlow.Flow.Algebra
import StoryFlow.Proofs.Flow.Lookup

/-! Paths through flow graphs. A path is read as the list of the vertices that control passes; it starts
at one of several edges and comes to a target, which need not be a vertex. The marks of the entries and
the loop flags of the edges are of no concern to it. -/

namespace StoryFlow.Flow

theorem Edge.anyTo_iff {es : List Edge} {t : VertexId} :
    anyTo es t = true ↔ ∃ e ∈ es, e.target = t := by
  simp [anyTo]

/-- An edge after a redirection is an old one to another target, or a replacement for an old one. -/
theorem Edge.mem_redirect {es repl : List Edge} {t : VertexId} {e : Edge} :
    e ∈ redirect es t repl ↔ (e ∈ es ∧ e.target ≠ t) ∨
      ∃ d ∈ es, d.target = t ∧ ∃ r ∈ repl, e = ⟨r.target, d.loop || r.loop⟩ := by
  simp only [redirect, List.mem_flatMap]
  constructor
  · rintro ⟨d, hd, he⟩
    split at he <;> rename_i ht
    · obtain ⟨r, hr, rfl⟩ := List.mem_map.1 he
      exact Or.inr ⟨d, hd, ht, r, hr, rfl⟩
    · rw [List.mem_singleton] at he
      subst he
      exact Or.inl ⟨hd, ht⟩
  · rintro (⟨he, ht⟩ | ⟨d, hd, ht, r, hr, rfl⟩)
    · exact ⟨e, he, by simp [ht]⟩
    · refine ⟨d, hd, ?_⟩
      rw [if_pos ht]
      exact List.mem_map_of_mem hr

theorem Edge.redirect_of_not_anyTo {es repl : List Edge} {t : VertexId}
    (h : anyTo es t = false) : redirect es t repl = es := by
  induction es with
  | nil => rfl
  | cons e rest ih =>
    simp only [anyTo, List.any_cons, Bool.or_eq_false_iff, beq_eq_false_iff_ne] at h
    have hrest : redirect rest t repl = rest := ih h.2
    rw [redirect] at hrest ⊢
    rw [List.flatMap_cons, hrest, if_neg h.1, List.singleton_append]

def Entry.node (e : Entry) : Vertex × List Edge := (e.vertex, e.edges)

namespace Graph

def node? (g : Graph) (id : VertexId) : Option (Vertex × List Edge) :=
  (g.nodes.get? id).map Entry.node

theorem length_ids (g : Graph) : g.ids.length = g.size := List.length_map _

/-- One of the edges leads, through the vertices in turn, to the target. -/
def Leads (g : Graph) : List Edge → List Vertex → VertexId → Prop
  | es, [], t => ∃ e ∈ es, e.target = t
  | es, v :: vs, t => ∃ e ∈ es, ∃ next, g.node? e.target = some (v, next) ∧ g.Leads next vs t

/-- Control that enters the graph passes the vertices and comes to the target. -/
def Reaches (g : Graph) (vs : List Vertex) (t : VertexId) : Prop := g.Leads g.start vs t

theorem Leads.mono {g : Graph} {es ds : List Edge} {vs : List Vertex} {t : VertexId}
    (h : g.Leads es vs t) (hs : ∀ e ∈ es, ∃ d ∈ ds, d.target = e.target) : g.Leads ds vs t := by
  cases vs with
  | nil =>
    obtain ⟨e, he, rfl⟩ := h
    exact hs e he
  | cons v vs =>
    obtain ⟨e, he, next, hn, hl⟩ := h
    obtain ⟨d, hd, ht⟩ := hs e he
    exact ⟨d, hd, next, ht ▸ hn, hl⟩

theorem leads_append {g : Graph} {es ds : List Edge} {vs : List Vertex} {t : VertexId} :
    g.Leads (es ++ ds) vs t ↔ g.Leads es vs t ∨ g.Leads ds vs t := by
  cases vs <;> simp [Leads, or_and_right, exists_or]

def Includes (g h : Graph) : Prop := ∀ id x, h.node? id = some x → g.node? id = some x

def Targets (g : Graph) (out : VertexId → Prop) (es : List Edge) : Prop :=
  ∀ e ∈ es, (∃ x, g.node? e.target = some x) ∨ out e.target

structure Closed (g : Graph) (out : VertexId → Prop) : Prop where
  start : g.Targets out g.start
  edges : ∀ id v es, g.node? id = some (v, es) → g.Targets out es

/-- A part from which control gets out only to places that are not vertices of the whole is passed in
the whole as it is passed on its own. -/
theorem leads_of_includes {g h : Graph} {out : VertexId → Prop} (hi : g.Includes h)
    (hc : ∀ id v es, h.node? id = some (v, es) → h.Targets out es)
    (ho : ∀ id, out id → g.node? id = none) {es : List Edge} (he : h.Targets out es)
    {vs : List Vertex} {t : VertexId} : g.Leads es vs t ↔ h.Leads es vs t := by
  induction vs generalizing es with
  | nil => rfl
  | cons v vs ih =>
    constructor
    · rintro ⟨e, hm, next, hn, hl⟩
      rcases he e hm with ⟨⟨w, ds⟩, hx⟩ | hx
      · have heq := (hi _ _ hx).symm.trans hn
        cases heq
        exact ⟨e, hm, next, hx, (ih (hc _ _ _ hx)).1 hl⟩
      · rw [ho _ hx] at hn
        cases hn
    · rintro ⟨e, hm, next, hn, hl⟩
      exact ⟨e, hm, next, hi _ _ hn, (ih (hc _ _ _ hn)).2 hl⟩

/-- Every vertex is stored under its own identity, which is real, and the exits are the vertices with
an edge to the sink. -/
structure WellFormed (g : Graph) : Prop where
  own : ∀ id v es, g.node? id = some (v, es) → v.id = id
  real : ∀ id x, g.node? id = some x → 0 ≤ id
  exits : ∀ id, g.exits.contains id = true ↔
    ∃ v es, g.node? id = some (v, es) ∧ Edge.anyTo es sink = true

theorem WellFormed.sink_none {g : Graph} (h : g.WellFormed) : g.node? sink = none := by
  cases hs : g.node? sink with
  | none => rfl
  | some x => exact absurd (h.real _ _ hs) (by decide)

end Graph

end StoryFlow.Flow
