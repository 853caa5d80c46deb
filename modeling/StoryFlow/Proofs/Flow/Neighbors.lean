import StoryFlow.Flow.Validate
import StoryFlow.Flow.Walk
import StoryFlow.Proofs.Flow.Composition

/-! The lists of neighbours that the walks over a graph use are the edge relation, read forwards and
backwards. Only edges to actual vertices count. -/

namespace StoryFlow

universe u

theorem mem_fresh {α : Type u} [BEq α] [LawfulBEq α] {x : α} {known l : List α} :
    x ∈ fresh known l ↔ x ∈ l ∧ x ∉ known := by
  induction l generalizing known with
  | nil => simp [fresh]
  | cons a rest ih =>
    unfold fresh
    split <;> rename_i h
    · have ha : a ∈ known := by simpa using h
      rw [ih, List.mem_cons]
      constructor
      · exact fun hx => ⟨Or.inr hx.1, hx.2⟩
      · rintro ⟨rfl | hx, hk⟩
        · exact absurd ha hk
        · exact ⟨hx, hk⟩
    · have ha : a ∉ known := by simpa using h
      rw [List.mem_cons, List.mem_cons, ih, List.mem_cons]
      by_cases hxa : x = a
      · subst hxa
        simp [ha]
      · simp [hxa]

theorem length_fresh_le {α : Type u} [BEq α] (known l : List α) :
    (fresh known l).length ≤ l.length := by
  induction l generalizing known with
  | nil => simp [fresh]
  | cons a rest ih =>
    unfold fresh
    split
    · exact (ih known).trans (Nat.le_succ _)
    · exact Nat.succ_le_succ (ih (a :: known))

end StoryFlow

namespace StoryFlow.Flow.Graph

variable {g : Graph} {a b id : VertexId} {v : Vertex} {es : List Edge}

def Linked (g : Graph) (a b : VertexId) : Prop :=
  ∃ v es, g.node? a = some (v, es) ∧ ∃ e ∈ es, e.target = b ∧ 0 ≤ b

theorem mem_realTargets : b ∈ realTargets es ↔ ∃ e ∈ es, e.target = b ∧ 0 ≤ b := by
  simp only [realTargets, List.mem_filter, List.mem_map, VertexId.isReal, decide_eq_true_eq]
  constructor
  · rintro ⟨⟨e, he, rfl⟩, hb⟩; exact ⟨e, he, rfl, hb⟩
  · rintro ⟨e, he, rfl, hb⟩; exact ⟨⟨e, he, rfl⟩, hb⟩

theorem node?_of_mem_entries {e : Entry} (h : (id, e) ∈ g.nodes.entries) :
    g.node? id = some (e.vertex, e.edges) := by
  rw [node?, IdMap.get?_eq_some_iff.2 h]
  rfl

theorem vertex?_of_node? (h : g.node? id = some (v, es)) : g.vertex? id = some v := by
  obtain ⟨e, he, heq⟩ := Option.map_eq_some_iff.1 h
  cases heq
  rw [vertex?, he]
  rfl

theorem linked_iff_mem_entries :
    g.Linked a b ↔ ∃ p ∈ g.nodes.entries, p.1 = a ∧ b ∈ realTargets p.2.edges := by
  constructor
  · rintro ⟨v, es, hn, he⟩
    obtain ⟨e, hg, heq⟩ := Option.map_eq_some_iff.1 hn
    cases heq
    exact ⟨(a, e), IdMap.get?_eq_some_iff.1 hg, rfl, mem_realTargets.2 he⟩
  · rintro ⟨⟨k, e⟩, hm, rfl, he⟩
    exact ⟨e.vertex, e.edges, node?_of_mem_entries hm, mem_realTargets.1 he⟩

theorem mem_successors : b ∈ g.successors a ↔ g.Linked a b := by
  rw [linked_iff_mem_entries, successors, successors?, edges?]
  cases hg : g.nodes.get? a with
  | none =>
    refine iff_of_false (by simp) ?_
    rintro ⟨⟨k, e⟩, hm, rfl, -⟩
    cases hg.symm.trans (IdMap.get?_eq_some_iff.2 hm)
  | some e =>
    simp only [Option.map_some, Option.getD_some, mem_fresh, List.not_mem_nil, not_false_eq_true,
      and_true]
    constructor
    · exact fun hb => ⟨(a, e), IdMap.get?_eq_some_iff.1 hg, rfl, hb⟩
    · rintro ⟨⟨k, e'⟩, hm, rfl, hb⟩
      cases hg.symm.trans (IdMap.get?_eq_some_iff.2 hm)
      exact hb

theorem length_successors_le : (g.successors a).length ≤ (g.edgesOf a).length := by
  rw [successors, successors?, edgesOf, edges?]
  cases g.nodes.get? a with
  | none => simp
  | some e =>
    refine (length_fresh_le [] (realTargets e.edges)).trans ?_
    refine (List.length_filter_le _ _).trans ?_
    rw [List.length_map]
    rfl

section Sources

theorem mem_addSource {s t : VertexId} {m : IdMap (List VertexId)} :
    a ∈ ((addSource s m t).get? b).getD [] ↔ a ∈ (m.get? b).getD [] ∨ (a = s ∧ b = t) := by
  unfold addSource
  dsimp only
  split <;> rename_i h
  · refine (or_iff_left_of_imp ?_).symm
    rintro ⟨rfl, rfl⟩
    exact List.mem_of_getLast? h
  · rw [IdMap.get?_insert]
    split <;> rename_i hb
    · simp [hb]
    · simp [hb]

theorem mem_foldl_addSource {s : VertexId} {ts : List VertexId} {m : IdMap (List VertexId)} :
    a ∈ ((ts.foldl (addSource s) m).get? b).getD [] ↔
      a ∈ (m.get? b).getD [] ∨ (a = s ∧ b ∈ ts) := by
  induction ts generalizing m with
  | nil => simp
  | cons t ts ih =>
    rw [List.foldl_cons, ih, mem_addSource, List.mem_cons, or_assoc, ← and_or_left]

theorem mem_predecessors : a ∈ (g.predecessors.get? b).getD [] ↔ g.Linked a b := by
  have go : ∀ (l : List (VertexId × Entry)) (m : IdMap (List VertexId)),
      a ∈ ((l.foldl (fun m p => (realTargets p.2.edges).foldl (addSource p.1) m) m).get? b).getD [] ↔
        a ∈ (m.get? b).getD [] ∨ ∃ p ∈ l, p.1 = a ∧ b ∈ realTargets p.2.edges := by
    intro l
    induction l with
    | nil => simp
    | cons p l ih =>
      intro m
      rw [List.foldl_cons, ih, mem_foldl_addSource, List.exists_mem_cons_iff, or_assoc,
        eq_comm (a := a)]
  rw [predecessors, go, linked_iff_mem_entries]
  simp

end Sources

/-- Edges to actual vertices lead to vertices of the graph. -/
structure Valid (g : Graph) : Prop where
  own : ∀ id v es, g.node? id = some (v, es) → v.id = id
  start : ∀ e ∈ g.start, 0 ≤ e.target → g.has e.target = true
  edges : ∀ id v es, g.node? id = some (v, es) → ∀ e ∈ es, 0 ≤ e.target → g.has e.target = true

theorem Whole.valid (h : g.Whole) : g.Valid := by
  have real : ∀ es, g.Targets (· = sink) es → ∀ e ∈ es, 0 ≤ e.target → g.has e.target = true := by
    intro es hes e he hr
    rcases hes e he with hx | hx
    · exact has_iff.2 hx
    · rw [hx] at hr
      exact absurd hr (by decide)
  exact ⟨h.wf.own, real _ h.closed.start, fun id v es hn => real _ (h.closed.edges id v es hn)⟩

theorem has_of_edgeProblem? {source : Option VertexId} {e : Edge}
    (h : g.edgeProblem? source e = none) (hr : 0 ≤ e.target) : g.has e.target = true := by
  unfold edgeProblem? at h
  split at h
  · cases h
  · split at h <;> rename_i hp
    · cases h
    · simpa [VertexId.isReal, hr] using hp

theorem valid_of_problems (h : g.problems = []) : g.Valid := by
  rw [problems, List.append_eq_nil_iff, List.append_eq_nil_iff] at h
  obtain ⟨⟨hstart, hnodes⟩, -⟩ := h
  rw [List.filterMap_eq_nil_iff] at hstart
  rw [List.flatMap_eq_nil_iff] at hnodes
  have node : ∀ id v es, g.node? id = some (v, es) → v.id = id ∧
      ∀ e ∈ es, g.edgeProblem? (some id) e = none := by
    intro id v es hn
    obtain ⟨e, hg, heq⟩ := Option.map_eq_some_iff.1 hn
    cases heq
    have hp := hnodes _ (IdMap.get?_eq_some_iff.1 hg)
    unfold entryProblems at hp
    split at hp <;> rename_i hid
    · rw [List.append_eq_nil_iff, List.filterMap_eq_nil_iff] at hp
      exact ⟨hid, hp.1⟩
    · cases hp
  exact ⟨fun id v es hn => (node id v es hn).1, fun e he => has_of_edgeProblem? (hstart e he),
    fun id v es hn e he => has_of_edgeProblem? ((node id v es hn).2 e he)⟩

theorem Linked.has (h : g.Linked a b) : g.has a = true := by
  obtain ⟨v, es, hn, -⟩ := h
  exact has_iff.2 ⟨_, hn⟩

theorem Valid.linked_has (hg : g.Valid) (h : g.Linked a b) : g.has b = true := by
  obtain ⟨v, es, hn, e, he, rfl, hb⟩ := h
  exact hg.edges a v es hn e he hb

end StoryFlow.Flow.Graph
