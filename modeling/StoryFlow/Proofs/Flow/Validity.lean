import StoryFlow.Proofs.Flow.Neighbors
import StoryFlow.Proofs.Flow.Substitution

/-! When a graph is valid, and when two graphs can be put together. The check of a well formed graph
finds only edges that lead nowhere, and a merge fails only where one identity has entries of different
marks. -/

namespace StoryFlow.Flow

/-- Where an edge may lead that leads to no vertex: out of the graph, but not to a place that is still
to be wired. -/
def VertexId.Outside (id : VertexId) : Prop := id < 0 ∧ id ≠ unresolved

theorem outside_sink : VertexId.Outside sink := ⟨by decide, by decide⟩

namespace Graph

variable {a b g r : Graph} {id p t : VertexId} {operation : Nat}

section Validation

theorem invalidity?_eq_none_iff : g.invalidity? = none ↔ g.problems = [] := by
  have go : ∀ (l : List Problem) (first : Option Failure),
      (l.map fun p => some (Failure.plain p.message)).foldl Failure.append first = none ↔
        first = none ∧ l = [] := by
    intro l
    induction l with
    | nil => simp
    | cons p l ih =>
      intro first
      rw [List.map_cons, List.foldl_cons, ih]
      cases first <;> simp [Failure.append]
  rw [invalidity?, Failure.join, go]
  simp

theorem WellFormed.edgeProblem?_eq_none_iff (h : g.WellFormed) {source : Option VertexId} {e : Edge} :
    g.edgeProblem? source e = none ↔
      (∃ x, g.node? e.target = some x) ∨ e.target.Outside := by
  unfold edgeProblem?
  constructor
  · intro hp
    split at hp <;> rename_i hu
    · cases hp
    · split at hp <;> rename_i hd
      · cases hp
      · by_cases hr : 0 ≤ e.target
        · refine Or.inl (has_iff.1 ?_)
          simpa [VertexId.isReal, hr] using hd
        · exact Or.inr ⟨Int.not_le.1 hr, hu⟩
  · rintro (⟨x, hx⟩ | ⟨hneg, hu⟩)
    · have hr := h.real _ _ hx
      have hu : e.target ≠ unresolved := by
        intro hu
        rw [hu] at hr
        exact absurd hr (by decide)
      rw [if_neg hu, if_neg (by simp [has_iff.2 ⟨x, hx⟩])]
    · rw [if_neg hu, if_neg (by simp [VertexId.isReal, hneg])]

theorem WellFormed.problems_eq_nil_iff (h : g.WellFormed) :
    g.problems = [] ↔ g.Closed VertexId.Outside := by
  have edges : ∀ (source : Option VertexId) (es : List Edge),
      es.filterMap (g.edgeProblem? source) = [] ↔ g.Targets VertexId.Outside es := by
    intro source es
    rw [List.filterMap_eq_nil_iff]
    exact forall₂_congr fun e _ => h.edgeProblem?_eq_none_iff
  have entries : ∀ id e, (id, e) ∈ g.nodes.entries →
      (g.entryProblems id e = [] ↔ g.Targets VertexId.Outside e.edges) := by
    intro id e hm
    have hn := node?_of_mem_entries hm
    have hexit : Edge.anyTo e.edges sink = g.exits.contains id := by
      rw [Bool.eq_iff_iff, h.exits]
      constructor
      · exact fun hs => ⟨_, _, hn, hs⟩
      · rintro ⟨v, es, hn', hs⟩
        cases hn.symm.trans hn'
        exact hs
    rw [entryProblems, if_pos (h.own _ _ _ hn), if_pos hexit, List.append_nil, edges]
  have exits : (g.exitIds.filter fun id => !g.has id) = [] := by
    rw [List.filter_eq_nil_iff]
    intro id hid
    obtain ⟨v, es, hn, -⟩ := (h.exits id).1 (IdMap.contains_iff.2 (IdMap.mem_keys.1 hid))
    simp [has_iff.2 ⟨_, hn⟩]
  rw [problems, exits, List.map_nil, List.append_nil, List.append_eq_nil_iff, edges,
    List.flatMap_eq_nil_iff]
  constructor
  · rintro ⟨hstart, hnodes⟩
    refine ⟨hstart, fun id v es hn => ?_⟩
    obtain ⟨e, he, heq⟩ := Option.map_eq_some_iff.1 hn
    cases heq
    have hm := IdMap.get?_eq_some_iff.1 he
    exact (entries id e hm).1 (hnodes _ hm)
  · rintro ⟨hstart, hnodes⟩
    refine ⟨hstart, fun q hq => ?_⟩
    exact (entries q.1 q.2 hq).2 (hnodes _ _ _ (node?_of_mem_entries hq))

theorem WellFormed.invalidity?_eq_none_iff (h : g.WellFormed) :
    g.invalidity? = none ↔ g.Closed VertexId.Outside :=
  Graph.invalidity?_eq_none_iff.trans h.problems_eq_nil_iff

theorem exits_of_problems (h : g.problems = []) : g.exits.contains id = true ↔
    ∃ v es, g.node? id = some (v, es) ∧ Edge.anyTo es sink = true := by
  rw [problems, List.append_eq_nil_iff, List.append_eq_nil_iff, List.flatMap_eq_nil_iff,
    List.map_eq_nil_iff, List.filter_eq_nil_iff] at h
  obtain ⟨⟨-, hnodes⟩, hexits⟩ := h
  have fresh : ∀ e, g.nodes.get? id = some e → Edge.anyTo e.edges sink = g.exits.contains id := by
    intro e he
    have hp := hnodes _ (IdMap.get?_eq_some_iff.1 he)
    unfold entryProblems at hp
    split at hp
    · by_contra hne
      simp [hne] at hp
    · cases hp
  constructor
  · intro hx
    have hid : g.has id = true := by
      simpa using hexits id (IdMap.mem_keys.2 (IdMap.contains_iff.1 hx))
    obtain ⟨e, he⟩ := IdMap.contains_iff.1 hid
    exact ⟨e.vertex, e.edges, by rw [node?, he]; rfl, (fresh e he).trans hx⟩
  · rintro ⟨v, es, hn, hs⟩
    obtain ⟨e, he, heq⟩ := Option.map_eq_some_iff.1 hn
    cases heq
    exact (fresh e he).symm.trans hs

/-- A graph of actual vertices that passes the check is well formed. -/
theorem wellFormed_of_problems (hreal : ∀ id, g.has id = true → 0 ≤ id) (h : g.problems = []) :
    g.WellFormed where
  own := (valid_of_problems h).own
  real := fun id _ hx => hreal id (has_iff.2 ⟨_, hx⟩)
  exits := fun _ => exits_of_problems h

theorem Whole.invalidity?_eq_none (h : g.Whole) : g.invalidity? = none :=
  h.wf.invalidity?_eq_none_iff.2 (h.closed.mono fun _ hid => hid ▸ outside_sink)

end Validation

section Merging

def Compatible (m n : IdMap Entry) : Prop :=
  ∀ id x y, m.get? id = some x → n.get? id = some y → x.mark = y.mark

theorem clash?_eq_none_iff {m n : IdMap Entry} : clash? m n = none ↔ Compatible m n := by
  rw [clash?, Option.map_eq_none_iff, List.find?_eq_none]
  constructor
  · intro h id x y hx hy
    have hp := h (id, y) (IdMap.get?_eq_some_iff.1 hy)
    simpa [hx] using hp
  · rintro h ⟨id, y⟩ hy
    cases hx : m.get? id with
    | none => simp
    | some x => simpa using h id x y hx (IdMap.get?_eq_some_iff.2 hy)

theorem mergeEntries_ok_iff {m n k : IdMap Entry} :
    mergeEntries m n = .ok k ↔ Compatible m n ∧ k = m.union n := by
  rw [← clash?_eq_none_iff, mergeEntries]
  split <;> rename_i h
  · simp [h]
  · simp [h, eq_comm]

theorem append_merged (h : append operation a b = .ok g) :
    g = a ∨ g = b ∨ mergeEntries (rewire ⟨operation, false⟩ a b.start).nodes b.nodes = .ok g.nodes := by
  unfold append at h
  split at h
  · cases h; exact Or.inr (Or.inl rfl)
  · split at h
    · cases h; exact Or.inl rfl
    · obtain ⟨nodes, hm, heq⟩ := ok_of_bind_ok h
      cases heq
      exact Or.inr (Or.inr hm)

theorem attach_merged (h : attach operation g p b = .ok r) :
    ∃ (nodes : IdMap Entry) (e : Entry),
    mergeEntries g.nodes b.nodes = .ok nodes ∧
      r.nodes = nodes.insert p ⟨e.vertex, e.edges ++ b.start, ⟨operation, false⟩⟩ := by
  obtain ⟨e, -, h⟩ := ok_of_bind_ok h
  split at h
  · cases h
  · obtain ⟨nodes, hm, heq⟩ := ok_of_bind_ok h
    cases heq
    exact ⟨nodes, e, hm, rfl⟩

end Merging

end Graph

end StoryFlow.Flow
