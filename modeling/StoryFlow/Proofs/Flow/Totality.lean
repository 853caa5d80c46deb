import StoryFlow.Flow.Supply
import StoryFlow.Proofs.Flow.Copy
import StoryFlow.Proofs.Flow.Validity

/-! When the operations on graphs succeed. Graphs that have no vertex in common can be put together, a
vertex without an edge to itself can be replaced, and a whole graph can be copied. -/

namespace StoryFlow

open StoryFlow.Flow
open StoryFlow.Flow.Graph

universe u v w

theorem bind_total {ε : Type u} {α : Type v} {β : Type w} {x : Except ε α} {f : α → Except ε β}
    (hx : ∃ a, x = .ok a) (hf : ∀ a, x = .ok a → ∃ b, f a = .ok b) : ∃ b, x.bind f = .ok b := by
  obtain ⟨a, rfl⟩ := hx
  exact hf a rfl

theorem ok_of_toOption_bind {ε : Type u} {α : Type v} {β : Type w} {x : Except ε α} {f : α → Option β}
    {b : β} (h : x.toOption.bind f = some b) : ∃ a, x = .ok a ∧ f a = some b := by
  cases x with
  | error e => cases h
  | ok a => exact ⟨a, rfl, h⟩

theorem perform_total {s : Supply} {operation : Nat → Except Fault Graph}
    (h : ∃ g, operation s.operations = .ok g) : ∃ r, s.perform operation = .ok r := by
  obtain ⟨g, hg⟩ := h
  exact ⟨(g, s.nextOperation), by rw [Supply.perform, hg]; rfl⟩

namespace Flow.Graph

variable {a b g : Graph} {p : VertexId} {operation first : Nat} {f : Vertex → Option Vertex}

theorem Apart.compatible (h : a.Apart b) : Compatible a.nodes b.nodes := by
  intro id x y hx hy
  have hno := h id (IdMap.contains_iff.2 ⟨x, hx⟩)
  rw [has, IdMap.contains, hy] at hno
  cases hno

theorem compatible_self (a : Graph) : Compatible a.nodes a.nodes := by
  intro id x y hx hy
  exact congrArg Entry.mark (Option.some.inj (hx.symm.trans hy))

theorem merge_total (h : Compatible a.nodes b.nodes) : ∃ nodes, mergeEntries a.nodes b.nodes = .ok nodes :=
  ⟨_, mergeEntries_ok_iff.2 ⟨h, rfl⟩⟩

theorem append_total (ha : a.WellFormed) (h : a.Apart b) : ∃ r, append operation a b = .ok r := by
  unfold append
  split
  · exact ⟨b, rfl⟩
  · split
    · exact ⟨a, rfl⟩
    · apply bind_total (merge_total (h.rewire ha).compatible)
      intro nodes _
      exact ⟨_, rfl⟩

theorem forkOnto_total {bs : List Graph} (h : (g :: bs).Pairwise Apart) : ∃ r, forkOnto g bs = .ok r := by
  induction bs generalizing g with
  | nil => exact ⟨g, rfl⟩
  | cons b bs ih =>
    obtain ⟨hg, hbs⟩ := List.pairwise_cons.1 h
    obtain ⟨hb, hrest⟩ := List.pairwise_cons.1 hbs
    apply bind_total (merge_total (hg b List.mem_cons_self).compatible)
    intro nodes hm
    apply ih
    refine List.pairwise_cons.2 ⟨fun c hc id hid => ?_, hrest⟩
    rw [mergeEntries_eq hm, has_of_node?_or (node?_union _ _), Bool.or_eq_true] at hid
    rcases hid with hid | hid
    · exact hg c (List.mem_cons_of_mem _ hc) id hid
    · exact hb c hc id hid

theorem fork_total {bs : List Graph} (h : bs.Pairwise Apart) : ∃ r, fork bs = .ok r := by
  cases bs with
  | nil => exact ⟨_, rfl⟩
  | cons b bs =>
    apply forkOnto_total
    refine List.pairwise_cons.2 ⟨fun c _ id hid => ?_, h⟩
    cases hid

theorem attach_total (hg : g.has p = true) (hb : b.has p = false) (h : Compatible g.nodes b.nodes) :
    ∃ r, attach operation g p b = .ok r := by
  obtain ⟨e, he⟩ := IdMap.contains_iff.1 hg
  unfold attach
  apply bind_total ⟨e, entry_eq_ok_iff.2 he⟩
  intro e _
  rw [if_neg (by rw [hb]; decide)]
  apply bind_total (merge_total h)
  intro nodes _
  exact ⟨_, rfl⟩

theorem single_total (n : Nat) (stmt : Option Stmt) (scene : String) (es : List Edge) :
    ∃ r, single operation (.ofStmt n stmt scene) es = .ok r := by
  unfold single
  rw [if_pos (by simp [Vertex.ofStmt, VertexId.isReal])]
  exact ⟨_, rfl⟩

theorem replace_total {v : Vertex} {es : List Edge} (hn : g.node? p = some (v, es))
    (hes : ∀ e ∈ es, e.target ≠ p) (hgb : g.Apart b) (hb : b.WellFormed) :
    ∃ r, replace operation g p b = .ok r := by
  obtain ⟨e, he, heq⟩ := Option.map_eq_some_iff.1 hn
  cases heq
  have apart : ∀ target, (detour ⟨operation, false⟩ g p target).Apart
      (rewire ⟨operation, true⟩ b e.edges) := by
    intro target id hid
    rw [has_rewire hb]
    exact hgb id ((has_detour id).1 hid).1
  unfold replace
  apply bind_total ⟨e, entry_eq_ok_iff.2 he⟩
  intro e' he'
  obtain rfl : e' = e := Option.some.inj ((entry_eq_ok_iff.1 he').symm.trans he)
  rw [if_neg, if_neg]
  · apply bind_total (merge_total (apart _).compatible)
    intro nodes _
    exact ⟨_, rfl⟩
  · rw [hgb p (has_iff.2 ⟨_, hn⟩)]
    decide
  · intro hany
    obtain ⟨d, hd, ht⟩ := Edge.anyTo_iff.1 hany
    exact hes d hd ht

theorem mapEntries_total {l : List (VertexId × Entry)} {made : IdMap Entry}
    (hl : ∀ p ∈ l, ∃ w, f p.2.vertex = some w ∧ w.id = p.1) :
    ∃ m, mapEntries operation f l made = .ok m := by
  induction l generalizing made with
  | nil => exact ⟨made, rfl⟩
  | cons entry rest ih =>
    obtain ⟨⟨w, hw, hid⟩, hrest⟩ := List.forall_mem_cons.1 hl
    unfold mapEntries
    rw [hw]
    dsimp only
    rw [if_pos hid]
    exact ih hrest

theorem map_total (hf : ∀ v, ∃ w, f v = some w ∧ w.id = v.id) (hg : g.WellFormed) :
    ∃ r, map operation f g = .ok r := by
  unfold map
  refine bind_total (mapEntries_total fun p hp => ?_) fun nodes _ => ⟨_, rfl⟩
  obtain ⟨w, hw, hid⟩ := hf p.2.vertex
  exact ⟨w, hw, hid.trans (hg.own _ _ _ (node?_of_mem_entries hp))⟩

theorem renameEdges_total {es : List Edge} (he : g.Targets (· < 0) es) :
    ∃ ds, es.mapM (renameEdge (g.freshNames first)) = .ok ds := by
  induction es with
  | nil => exact ⟨[], rfl⟩
  | cons e es ih =>
    obtain ⟨hfirst, hrest⟩ := List.forall_mem_cons.1 he
    have renamed : ∃ d, renameEdge (g.freshNames first) e = .ok d := by
      unfold renameEdge
      rcases hfirst with hin | hout
      · obtain ⟨i, -, hget, -⟩ := freshName_of_has first (has_iff.2 hin)
        rw [hget]
        split
        · exact ⟨_, rfl⟩
        · exact ⟨_, rfl⟩
      · rw [if_neg (by simp [VertexId.isReal, hout])]
        exact ⟨_, rfl⟩
    rw [List.mapM_cons]
    apply bind_total renamed
    intro d _
    apply bind_total (ih hrest)
    intro ds _
    exact ⟨_, rfl⟩

theorem relabelEntries_total {names : IdMap VertexId} {l : List (VertexId × Entry)}
    {made : IdMap Entry} (hl : ∀ p ∈ l, (∃ w, f p.2.vertex = some w) ∧
      (∃ new, names.get? p.1 = some new) ∧ ∃ ds, p.2.edges.mapM (renameEdge names) = .ok ds) :
    ∃ m, relabelEntries operation f names l made = .ok m := by
  induction l generalizing made with
  | nil => exact ⟨made, rfl⟩
  | cons entry rest ih =>
    obtain ⟨⟨⟨w, hw⟩, ⟨new, hnew⟩, hds⟩, hrest⟩ := List.forall_mem_cons.1 hl
    unfold relabelEntries
    rw [hw, hnew]
    apply bind_total hds
    intro ds _
    exact ih hrest

theorem relabel_total_of_closed (hf : ∀ v ∈ g.vertices, ∃ w, f v = some w) (hg : g.Closed (· < 0)) :
    ∃ r, relabel operation first f g = .ok r := by
  unfold relabel
  apply bind_total
  · apply relabelEntries_total
    intro p hp
    obtain ⟨i, -, hget, -⟩ := freshName_of_has first (mem_entries_iff_has.1 ⟨p.2, hp⟩)
    refine ⟨hf _ (List.mem_map_of_mem hp), ⟨_, hget⟩, ?_⟩
    exact renameEdges_total (hg.edges _ _ _ (node?_of_mem_entries hp))
  · intro nodes _
    apply bind_total (renameEdges_total hg.start)
    intro start _
    exact ⟨_, rfl⟩

theorem relabel_total (hf : ∀ v, ∃ w, f v = some w) (hg : g.Whole) :
    ∃ r, relabel operation first f g = .ok r :=
  relabel_total_of_closed (fun v _ => hf v) (hg.closed.mono fun _ hid => hid ▸ by decide)

end Flow.Graph

end StoryFlow
