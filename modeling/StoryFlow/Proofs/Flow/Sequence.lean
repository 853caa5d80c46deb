import Mathlib.Data.List.Sort
import StoryFlow.Proofs.Flow.Order
import StoryFlow.Proofs.Flow.Representation
import StoryFlow.Proofs.Flow.Totality

/-! Graphs in sequence are a monoid. Redirecting edges twice is the same as redirecting them once to edges
that are redirected already, so it does not matter which of two sequences is made first. The short cuts for
graphs that control passes straight through give what the general case would give. -/

namespace StoryFlow.Flow

universe u

theorem IdMap.ext_get? {α : Type u} {m n : IdMap α} (h : ∀ id, m.get? id = n.get? id) : m = n := by
  let before : VertexId × α → VertexId × α → Prop := fun p q => p.1 < q.1
  have : Std.Irrefl before := ⟨fun p => Int.lt_irrefl p.1⟩
  have : Std.Antisymm before := ⟨fun p q hpq hqp => absurd hpq (Int.lt_asymm hqp)⟩
  have heq : m.entries = n.entries := by
    refine List.Pairwise.eq_of_mem_iff (r := before) m.sorted n.sorted ?_
    rintro ⟨id, a⟩
    rw [← IdMap.get?_eq_some_iff, h, IdMap.get?_eq_some_iff]
  obtain ⟨entries, sorted⟩ := m
  obtain ⟨entries', sorted'⟩ := n
  cases heq
  rfl

namespace Edge

variable {es ds cs : List Edge} {s t : VertexId}

theorem redirect_cons (e : Edge) (es : List Edge) (t : VertexId) (ds : List Edge) :
    redirect (e :: es) t ds = (if e.target = t then ds.map (through e) else [e]) ++ redirect es t ds := rfl

theorem redirect_append (es fs : List Edge) (t : VertexId) (ds : List Edge) :
    redirect (es ++ fs) t ds = redirect es t ds ++ redirect fs t ds := List.flatMap_append

theorem redirect_through (e : Edge) :
    redirect (ds.map (through e)) t cs = (redirect ds t cs).map (through e) := by
  induction ds with
  | nil => rfl
  | cons d ds ih =>
    rw [List.map_cons, redirect_cons, redirect_cons, List.map_append, ih]
    congr 1
    change (if d.target = t then _ else _) = _
    split
    · rw [List.map_map]
      refine List.map_congr_left fun c _ => ?_
      change Edge.mk c.target ((e.loop || d.loop) || c.loop) = ⟨c.target, e.loop || (d.loop || c.loop)⟩
      rw [Bool.or_assoc]
    · rfl

/-- Only what a first redirection puts in is left for a second one, unless an edge led to the second target
before. -/
theorem redirect_redirect (h : ∀ e ∈ es, e.target ≠ s → e.target ≠ t) :
    redirect (redirect es s ds) t cs = redirect es s (redirect ds t cs) := by
  induction es with
  | nil => rfl
  | cons e es ih =>
    obtain ⟨he, hes⟩ := List.forall_mem_cons.1 h
    rw [redirect_cons, redirect_append, ih hes, redirect_cons]
    split <;> rename_i hs
    · rw [redirect_through]
    · rw [redirect_cons, if_neg (he hs)]
      rfl

theorem redirect_self (es : List Edge) (t : VertexId) : redirect es t [⟨t, false⟩] = es := by
  induction es with
  | nil => rfl
  | cons e es ih =>
    rw [redirect_cons, ih]
    split <;> rename_i ht
    · rw [← ht]
      simp [through]
    · rfl

theorem redirect_single (t : VertexId) (cs : List Edge) : redirect [⟨t, false⟩] t cs = cs := by
  simp [redirect]

end Edge

namespace Graph

variable {a b c g h : Graph} {operation : Nat}

/-- The same vertices with the same edges, the same exits and the same start. Only the marks of the entries
may differ. -/
structure Alike (g h : Graph) : Prop where
  nodes : g.nodes.map (fun _ e => e.node) = h.nodes.map fun _ e => e.node
  exits : g.exits = h.exits
  start : g.start = h.start

theorem alike_of_node? (hg : g.WellFormed) (hh : h.WellFormed) (hn : ∀ id, g.node? id = h.node? id)
    (hs : g.start = h.start) : g.Alike h := by
  refine ⟨IdMap.ext_get? fun id => ?_, IdMap.ext_get? fun id => ?_, hs⟩
  · rw [IdMap.get?_map, IdMap.get?_map]
    exact hn id
  · have same : (g.exits.get? id).isSome = (h.exits.get? id).isSome := by
      rw [Bool.eq_iff_iff]
      refine ((hg.exits id).trans ?_).trans (hh.exits id).symm
      rw [hn]
    cases hx : g.exits.get? id <;> cases hy : h.exits.get? id <;> simp_all

theorem node?_append (h : append operation a b = .ok g) (ha : a.WellFormed) (id : VertexId) :
    g.node? id = (b.node? id).or ((a.node? id).map fun x => (x.1, Edge.redirect x.2 sink b.start)) := by
  rcases append_cases h with ⟨he, rfl⟩ | ⟨he, rfl⟩ | ⟨r, rfl, -, hn, -⟩
  · simp [node?_of_isEmpty he]
  · rw [node?_of_isEmpty he, start_of_isEmpty he]
    simp [Edge.toSink, Edge.redirect_self]
  · rw [hn, node?_rewire ha]

theorem start_append (h : append operation a b = .ok g) : g.start = Edge.redirect a.start sink b.start := by
  rcases append_cases h with ⟨he, rfl⟩ | ⟨he, rfl⟩ | ⟨r, rfl, hs, -, -⟩
  · rw [start_of_isEmpty he, Edge.toSink, Edge.redirect_single]
  · rw [start_of_isEmpty he, Edge.toSink, Edge.redirect_self]
  · exact hs

theorem Apart.append_left (hac : a.Apart c) (hbc : b.Apart c) (ha : a.WellFormed)
    (h : append operation a b = .ok g) : g.Apart c := by
  intro id hid
  rw [has_append h ha, Bool.or_eq_true] at hid
  exact hid.elim (hac id) (hbc id)

theorem append_alike {ab bc left right : Graph} {i j k l : Nat} (ha : a.WellFormed) (hb : b.WellFormed)
    (hc : c.WellFormed) (hab : a.Apart b) (hac : a.Apart c) (hbc : b.Apart c)
    (h₁ : append i a b = .ok ab) (h₂ : append j ab c = .ok left) (h₃ : append k b c = .ok bc)
    (h₄ : append l a bc = .ok right) : left.Alike right := by
  have wab := ha.append h₁ hb hab
  have wbc := hb.append h₃ hc hbc
  have apart : a.Apart bc := (hab.symm.append_left hac.symm hb h₃).symm
  have twice : ∀ es, Edge.redirect (Edge.redirect es sink b.start) sink c.start =
      Edge.redirect es sink (Edge.redirect b.start sink c.start) :=
    fun es => Edge.redirect_redirect fun _ _ hne => hne
  refine alike_of_node? (wab.append h₂ hc (hac.append_left hbc ha h₁)) (ha.append h₄ wbc apart)
    (fun id => ?_) ?_
  · rw [node?_append h₂ wab, node?_append h₁ ha, node?_append h₄ ha, node?_append h₃ hb, start_append h₃]
    cases c.node? id <;> cases b.node? id <;> cases a.node? id <;> simp [twice]
  · rw [start_append h₂, start_append h₁, start_append h₄, start_append h₃, twice]

theorem ids_append (ha : a.WellFormed) (hab : a.Apart b) (h : append operation a b = .ok g) :
    g.ids.Perm (a.ids ++ b.ids) := by
  have distinct : (a.ids ++ b.ids).Nodup := by
    refine List.nodup_append.2 ⟨nodup_ids, nodup_ids, ?_⟩
    rintro id hid _ hid' rfl
    have hno := hab id (mem_ids.1 hid)
    rw [mem_ids.1 hid'] at hno
    cases hno
  refine (List.perm_ext_iff_of_nodup nodup_ids distinct).2 fun id => ?_
  rw [List.mem_append, mem_ids, mem_ids, mem_ids, has_append h ha, Bool.or_eq_true]

theorem WellFormed.eq_empty (ha : a.WellFormed) (h : a.isEmpty = true) : a = empty := by
  have alike := alike_of_node? ha whole_empty.wf
    (fun id => by rw [node?_of_isEmpty h, node?_of_isEmpty isEmpty_empty]) (start_of_isEmpty h)
  have nodes : a.nodes = ∅ := by
    refine IdMap.ext_get? fun id => ?_
    simpa [node?] using node?_of_isEmpty h id
  obtain ⟨n, x, s⟩ := a
  obtain ⟨-, rfl, rfl⟩ := alike
  cases nodes
  rfl

theorem append_empty (ha : a.WellFormed) : append operation a empty = .ok a := by
  unfold append
  split <;> rename_i h
  · rw [ha.eq_empty h]
  · rw [if_pos isEmpty_empty]

/-- Graphs that can be made and have no vertex in common can be put in sequence. It does not matter which
two of three are put together first, and the empty graph is neutral. -/
theorem Session.append_monoid {pool : List Graph} {next : Nat} (h : Session pool next) (ha : a ∈ pool)
    (hb : b ∈ pool) (hc : c ∈ pool) (hd : [a, b, c].Pairwise Apart) (i j k l : Nat) :
    (∃ ab bc left right, append i a b = .ok ab ∧ append j ab c = .ok left ∧ append k b c = .ok bc ∧
      append l a bc = .ok right ∧ left.Alike right ∧ ab.ids.Perm (a.ids ++ b.ids)) ∧
      append i empty a = .ok a ∧ append i a empty = .ok a := by
  have wf := h.coherent.wf
  simp only [List.pairwise_cons, List.mem_cons, List.not_mem_nil, or_false, forall_eq_or_imp,
    forall_eq] at hd
  obtain ⟨⟨hab, hac⟩, hbc, -⟩ := hd
  obtain ⟨ab, h₁⟩ : ∃ r, append i a b = .ok r := append_total (wf a ha) hab
  obtain ⟨bc, h₃⟩ : ∃ r, append k b c = .ok r := append_total (wf b hb) hbc
  have wab := (wf a ha).append h₁ (wf b hb) hab
  obtain ⟨left, h₂⟩ : ∃ r, append j ab c = .ok r :=
    append_total wab (hac.append_left hbc (wf a ha) h₁)
  obtain ⟨right, h₄⟩ : ∃ r, append l a bc = .ok r :=
    append_total (wf a ha) (hab.symm.append_left hac.symm (wf b hb) h₃).symm
  exact ⟨⟨ab, bc, left, right, h₁, h₂, h₃, h₄,
    append_alike (wf a ha) (wf b hb) (wf c hc) hab hac hbc h₁ h₂ h₃ h₄, ids_append (wf a ha) hab h₁⟩,
    rfl, append_empty (wf a ha)⟩

theorem pairwise_apart {gs : List Graph} (h : gs.Pairwise fun x y => ∀ id ∈ x.ids, y.has id = false) :
    gs.Pairwise Apart :=
  h.imp fun hxy id hid => hxy id (mem_ids.2 hid)

/-- One vertex that control leaves by a loop edge or by another one. -/
def parting (operation : Nat) (id : VertexId) : Graph :=
  ⟨.singleton id ⟨⟨id, none, true, []⟩, [⟨sink, true⟩, Edge.toSink], ⟨operation, false⟩⟩, .singleton id (),
    [⟨id, false⟩]⟩

/-- The graph in the middle has no vertex and leads back to the first graph. -/
theorem Session.append_monoid_return : ∃ pool left right, Session pool 4 ∧ parting 0 0 ∈ pool ∧
    loopTo 2 empty 0 ∈ pool ∧ pass 3 1 true ∈ pool ∧
    (append 4 (parting 0 0) (loopTo 2 empty 0)).bind (append 5 · (pass 3 1 true)) = .ok left ∧
    (append 6 (loopTo 2 empty 0) (pass 3 1 true)).bind (append 7 (parting 0 0)) = .ok right ∧
    left.Alike right ∧ left.edges? 0 = some [⟨0, true⟩, ⟨0, true⟩] := by
  have first : Session [parting 0 0] 1 :=
    .call (c := .single ⟨0, none, true, []⟩ [⟨sink, true⟩, Edge.toSink]) .start le_rfl
      (by simp [Call.operands]) rfl
  have second : Session [empty, parting 0 0] 2 :=
    .call (c := .empty) first le_rfl (by simp [Call.operands]) rfl
  have third : Session [loopTo 2 empty 0, empty, parting 0 0] 3 :=
    .call (c := .loopTo empty 0) second le_rfl (by simp [Call.operands]) rfl
  have fourth : Session [pass 3 1 true, loopTo 2 empty 0, empty, parting 0 0] 4 :=
    .call (c := .single ⟨1, none, true, []⟩ [Edge.toSink]) third le_rfl (by simp [Call.operands]) rfl
  have apart : [parting 0 0, loopTo 2 empty 0, pass 3 1 true].Pairwise Apart :=
    pairwise_apart (by decide)
  obtain ⟨⟨ab, bc, left, right, h₁, h₂, h₃, h₄, alike, -⟩, -, -⟩ :=
    fourth.append_monoid (by simp) (by simp) (by simp) apart 4 5 6 7
  refine ⟨_, left, right, fourth, by simp, by simp, by simp, ?_, ?_, alike, ?_⟩
  · rw [h₁]
    exact h₂
  · rw [h₃]
    exact h₄
  · cases h₁
    cases h₂
    rfl

end Graph

end StoryFlow.Flow
