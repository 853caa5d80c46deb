import StoryFlow.Proofs.Flow.Ways

/-! Loop edges are the only edges that lead back. Every loop edge leads to the prompt of a loop switch,
and control can come to its source only past that prompt: the vertices between the two form a region that
no edge enters but those of the prompt. This is said of single edges, so each operation keeps it edge by
edge. -/

namespace StoryFlow

open Relation

universe u v

/-- A relation has no cycle when each step goes up in a layer order without cycles or stays in its layer,
where steps have no cycle either. -/
theorem acyclic_of_layers {α : Type u} {β : Type v} {r : α → α → Prop} {s : β → β → Prop}
    {t : β → α → α → Prop} (layer : α → β) (hs : ∀ x, ¬TransGen s x x)
    (ht : ∀ x a, ¬TransGen (t x) a a)
    (h : ∀ a b, r a b → TransGen s (layer a) (layer b) ∨ (layer a = layer b ∧ t (layer a) a b)) :
    ∀ a, ¬TransGen r a a := by
  have along : ∀ a b, TransGen r a b → TransGen s (layer a) (layer b) ∨
      (layer a = layer b ∧ TransGen (t (layer a)) a b) := by
    intro a b hab
    induction hab with
    | single hstep => exact (h _ _ hstep).imp_right fun hl => ⟨hl.1, .single hl.2⟩
    | tail _ hstep ih =>
      rcases ih with hup | ⟨hsame, hin⟩
      · rcases h _ _ hstep with hup' | ⟨hsame', -⟩
        · exact Or.inl (hup.trans hup')
        · exact Or.inl (hsame' ▸ hup)
      · rcases h _ _ hstep with hup' | ⟨hsame', hin'⟩
        · exact Or.inl (hsame ▸ hup')
        · exact Or.inr ⟨hsame.trans hsame', hin.tail (hsame ▸ hin')⟩
  intro a ha
  rcases along a a ha with hup | ⟨-, hin⟩
  · exact hs _ hup
  · exact ht _ _ hin

theorem not_transGen_lt (n : Nat) : ¬TransGen (· < ·) n n := by
  rw [transGen_eq_self]
  exact Nat.lt_irrefl n

end StoryFlow

namespace StoryFlow.Flow

def Vertex.LoopPrompt (v : Vertex) : Prop :=
  ∃ area prompt options, v.stmt = some (.menu area .loopSwitch prompt options)

namespace Graph

open Relation

variable {a b c d g j r : Graph} {id p t : VertexId} {v w : Vertex} {es repl : List Edge} {e : Edge}
  {src : Option VertexId} {out back : VertexId → Prop} {operation : Nat} {mark : Mark}
  {S : VertexId → Prop} {parts : List Graph}

def EdgeFrom (g : Graph) : Option VertexId → Edge → Prop
  | none, e => e ∈ g.start
  | some id, e => ∃ v es, g.node? id = some (v, es) ∧ e ∈ es

theorem EdgeFrom.start (h : e ∈ g.start) : g.EdgeFrom none e := h

theorem EdgeFrom.node (hn : g.node? id = some (v, es)) (he : e ∈ es) : g.EdgeFrom (some id) e :=
  ⟨v, es, hn, he⟩

theorem EdgeFrom.has (h : g.EdgeFrom (some id) e) : g.has id = true := by
  obtain ⟨v, es, hn, -⟩ := h
  exact has_iff.2 ⟨_, hn⟩

theorem Closed.edgeFrom (hc : g.Closed out) (h : g.EdgeFrom src e) :
    g.has e.target = true ∨ out e.target := by
  cases src with
  | none => exact (hc.start e h).imp_left has_iff.2
  | some id =>
    obtain ⟨v, es, hn, he⟩ := h
    exact (hc.edges id v es hn e he).imp_left has_iff.2

theorem Whole.edge_away (hg : g.Whole) (hb : b.WellFormed) (hgb : g.Apart b) (h : g.EdgeFrom src e) :
    b.has e.target = false := by
  rcases hg.closed.edgeFrom h with hin | hout
  · exact hgb _ hin
  · rw [hout]
    exact node?_eq_none_iff.1 hb.sink_none

theorem forward_iff {x y : VertexId} :
    g.Forward x y ↔ ∃ e, g.EdgeFrom (some x) e ∧ e.loop = false ∧ e.target = y ∧ 0 ≤ y := by
  constructor
  · rintro ⟨v, es, hn, e, he, hrest⟩; exact ⟨e, ⟨v, es, hn, he⟩, hrest⟩
  · rintro ⟨e, ⟨v, es, hn, he⟩, hrest⟩; exact ⟨v, es, hn, e, he, hrest⟩

/-- Control enters the vertices of the set only along edges of `t`. -/
structure Region (g : Graph) (t : VertexId) (S : VertexId → Prop) : Prop where
  within : ∀ x, S x → g.has x = true
  gate : ∀ src e, g.EdgeFrom src e → S e.target → ∃ x, src = some x ∧ (S x ∨ x = t)

/-- Control comes to the vertex only past `t`. -/
def Guards (g : Graph) (t id : VertexId) : Prop := id = t ∨ ∃ S, g.Region t S ∧ S id

/-- A loop edge may lead from the one vertex back to the other. -/
structure ReturnsTo (g : Graph) (id t : VertexId) : Prop where
  prompt : ∃ w ds, g.node? t = some (w, ds) ∧ w.LoopPrompt
  guards : g.Guards t id

/-- Apart from edges that lead back to a place outside the graph, loop edges return to prompts inside it,
and no cycle goes without a loop edge. -/
structure Looped (g : Graph) (back : VertexId → Prop) : Prop where
  loops : ∀ src e, g.EdgeFrom src e → e.loop = true →
    back e.target ∨ ∃ id, src = some id ∧ g.ReturnsTo id e.target
  backward : ∀ src e, g.EdgeFrom src e → back e.target → e.loop = true
  acyclic : ∀ id, ¬TransGen g.Forward id id

abbrev SelfLooped (g : Graph) : Prop := g.Looped fun _ => False

theorem Guards.on_path (h : g.Guards t id) (hn : g.node? id = some (v, es))
    {ds : List Edge} (ht : g.node? t = some (w, ds)) {vs : List Vertex} (hl : g.Reaches vs id) :
    w ∈ vs ++ [v] := by
  rcases h with rfl | ⟨S, hS, hid⟩
  · cases hn.symm.trans ht
    simp
  -- a path that ends in the region begins in it or passes the gate
  have along : ∀ (vs : List Vertex) (fs : List Edge), g.Leads fs vs id →
      (∃ f ∈ fs, S f.target) ∨ w ∈ vs := by
    intro vs
    induction vs with
    | nil =>
      rintro fs ⟨f, hf, hft⟩
      exact Or.inl ⟨f, hf, hft ▸ hid⟩
    | cons x vs ih =>
      rintro fs ⟨f, hf, next, hx, hl⟩
      rcases ih next hl with ⟨k, hk, hkS⟩ | hm
      · obtain ⟨y, hy, hyS⟩ := hS.gate (some f.target) k ⟨x, next, hx, hk⟩ hkS
        cases hy
        rcases hyS with hyS | hyt
        · exact Or.inl ⟨f, hf, hyS⟩
        · cases (hyt ▸ hx).symm.trans ht
          exact Or.inr List.mem_cons_self
      · exact Or.inr (List.mem_cons_of_mem _ hm)
  rcases along vs g.start hl with ⟨f, hf, hfS⟩ | hm
  · obtain ⟨y, hy, -⟩ := hS.gate none f hf hfS
    cases hy
  · exact List.mem_append_left _ hm

/-- The vertices of the part are vertices of the whole, and the part is entered only where it starts. -/
structure PartOf (a r : Graph) : Prop where
  node : ∀ id v es, a.node? id = some (v, es) → ∃ ds, r.node? id = some (v, ds)
  entered : ∀ src e, r.EdgeFrom src e → a.has e.target = true →
    (∃ x d, src = some x ∧ a.EdgeFrom (some x) d ∧ d.target = e.target) ∨
      ∃ d ∈ a.start, d.target = e.target

theorem PartOf.has (h : a.PartOf r) (hid : a.has id = true) : r.has id = true := by
  obtain ⟨⟨v, es⟩, hn⟩ := has_iff.1 hid
  obtain ⟨ds, hn⟩ := h.node id v es hn
  exact has_iff.2 ⟨_, hn⟩

theorem ReturnsTo.part (h : a.PartOf r) (hr : a.ReturnsTo id t) : r.ReturnsTo id t := by
  obtain ⟨⟨w, ds, hn, hw⟩, hg⟩ := hr
  obtain ⟨ds', hn'⟩ := h.node t w ds hn
  refine ⟨⟨w, ds', hn', hw⟩, hg.imp_right ?_⟩
  rintro ⟨S, hS, hid⟩
  refine ⟨S, ⟨fun x hx => h.has (hS.within x hx), fun src e he hSe => ?_⟩, hid⟩
  rcases h.entered src e he (hS.within _ hSe) with ⟨x, d, rfl, hd, ht⟩ | ⟨d, hd, ht⟩
  · exact hS.gate (some x) d hd (ht ▸ hSe)
  · obtain ⟨x, hx, -⟩ := hS.gate none d hd (ht ▸ hSe)
    cases hx

theorem Looped.loop_has (h : g.SelfLooped) (he : g.EdgeFrom src e) (hl : e.loop = true) :
    g.has e.target = true := by
  rcases h.loops src e he hl with hb | ⟨id, -, ⟨w, ds, hn, -⟩, -⟩
  · exact hb.elim
  · exact has_iff.2 ⟨_, hn⟩

theorem Looped.start (h : g.SelfLooped) (he : e ∈ g.start) : e.loop = false := by
  rw [← Bool.not_eq_true]
  intro hl
  rcases h.loops none e he hl with hb | ⟨id, hid, -⟩
  · exact hb
  · cases hid

theorem Looped.leave (h : g.SelfLooped) (hg : g.WellFormed) (he : g.EdgeFrom src e)
    (ht : e.target = sink) : e.loop = false := by
  rw [← Bool.not_eq_true]
  intro hl
  have hs := h.loop_has he hl
  rw [ht, node?_eq_none_iff.1 hg.sink_none] at hs
  cases hs

theorem ReturnsTo.target_ne (h : g.ReturnsTo id t) (hn : g.node? p = some (v, es)) (hv : ¬v.LoopPrompt) :
    t ≠ p := by
  intro ht
  obtain ⟨w, ds, hw, hprompt⟩ := h.prompt
  cases (ht ▸ hw).symm.trans hn
  exact hv hprompt

theorem Looped.straight (h : g.SelfLooped) (hn : g.node? p = some (v, es)) (hv : ¬v.LoopPrompt)
    (he : g.EdgeFrom src e) (ht : e.target = p) : e.loop = false := by
  rw [← Bool.not_eq_true]
  intro hl
  rcases h.loops src e he hl with hb | ⟨x, -, hr⟩
  · exact hb
  · exact hr.target_ne hn hv ht

theorem Looped.target_ne (h : g.SelfLooped) (hg : g.WellFormed) (hn : g.node? p = some (v, es))
    (hv : ¬v.LoopPrompt) : ∀ e ∈ es, e.target ≠ p := by
  intro e he ht
  have hedge := EdgeFrom.node hn he
  apply h.acyclic p
  exact .single (forward_iff.2 ⟨e, hedge, h.straight hn hv hedge ht, ht, hg.real _ _ hn⟩)

theorem looped_of_no_node (hn : ∀ id, g.node? id = none) (hs : ∀ e ∈ g.start, e.loop = false)
    (hb : ∀ e ∈ g.start, ¬back e.target) : g.Looped back := by
  have only : ∀ src e, g.EdgeFrom src e → e ∈ g.start := by
    intro src e he
    cases src with
    | none => exact he
    | some id =>
      obtain ⟨v, es, hx, -⟩ := he
      cases (hn id).symm.trans hx
  refine ⟨fun src e he hl => ?_, fun src e he hbe => ?_, fun id hid => ?_⟩
  · rw [hs e (only src e he)] at hl
    cases hl
  · exact absurd hbe (hb e (only src e he))
  · obtain ⟨y, ⟨v, es, hx, -⟩, -⟩ := TransGen.head'_iff.1 hid
    cases (hn _).symm.trans hx

section Rewire

theorem edgeFrom_rewire (ha : a.WellFormed) : (rewire mark a repl).EdgeFrom src e ↔
    (a.EdgeFrom src e ∧ e.target ≠ sink) ∨
      ∃ d, a.EdgeFrom src d ∧ d.target = sink ∧ ∃ s ∈ repl, e = ⟨s.target, d.loop || s.loop⟩ := by
  cases src with
  | none => exact Edge.mem_redirect
  | some id =>
    simp only [EdgeFrom, node?_rewire ha, Option.map_eq_some_iff, Prod.mk.injEq, Prod.exists]
    constructor
    · rintro ⟨v, es, ⟨w, ds, hn, rfl, rfl⟩, he⟩
      rcases Edge.mem_redirect.1 he with ⟨he, ht⟩ | ⟨d, hd, ht, hs⟩
      · exact Or.inl ⟨⟨_, ds, hn, he⟩, ht⟩
      · exact Or.inr ⟨d, ⟨_, ds, hn, hd⟩, ht, hs⟩
    · rintro (⟨⟨v, es, hn, he⟩, ht⟩ | ⟨d, ⟨v, es, hn, hd⟩, ht, hs⟩)
      · exact ⟨v, _, ⟨v, es, hn, rfl, rfl⟩, Edge.mem_redirect.2 (Or.inl ⟨he, ht⟩)⟩
      · exact ⟨v, _, ⟨v, es, hn, rfl, rfl⟩, Edge.mem_redirect.2 (Or.inr ⟨d, hd, ht, hs⟩)⟩

theorem Looped.loopTo (hl : a.SelfLooped) (ha : a.Whole) (hp : a.has p = false) :
    (a.loopTo operation p).Looped (· = p) := by
  have edge : ∀ src e, (a.loopTo operation p).EdgeFrom src e →
      (a.EdgeFrom src e ∧ e.target ≠ sink ∧ e.target ≠ p) ∨ (e.target = p ∧ e.loop = true) := by
    intro src e he
    rcases (edgeFrom_rewire ha.wf).1 he with ⟨he, hs⟩ | ⟨d, -, -, s, hs, rfl⟩
    · refine Or.inl ⟨he, hs, fun ht => ?_⟩
      rcases ha.closed.edgeFrom he with hin | hout
      · rw [ht, hp] at hin
        cases hin
      · exact hs hout
    · rw [List.mem_singleton.1 hs]
      exact Or.inr ⟨rfl, Bool.or_true _⟩
  have part : a.PartOf (a.loopTo operation p) := by
    refine ⟨fun id v es hn => ⟨_, Includes.node?_of_rewire (fun _ _ h => h) ha.wf hn⟩,
      fun src e he hin => ?_⟩
    rcases edge src e he with ⟨he, -⟩ | ⟨ht, -⟩
    · cases src with
      | none => exact Or.inr ⟨e, he, rfl⟩
      | some x => exact Or.inl ⟨x, e, rfl, he, rfl⟩
    · rw [ht, hp] at hin
      cases hin
  refine ⟨fun src e he hle => ?_, fun src e he hb => ?_, fun id hid => ?_⟩
  · rcases edge src e he with ⟨he, -⟩ | ⟨ht, -⟩
    · rcases hl.loops src e he hle with hb | ⟨id, rfl, hr⟩
      · exact hb.elim
      · exact Or.inr ⟨id, rfl, hr.part part⟩
    · exact Or.inl ht
  · rcases edge src e he with ⟨-, -, hne⟩ | ⟨-, hle⟩
    · exact absurd hb hne
    · exact hle
  · refine hl.acyclic id (TransGen.mono (fun x y hxy => ?_) id id hid)
    obtain ⟨e, he, hle, hrest⟩ := forward_iff.1 hxy
    rcases edge (some x) e he with ⟨he, -⟩ | ⟨-, hle'⟩
    · exact forward_iff.2 ⟨e, he, hle, hrest⟩
    · rw [hle] at hle'
      cases hle'

end Rewire

section Append

theorem edgeFrom_sequence (ha : a.WellFormed) (hs : g.start = (rewire mark a b.start).start)
    (hn : ∀ id, g.node? id = (b.node? id).or ((rewire mark a b.start).node? id))
    (h : g.EdgeFrom src e) : (a.EdgeFrom src e ∧ e.target ≠ sink) ∨
      (∃ d, a.EdgeFrom src d ∧ d.target = sink ∧ ∃ s ∈ b.start, e = ⟨s.target, d.loop || s.loop⟩) ∨
      ∃ id, src = some id ∧ b.EdgeFrom (some id) e := by
  have first : (rewire mark a b.start).EdgeFrom src e ∨ ∃ id, src = some id ∧ b.EdgeFrom (some id) e := by
    cases src with
    | none =>
      rw [EdgeFrom, hs] at h
      exact Or.inl h
    | some id =>
      obtain ⟨v, es, hx, he⟩ := h
      rw [hn, Option.or_eq_some_iff] at hx
      rcases hx with hx | ⟨-, hx⟩
      · exact Or.inr ⟨id, rfl, v, es, hx, he⟩
      · exact Or.inl ⟨v, es, hx, he⟩
  rcases first with h | h
  · rcases (edgeFrom_rewire ha).1 h with h | h
    · exact Or.inl h
    · exact Or.inr (Or.inl h)
  · exact Or.inr (Or.inr h)

section Sequence

variable (haw : a.Whole) (hab : a.Apart b) (hs : g.start = (rewire mark a b.start).start)
  (hn : ∀ id, g.node? id = (b.node? id).or ((rewire mark a b.start).node? id))

include haw hab hs hn

theorem partOf_first (hbw : b.Whole) : a.PartOf g := by
  have away : ∀ {src e}, b.EdgeFrom src e → a.has e.target = false := hbw.edge_away haw.wf hab.symm
  have hia := includes_of_node?_or hn (hab.rewire haw.wf).agree
  refine ⟨fun id v es hx => ⟨_, hia.node?_of_rewire haw.wf hx⟩, fun src e he hin => ?_⟩
  rcases edgeFrom_sequence haw.wf hs hn he with ⟨he, -⟩ | ⟨d, -, -, s, hs, rfl⟩ | ⟨id, -, he⟩
  · cases src with
    | none => exact Or.inr ⟨e, he, rfl⟩
    | some x => exact Or.inl ⟨x, e, rfl, he, rfl⟩
  · rw [away (EdgeFrom.start hs)] at hin
    cases hin
  · rw [away he] at hin
    cases hin

theorem partOf_second : b.PartOf g := by
  refine ⟨fun id v es hx => ⟨es, includes_right_of_node?_or hn _ _ hx⟩, fun src e he hin => ?_⟩
  rcases edgeFrom_sequence haw.wf hs hn he with ⟨he, hne⟩ | ⟨d, -, -, s, hs, rfl⟩ | ⟨id, hid, he⟩
  · rw [hab _ ((haw.closed.edgeFrom he).resolve_right hne)] at hin
    cases hin
  · exact Or.inr ⟨s, hs, rfl⟩
  · exact Or.inl ⟨id, e, hid, he, rfl⟩

theorem acyclic_sequence (hbw : b.Whole) (ha : ∀ id, ¬TransGen a.Forward id id)
    (hb : ∀ id, ¬TransGen b.Forward id id) : ∀ id, ¬TransGen g.Forward id id := by
  have away : ∀ {src e}, b.EdgeFrom src e → a.has e.target = false := hbw.edge_away haw.wf hab.symm
  refine acyclic_of_layers (t := fun n => if n = 0 then a.Forward else b.Forward)
    (fun x => if a.has x = true then 0 else 1) not_transGen_lt ?_ fun x y hxy => ?_
  · intro n x
    split
    · exact ha x
    · exact hb x
  · obtain ⟨e, he, hle, rfl, hreal⟩ := forward_iff.1 hxy
    rcases edgeFrom_sequence haw.wf hs hn he with ⟨he, hne⟩ | ⟨d, hd, -, s, hs, rfl⟩ | ⟨id, hid, he⟩
    · right
      rw [if_pos he.has, if_pos ((haw.closed.edgeFrom he).resolve_right hne)]
      exact ⟨rfl, forward_iff.2 ⟨e, he, hle, rfl, hreal⟩⟩
    · left
      rw [if_pos hd.has, if_neg (by rw [away (EdgeFrom.start hs)]; decide)]
      exact .single Nat.zero_lt_one
    · cases hid
      right
      rw [if_neg (by rw [hab.symm _ he.has]; decide), if_neg (by rw [away he]; decide)]
      exact ⟨rfl, forward_iff.2 ⟨e, he, hle, rfl, hreal⟩⟩

end Sequence

theorem Looped.append (h : append operation a b = .ok g) (ha : a.SelfLooped) (hb : b.SelfLooped)
    (haw : a.Whole) (hbw : b.Whole) (hab : a.Apart b) : g.SelfLooped := by
  rcases append_cases h with ⟨_, rfl⟩ | ⟨_, rfl⟩ | ⟨_, rfl, hs, hn, -⟩
  · exact hb
  · exact ha
  refine ⟨fun src e he hl => ?_, fun src e _ hb => hb.elim,
    acyclic_sequence haw hab hs hn hbw ha.acyclic hb.acyclic⟩
  rcases edgeFrom_sequence haw.wf hs hn he with ⟨he, -⟩ | ⟨d, hd, hds, s, hs, rfl⟩ | ⟨id, hid, he⟩
  · rcases ha.loops src e he hl with hback | ⟨id, rfl, hr⟩
    · exact hback.elim
    · exact Or.inr ⟨id, rfl, hr.part (partOf_first haw hab hs hn hbw)⟩
  · rw [ha.leave haw.wf hd hds, hb.start hs] at hl
    cases hl
  · rcases hb.loops (some id) e he hl with hback | ⟨id', hid', hr⟩
    · exact hback.elim
    · exact Or.inr ⟨id', hid.trans hid', hr.part (partOf_second haw hab hs hn)⟩

end Append

section Copy

variable {ρ : VertexId → VertexId}

theorem CopyOf.edgeFrom (hc : c.CopyOf g ρ) (h : c.EdgeFrom src e) :
    ∃ src' d, g.EdgeFrom src' d ∧ src = src'.map ρ ∧ e = d.rename ρ := by
  cases src with
  | none =>
    rw [EdgeFrom, hc.start] at h
    obtain ⟨d, hd, rfl⟩ := List.mem_map.1 h
    exact ⟨none, d, hd, rfl, rfl⟩
  | some id =>
    obtain ⟨w, ds, hn, he⟩ := h
    obtain ⟨k, v, es, rfl, hv, rfl, -, -⟩ := hc.node_back hn
    obtain ⟨d, hd, rfl⟩ := List.mem_map.1 he
    exact ⟨some k, d, ⟨v, es, hv, hd⟩, rfl, rfl⟩

theorem ReturnsTo.copy (hc : c.CopyOf g ρ) (hg : g.Whole) (h : g.ReturnsTo id t) :
    c.ReturnsTo (ρ id) (ρ t) := by
  obtain ⟨⟨w, ds, hn, hw⟩, hguard⟩ := h
  obtain ⟨w', hn', -, hs⟩ := hc.node t w ds hn
  refine ⟨⟨w', _, hn', by rwa [Vertex.LoopPrompt, hs]⟩, ?_⟩
  rcases hguard with rfl | ⟨S, hS, hid⟩
  · exact Or.inl rfl
  refine Or.inr ⟨fun y => ∃ x, S x ∧ ρ x = y, ⟨?_, fun src e he hSe => ?_⟩, id, hid, rfl⟩
  · rintro y ⟨x, hx, rfl⟩
    obtain ⟨⟨v, es⟩, hv⟩ := has_iff.1 (hS.within x hx)
    obtain ⟨u, hu, -, -⟩ := hc.node x v es hv
    exact has_iff.2 ⟨_, hu⟩
  · obtain ⟨src', d, hd, rfl, rfl⟩ := hc.edgeFrom he
    obtain ⟨x, hx, hxe⟩ := hSe
    have heq : x = d.target :=
      hc.target_injective (Or.inl (hS.within x hx)) (hg.closed.edgeFrom hd) hxe
    obtain ⟨y, rfl, hy⟩ := hS.gate src' d hd (heq ▸ hx)
    exact ⟨ρ y, rfl, hy.imp (fun hy => ⟨y, hy, rfl⟩) (congrArg ρ)⟩

theorem Looped.copy (hl : g.SelfLooped) (hc : c.CopyOf g ρ) (hg : g.Whole) : c.SelfLooped := by
  refine ⟨fun src e he hle => ?_, fun src e _ hb => hb.elim, fun id hid => ?_⟩
  · obtain ⟨src', d, hd, rfl, rfl⟩ := hc.edgeFrom he
    rcases hl.loops src' d hd hle with hb | ⟨k, rfl, hr⟩
    · exact hb.elim
    · exact Or.inr ⟨ρ k, rfl, hr.copy hc hg⟩
  · -- a cycle of the copy is the image of a cycle
    have step : ∀ x y, c.Forward x y → ∃ k l, ρ k = x ∧ ρ l = y ∧ g.Forward k l ∧ g.has l = true := by
      intro x y hxy
      obtain ⟨e, he, hle, rfl, hreal⟩ := forward_iff.1 hxy
      obtain ⟨src', d, hd, hsrc, rfl⟩ := hc.edgeFrom he
      obtain ⟨k, rfl, rfl⟩ := Option.map_eq_some_iff.1 hsrc.symm
      rcases hg.closed.edgeFrom hd with hin | hout
      · obtain ⟨n, hn⟩ := has_iff.1 hin
        exact ⟨k, d.target, rfl, rfl, forward_iff.2 ⟨d, hd, hle, rfl, hg.wf.real _ _ hn⟩, hin⟩
      · rw [Edge.rename, hout, hc.leave] at hreal
        exact absurd hreal (by decide : ¬(0 : VertexId) ≤ sink)
    have along : ∀ x y, TransGen c.Forward x y → ∃ k l, ρ k = x ∧ ρ l = y ∧
        TransGen g.Forward k l ∧ g.has k = true ∧ g.has l = true := by
      intro x y hxy
      induction hxy with
      | single h =>
        obtain ⟨k, l, hk, hl, hf, hin⟩ := step _ _ h
        exact ⟨k, l, hk, hl, .single hf, hf.linked.has, hin⟩
      | tail _ h ih =>
        obtain ⟨k, l, hk, hl, hpath, hkin, hlin⟩ := ih
        obtain ⟨m, n, hm, hn, hf, hin⟩ := step _ _ h
        obtain rfl := hc.injective m l hf.linked.has hlin (hm.trans hl.symm)
        exact ⟨k, n, hk, hn, hpath.tail hf, hkin, hin⟩
    obtain ⟨k, l, hk, hl', hpath, hkin, hlin⟩ := along id id hid
    obtain rfl := hc.injective k l hkin hlin (hk.trans hl'.symm)
    exact hl.acyclic k hpath

end Copy

section Replace

/-- An edge after a replacement: it was there before, it leads into the new graph where it led to the
vertex, it goes past a new graph that control may cross without a stop, or it starts in the new graph
and stays there or goes on along an edge of the vertex. -/
inductive Rerouted (g b : Graph) (p : VertexId) (es : List Edge) : Option VertexId → Edge → Prop
  | kept {src : Option VertexId} {e : Edge} : g.EdgeFrom src e → src ≠ some p → e.target ≠ p →
      Rerouted g b p es src e
  | into {src : Option VertexId} {d s : Edge} : g.EdgeFrom src d → src ≠ some p → d.target = p →
      s ∈ b.start → s.target ≠ sink → Rerouted g b p es src ⟨s.target, d.loop || s.loop⟩
  | past {src : Option VertexId} {d s f : Edge} : g.EdgeFrom src d → src ≠ some p → d.target = p →
      s ∈ b.start → s.target = sink → f ∈ es →
      Rerouted g b p es src ⟨f.target, d.loop || (s.loop || f.loop)⟩
  | inside {id : VertexId} {e : Edge} : b.EdgeFrom (some id) e → e.target ≠ sink →
      Rerouted g b p es (some id) e
  | out {id : VertexId} {d f : Edge} : b.EdgeFrom (some id) d → d.target = sink → f ∈ es →
      Rerouted g b p es (some id) ⟨f.target, d.loop || f.loop⟩

theorem Replaces.rerouted (h : Replaces operation g p b r v es c d) (hb : b.WellFormed)
    (he : r.EdgeFrom src e) : Rerouted g b p es src e := by
  have old : ∀ src e fs, (∀ d ∈ fs, g.EdgeFrom src d) → src ≠ some p →
      e ∈ Edge.redirect fs p c.start → Rerouted g b p es src e := by
    intro src e fs hfs hsrc he
    rcases Edge.mem_redirect.1 he with ⟨he, ht⟩ | ⟨k, hk, hkp, s, hs, rfl⟩
    · exact .kept (hfs e he) hsrc ht
    · rw [h.part] at hs
      rcases Edge.mem_redirect.1 hs with ⟨hs, hss⟩ | ⟨q, hq, hqs, f, hf, rfl⟩
      · exact .into (hfs k hk) hsrc hkp hs hss
      · exact .past (hfs k hk) hsrc hkp hq hqs hf
  cases src with
  | none =>
    rw [EdgeFrom, h.start_eq] at he
    exact old none e g.start (fun _ hd => hd) (by simp) he
  | some id =>
    obtain ⟨w, fs, hn, he⟩ := he
    rw [h.nodes, Option.or_eq_some_iff] at hn
    rcases hn with hn | ⟨-, hn⟩
    · have hc : (rewire ⟨operation, true⟩ b es).EdgeFrom (some id) e := ⟨w, fs, h.part ▸ hn, he⟩
      rcases (edgeFrom_rewire hb).1 hc with ⟨he, hs⟩ | ⟨k, hk, hks, f, hf, rfl⟩
      · exact .inside he hs
      · exact .out hk hks hf
    · rw [h.rest] at hn
      obtain ⟨hid, gs, hg, rfl⟩ := node?_detour_eq_some.1 hn
      exact old (some id) e gs (fun k hk => ⟨w, gs, hg, hk⟩) (by simpa using hid) he

/-- A loop edge of the vertex starts in a region that the vertex is in, and its prompt stays. -/
theorem Replaces.own_loop (h : Replaces operation g p b r v es c d) (hb : b.WellFormed)
    (hgb : g.Apart b) (hg : g.SelfLooped) (hv : ¬v.LoopPrompt) {f : Edge} (hf : f ∈ es)
    (hl : f.loop = true) : (∃ w ds, r.node? f.target = some (w, ds) ∧ w.LoopPrompt) ∧ f.target ≠ p ∧
      ∃ S, g.Region f.target S ∧ S p := by
  rcases hg.loops (some p) f (EdgeFrom.node h.node hf) hl with hout | ⟨x, hx, hr⟩
  · exact hout.elim
  · cases hx
    have hne := hr.target_ne h.node hv
    obtain ⟨w, ds, hn, hw⟩ := hr.prompt
    exact ⟨⟨w, _, h.node?_kept hb hgb hn hne, hw⟩, hne, hr.guards.resolve_left hne.symm⟩

variable (h : Replaces operation g p b r v es c d) (hgw : g.Whole) (hbw : b.Whole) (hgb : g.Apart b)

include h hgw hbw hgb

theorem Replaces.partOf : b.PartOf r := by
  have away : ∀ {src e}, g.EdgeFrom src e → b.has e.target = false := hgw.edge_away hbw.wf hgb
  refine ⟨fun id w fs hn => ⟨_, (h.part ▸ h.includes_part : r.Includes _).node?_of_rewire hbw.wf hn⟩,
    fun src e he hin => ?_⟩
  cases h.rerouted hbw.wf he with
  | kept he =>
    rw [away he] at hin
    cases hin
  | into _ _ _ hs => exact Or.inr ⟨_, hs, rfl⟩
  | past _ _ _ _ _ hf =>
    rw [away (EdgeFrom.node h.node hf)] at hin
    cases hin
  | inside he => exact Or.inl ⟨_, e, rfl, he, rfl⟩
  | out _ _ hf =>
    rw [away (EdgeFrom.node h.node hf)] at hin
    cases hin

theorem Replaces.region (hS : g.Region t S) (htp : t ≠ p) :
    r.Region t fun x => (S x ∧ x ≠ p) ∨ (b.has x = true ∧ S p) := by
  -- control that comes to the vertex, or past it into the region, was in the region or at its gate
  have before : ∀ {src k}, g.EdgeFrom src k → k.target = p → src ≠ some p → S p →
      ∃ x, src = some x ∧ (((S x ∧ x ≠ p) ∨ (b.has x = true ∧ S p)) ∨ x = t) := by
    intro src k hk hkp hsrc hSp
    obtain ⟨x, rfl, hx⟩ := hS.gate src k hk (hkp ▸ hSp)
    exact ⟨x, rfl, hx.imp_left fun hx => Or.inl ⟨hx, by simpa using hsrc⟩⟩
  have onward : ∀ {f}, f ∈ es → (S f.target ∧ f.target ≠ p) ∨ (b.has f.target = true ∧ S p) → S p := by
    rintro f hf (⟨hSf, -⟩ | ⟨-, hSp⟩)
    · obtain ⟨x, hx, hSx⟩ := hS.gate (some p) f ⟨v, es, h.node, hf⟩ hSf
      cases hx
      exact hSx.resolve_right htp.symm
    · exact hSp
  refine ⟨?_, fun src e he hSe => ?_⟩
  · rintro x (⟨hx, hne⟩ | ⟨hx, -⟩)
    · exact (h.has hbw.wf x).2 (Or.inl ⟨hS.within x hx, hne⟩)
    · exact (h.has hbw.wf x).2 (Or.inr hx)
  cases h.rerouted hbw.wf he with
  | kept he hsrc hne =>
    rcases hSe with ⟨hSe, -⟩ | ⟨hin, -⟩
    · obtain ⟨x, rfl, hx⟩ := hS.gate src e he hSe
      exact ⟨x, rfl, hx.imp_left fun hx => Or.inl ⟨hx, by simpa using hsrc⟩⟩
    · rw [hgw.edge_away hbw.wf hgb he] at hin
      cases hin
  | into hk hsrc hkp hs hss =>
    rcases hSe with ⟨hSe, -⟩ | ⟨-, hSp⟩
    · have hin := (hbw.closed.edgeFrom (EdgeFrom.start hs)).resolve_right hss
      rw [hgb _ (hS.within _ hSe)] at hin
      cases hin
    · exact before hk hkp hsrc hSp
  | past hk hsrc hkp _ _ hf => exact before hk hkp hsrc (onward hf hSe)
  | @inside id _ he hes =>
    rcases hSe with ⟨hSe, -⟩ | ⟨-, hSp⟩
    · have hin := (hbw.closed.edgeFrom he).resolve_right hes
      rw [hgb _ (hS.within _ hSe)] at hin
      cases hin
    · exact ⟨id, rfl, Or.inl (Or.inr ⟨he.has, hSp⟩)⟩
  | @out id _ _ hk _ hf => exact ⟨id, rfl, Or.inl (Or.inr ⟨hk.has, onward hf hSe⟩)⟩

theorem Replaces.returnsTo (hg : g.SelfLooped) (hb : b.SelfLooped) (hv : ¬v.LoopPrompt)
    (he : r.EdgeFrom src e) (hl : e.loop = true) : ∃ id, src = some id ∧ r.ReturnsTo id e.target := by
  cases h.rerouted hbw.wf he with
  | kept he hsrc hne =>
    rcases hg.loops src e he hl with hb | ⟨x, rfl, hr⟩
    · exact hb.elim
    obtain ⟨w, ds, hn, hw⟩ := hr.prompt
    refine ⟨x, rfl, ⟨w, _, h.node?_kept hbw.wf hgb hn hne, hw⟩, hr.guards.imp_right ?_⟩
    rintro ⟨S, hS, hx⟩
    exact ⟨_, h.region hgw hbw hgb hS hne, Or.inl ⟨hx, by simpa using hsrc⟩⟩
  | into hk _ hkp hs =>
    rw [hg.straight h.node hv hk hkp, hb.start hs] at hl
    cases hl
  | past hk hsrc hkp hs _ hf =>
    rw [hg.straight h.node hv hk hkp, hb.start hs] at hl
    obtain ⟨hprompt, hne, S, hS, hSp⟩ := h.own_loop hbw.wf hgb hg hv hf hl
    obtain ⟨x, rfl, hx⟩ := hS.gate src _ hk (hkp ▸ hSp)
    refine ⟨x, rfl, hprompt, hx.symm.imp_right fun hx => ?_⟩
    exact ⟨_, h.region hgw hbw hgb hS hne, Or.inl ⟨hx, by simpa using hsrc⟩⟩
  | inside he =>
    rcases hb.loops _ e he hl with hb | ⟨x, hx, hr⟩
    · exact hb.elim
    · exact ⟨x, hx, hr.part (h.partOf hgw hbw hgb)⟩
  | @out id _ _ hk hks hf =>
    rw [hb.leave hbw.wf hk hks] at hl
    obtain ⟨hprompt, hne, S, hS, hSp⟩ := h.own_loop hbw.wf hgb hg hv hf hl
    exact ⟨id, rfl, hprompt, Or.inr ⟨_, h.region hgw hbw hgb hS hne, Or.inr ⟨hk.has, hSp⟩⟩⟩

theorem Replaces.acyclic (hg : g.SelfLooped) (hb : b.SelfLooped) (hv : ¬v.LoopPrompt) :
    ∀ id, ¬TransGen r.Forward id id := by
  have stays : ∀ {src k}, g.EdgeFrom src k →
      (if b.has k.target = true then p else k.target) = k.target := by
    intro src k hk
    rw [hgw.edge_away hbw.wf hgb hk]; rfl
  refine acyclic_of_layers (s := g.Forward) (t := fun _ => b.Forward)
    (fun x => if b.has x = true then p else x) hg.acyclic (fun _ => hb.acyclic) fun x y hxy => ?_
  obtain ⟨e, he, hle, rfl, hreal⟩ := forward_iff.1 hxy
  have source : ∀ {k}, g.EdgeFrom (some x) k → (if b.has x = true then p else x) = x := by
    intro k hk
    rw [hgb _ hk.has]; rfl
  have enter : ∀ {k}, g.EdgeFrom (some x) k → k.target = p → g.Forward x p := fun hk hkp =>
    forward_iff.2 ⟨_, hk, hg.straight h.node hv hk hkp, hkp, hgw.wf.real p _ h.node⟩
  have onward : ∀ {f}, f ∈ es → f.loop = false → 0 ≤ f.target → g.Forward p f.target :=
    fun hf hfl hreal => ⟨v, es, h.node, _, hf, hfl, rfl, hreal⟩
  generalize hsrc : some x = src at he
  cases h.rerouted hbw.wf he with
  | kept he =>
    subst hsrc
    left
    rw [source he, stays he]
    exact .single (forward_iff.2 ⟨e, he, hle, rfl, hreal⟩)
  | into hk _ hkp hs hss =>
    subst hsrc
    left
    rw [source hk, if_pos ((hbw.closed.edgeFrom (EdgeFrom.start hs)).resolve_right hss)]
    exact .single (enter hk hkp)
  | past hk _ hkp hs _ hf =>
    subst hsrc
    left
    simp only [Bool.or_eq_false_iff] at hle
    rw [source hk, stays (EdgeFrom.node h.node hf)]
    exact .tail (.single (enter hk hkp)) (onward hf hle.2.2 hreal)
  | inside he hes =>
    cases hsrc
    right
    rw [if_pos he.has, if_pos ((hbw.closed.edgeFrom he).resolve_right hes)]
    exact ⟨rfl, forward_iff.2 ⟨e, he, hle, rfl, hreal⟩⟩
  | out hk hks hf =>
    cases hsrc
    left
    rw [Bool.or_eq_false_iff] at hle
    rw [if_pos hk.has, stays (EdgeFrom.node h.node hf)]
    exact .single (onward hf hle.2 hreal)

theorem Looped.replace (hg : g.SelfLooped) (hb : b.SelfLooped) (hv : ¬v.LoopPrompt) :
    r.SelfLooped where
  loops := fun _ _ he hl => Or.inr (h.returnsTo hgw hbw hgb hg hb hv he hl)
  backward := fun _ _ _ hout => hout.elim
  acyclic := h.acyclic hgw hbw hgb hg hb hv

end Replace

end Graph

end StoryFlow.Flow
