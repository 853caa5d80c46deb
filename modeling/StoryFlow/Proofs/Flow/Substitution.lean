import StoryFlow.Proofs.Flow.Words

/-! A graph in the place of a vertex. The paths of the result are the paths of the graph that held the
vertex, with a complete path of the new graph at every place where the vertex was passed. Different
passes may take different paths through it. -/

namespace StoryFlow.Flow.Graph

variable {a b g r : Graph} {p : VertexId} {operation : Nat} {out : VertexId → Prop}

/-- The graph without one of its vertices. Edges to the vertex lead to the target instead. -/
def detour (mark : Mark) (g : Graph) (p : VertexId) (target : List Edge) : Graph where
  nodes := (g.nodes.erase p).map fun _ m => redirectEntry mark p target m
  exits := (g.exits.erase p).union (((g.nodes.erase p).filter fun _ m =>
    Edge.anyTo m.edges p && Edge.anyTo (Edge.redirect m.edges p target) sink).map fun _ _ => ())
  start := Edge.redirect g.start p target

section Detour

variable {mark : Mark} {target : List Edge}

theorem node_redirectEntry (e : Entry) :
    (redirectEntry mark p target e).node = (e.vertex, Edge.redirect e.edges p target) := by
  unfold redirectEntry
  split <;> rename_i h
  · rfl
  · rw [Edge.redirect_of_not_anyTo (Bool.eq_false_iff.2 h)]
    rfl

theorem node?_detour (id : VertexId) : (detour mark g p target).node? id =
    if id = p then none else (g.node? id).map fun x => (x.1, Edge.redirect x.2 p target) := by
  rw [node?, detour, IdMap.get?_map, IdMap.get?_erase]
  split
  · rfl
  · rw [node?, Option.map_map, Option.map_map]
    exact congrArg (Option.map · _) (funext fun e => node_redirectEntry e)

theorem node?_detour_eq_some {id : VertexId} {v : Vertex} {ds : List Edge} :
    (detour mark g p target).node? id = some (v, ds) ↔
      id ≠ p ∧ ∃ es, g.node? id = some (v, es) ∧ ds = Edge.redirect es p target := by
  rw [node?_detour]
  split <;> rename_i hid
  · simp [hid]
  · simp only [Option.map_eq_some_iff, Prod.mk.injEq, Prod.exists]
    constructor
    · rintro ⟨w, es, hn, rfl, rfl⟩; exact ⟨hid, es, hn, rfl⟩
    · rintro ⟨_, es, hn, rfl⟩; exact ⟨v, es, hn, rfl, rfl⟩

theorem has_detour (id : VertexId) :
    (detour mark g p target).has id = true ↔ g.has id = true ∧ id ≠ p := by
  rw [has_iff, has_iff, node?_detour]
  split <;> rename_i hid
  · simp [hid]
  · simp [Option.map_eq_some_iff, hid]

theorem Edge.anyTo_redirect_other {es : List Edge} (hp : p ≠ sink) :
    Edge.anyTo (Edge.redirect es p target) sink = true ↔ Edge.anyTo es sink = true ∨
      (Edge.anyTo es p = true ∧ Edge.anyTo (Edge.redirect es p target) sink = true) := by
  simp only [Edge.anyTo_iff]
  constructor
  · rintro ⟨e, he, ht⟩
    rcases Edge.mem_redirect.1 he with ⟨hm, _⟩ | ⟨d, hd, hdt, _⟩
    · exact Or.inl ⟨e, hm, ht⟩
    · exact Or.inr ⟨⟨d, hd, hdt⟩, e, he, ht⟩
  · rintro (⟨e, he, ht⟩ | ⟨_, h⟩)
    · exact ⟨e, Edge.mem_redirect.2 (Or.inl ⟨he, ht ▸ hp.symm⟩), ht⟩
    · exact h

theorem contains_exits_detour {id : VertexId} : (detour mark g p target).exits.contains id = true ↔
    id ≠ p ∧ (g.exits.contains id = true ∨ ∃ v es, g.node? id = some (v, es) ∧
      Edge.anyTo es p = true ∧ Edge.anyTo (Edge.redirect es p target) sink = true) := by
  rw [detour, contains_union, Bool.or_eq_true]
  simp only [IdMap.contains_iff, IdMap.get?_erase, IdMap.get?_map, IdMap.get?_filter, node?]
  by_cases hid : id = p
  · simp [hid]
  · simp only [hid, if_false, ne_eq, not_false_eq_true, true_and]
    refine or_congr_right ?_
    cases g.nodes.get? id with
    | none => simp
    | some e => simp [Entry.node, Option.filter_some]

theorem WellFormed.detour (h : g.WellFormed) (hp : p ≠ sink) :
    (detour mark g p target).WellFormed where
  own := by
    intro id v ds hx
    obtain ⟨-, es, hn, -⟩ := node?_detour_eq_some.1 hx
    exact h.own id v es hn
  real := by
    intro id x hx
    obtain ⟨-, es, hn, -⟩ := node?_detour_eq_some.1 hx
    exact h.real id _ hn
  exits := by
    intro id
    rw [contains_exits_detour, h.exits]
    constructor
    · rintro ⟨hid, ⟨v, es, hn, hs⟩ | ⟨v, es, hn, hes, hs⟩⟩
      · exact ⟨v, _, node?_detour_eq_some.2 ⟨hid, es, hn, rfl⟩,
          (Edge.anyTo_redirect_other hp).2 (Or.inl hs)⟩
      · exact ⟨v, _, node?_detour_eq_some.2 ⟨hid, es, hn, rfl⟩, hs⟩
    · rintro ⟨v, ds, hx, hs⟩
      obtain ⟨hid, es, hn, rfl⟩ := node?_detour_eq_some.1 hx
      refine ⟨hid, ?_⟩
      rcases (Edge.anyTo_redirect_other hp).1 hs with hs | ⟨hes, hs⟩
      · exact Or.inl ⟨v, es, hn, hs⟩
      · exact Or.inr ⟨v, es, hn, hes, hs⟩

end Detour

/-- What a replacement is made of: the graph without the vertex, and the new graph rewired to go on
along the edges of the vertex. -/
structure Replaces (operation : Nat) (g : Graph) (p : VertexId) (b r : Graph) (v : Vertex)
    (es : List Edge) (c d : Graph) : Prop where
  node : g.node? p = some (v, es)
  noLoop : Edge.anyTo es p = false
  away : b.has p = false
  part : c = rewire ⟨operation, true⟩ b es
  rest : d = detour ⟨operation, false⟩ g p c.start
  start : r.start = d.start
  nodes : ∀ id, r.node? id = (c.node? id).or (d.node? id)
  exits : ∀ id, r.exits.contains id = (d.exits.contains id || c.exits.contains id)
  merged : mergeEntries d.nodes c.nodes = .ok r.nodes

theorem replace_ok (h : replace operation g p b = .ok r) :
    ∃ v es c d, Replaces operation g p b r v es c d := by
  obtain ⟨e, he, h₁⟩ := ok_of_bind_ok h
  have hget := entry_eq_ok_iff.1 he
  split at h₁ <;> rename_i hloop
  · cases h₁
  · split at h₁ <;> rename_i hb
    · cases h₁
    · obtain ⟨nodes, hm, heq⟩ := ok_of_bind_ok h₁
      cases heq
      refine ⟨e.vertex, e.edges, _, detour ⟨operation, false⟩ g p _, by rw [node?, hget]; rfl,
        by simpa using hloop, by simpa using hb, rfl, rfl, rfl, fun id => ?_,
        contains_union _ _, hm⟩
      rw [mergeEntries_eq hm]
      exact node?_union (a := detour ⟨operation, false⟩ g p _) _ _ id

namespace Replaces

variable {v : Vertex} {es : List Edge} {c d : Graph}

theorem real (h : Replaces operation g p b r v es c d) (hg : g.WellFormed) : p ≠ sink :=
  hg.ne_sink h.node

theorem target_ne (h : Replaces operation g p b r v es c d) : ∀ e ∈ es, e.target ≠ p := by
  intro e he hp
  have hloop := h.noLoop
  rw [Edge.anyTo_iff.2 ⟨e, he, hp⟩] at hloop
  cases hloop

theorem has (h : Replaces operation g p b r v es c d) (hb : b.WellFormed) (id : VertexId) :
    r.has id = true ↔ (g.has id = true ∧ id ≠ p) ∨ b.has id = true := by
  rw [has_of_node?_or h.nodes, Bool.or_eq_true, h.rest, has_detour, h.part, has_rewire hb]

theorem apart (h : Replaces operation g p b r v es c d) (hb : b.WellFormed) (hgb : g.Apart b) :
    d.Apart c := by
  intro id hid
  rw [h.rest, has_detour] at hid
  rw [h.part, has_rewire hb]
  exact hgb id hid.1

theorem wellFormed_of_agree (h : Replaces operation g p b r v es c d) (hg : g.WellFormed)
    (hb : b.WellFormed) (hdc : d.Agree c) : r.WellFormed := by
  refine wellFormed_of_node?_or h.nodes h.exits ?_ ?_ hdc
  · rw [h.rest]; exact hg.detour (h.real hg)
  · rw [h.part]; exact hb.rewire

theorem wellFormed (h : Replaces operation g p b r v es c d) (hg : g.WellFormed)
    (hb : b.WellFormed) (hgb : g.Apart b) : r.WellFormed :=
  h.wellFormed_of_agree hg hb (h.apart hb hgb).agree

theorem includes_part (h : Replaces operation g p b r v es c d) : r.Includes c :=
  includes_right_of_node?_or h.nodes

theorem includes_rest (h : Replaces operation g p b r v es c d) (hb : b.WellFormed)
    (hgb : g.Apart b) : r.Includes d :=
  includes_of_node?_or h.nodes (h.apart hb hgb).agree

theorem node?_kept (h : Replaces operation g p b r v es c d) (hb : b.WellFormed)
    (hgb : g.Apart b) {id : VertexId} {w : Vertex} {ds : List Edge}
    (hn : g.node? id = some (w, ds)) (hid : id ≠ p) :
    r.node? id = some (w, Edge.redirect ds p c.start) := by
  apply h.includes_rest hb hgb
  rw [h.rest]
  exact node?_detour_eq_some.2 ⟨hid, ds, hn, rfl⟩

theorem redirect_own (h : Replaces operation g p b r v es c d) :
    Edge.redirect es p c.start = es := Edge.redirect_of_not_anyTo h.noLoop

theorem start_eq (h : Replaces operation g p b r v es c d) :
    r.start = Edge.redirect g.start p c.start := by
  rw [h.start, h.rest]
  rfl

theorem closed (h : Replaces operation g p b r v es c d) (hb : b.WellFormed) (hgc : g.Closed out)
    (hbc : b.Closed out) : r.Closed out := by
  have kept : ∀ id, g.has id = true → id ≠ p → r.has id = true :=
    fun id hid hne => (h.has hb id).2 (Or.inl ⟨hid, hne⟩)
  -- the edges of the vertex lead to vertices that stay, since none of them is a loop at it
  have after : r.Targets out es := by
    intro e he
    rcases hgc.edges _ _ _ h.node e he with hx | hx
    · exact Or.inl (has_iff.1 (kept _ (has_iff.2 hx) (h.target_ne e he)))
    · exact Or.inr hx
  have through : ∀ ds, b.Targets out ds → r.Targets out (Edge.redirect ds sink es) := by
    intro ds hd
    refine hd.redirect (fun id hid _ => Or.inl ?_) (fun _ hid _ => Or.inr hid) after
    exact (h.has hb id).2 (Or.inr hid)
  have start : r.Targets out c.start := by
    rw [h.part]
    exact through _ hbc.start
  have old : ∀ ds, g.Targets out ds → r.Targets out (Edge.redirect ds p c.start) := by
    intro ds hd
    exact hd.redirect (fun id hid hne => Or.inl (kept id hid hne)) (fun _ hid _ => Or.inr hid)
      start
  refine ⟨h.start_eq ▸ old _ hgc.start, ?_⟩
  intro id w ds hx
  rw [h.nodes, Option.or_eq_some_iff] at hx
  rcases hx with hx | ⟨_, hx⟩
  · rw [h.part, node?_rewire hb, Option.map_eq_some_iff] at hx
    obtain ⟨⟨x, es'⟩, hn, heq⟩ := hx
    cases heq
    exact through _ (hbc.edges _ _ _ hn)
  · rw [h.rest] at hx
    obtain ⟨-, es', hn, rfl⟩ := node?_detour_eq_some.1 hx
    exact old _ (hgc.edges _ _ _ hn)

theorem whole (h : Replaces operation g p b r v es c d) (hg : g.Whole) (hb : b.Whole)
    (hgb : g.Apart b) : r.Whole :=
  ⟨h.wellFormed hg.wf hb.wf hgb, h.closed hb.wf hg.closed hb.closed⟩

end Replaces

/-- The second path is the first one with a complete path of the graph at every pass of the vertex. -/
inductive Spliced (p : VertexId) (b : Graph) : List Vertex → List Vertex → Prop
  | nil : Spliced p b [] []
  | keep {v : Vertex} {vs us : List Vertex} : v.id ≠ p → Spliced p b vs us →
      Spliced p b (v :: vs) (v :: us)
  | put {v : Vertex} {vs xs us : List Vertex} : v.id = p → b.Reaches xs sink →
      Spliced p b vs us → Spliced p b (v :: vs) (xs ++ us)

theorem Leads.first {t : VertexId} {es : List Edge} {vs : List Vertex} (h : g.Leads es vs t) :
    ∃ e ∈ es, g.Leads [e] vs t := by
  cases vs with
  | nil =>
    obtain ⟨e, he, ht⟩ := h
    exact ⟨e, he, e, List.mem_singleton_self e, ht⟩
  | cons v vs =>
    obtain ⟨e, he, next, hn, hl⟩ := h
    exact ⟨e, he, e, List.mem_singleton_self e, next, hn, hl⟩

namespace Replaces

variable {v : Vertex} {es : List Edge} {c d : Graph} {t : VertexId}

theorem leads_of_spliced (h : Replaces operation g p b r v es c d) (hg : g.WellFormed)
    (hb : b.Whole) (hgb : g.Apart b) {vs us ys : List Vertex} {ds : List Edge} {q : VertexId}
    (hs : Spliced p b vs us) (hl : g.Leads ds vs q)
    (hy : r.Leads (Edge.redirect [⟨q, false⟩] p c.start) ys t) :
    r.Leads (Edge.redirect ds p c.start) (us ++ ys) t := by
  induction hs generalizing ds with
  | nil =>
    obtain ⟨e, he, rfl⟩ := hl
    refine hy.mono fun x hx => ?_
    rcases Edge.mem_redirect.1 hx with ⟨hm, hne⟩ | ⟨k, hk, hkp, s, hs, rfl⟩
    · rw [List.mem_singleton.1 hm] at hne ⊢
      exact ⟨e, Edge.mem_redirect.2 (Or.inl ⟨he, hne⟩), rfl⟩
    · rw [List.mem_singleton.1 hk] at hkp
      exact ⟨_, Edge.mem_redirect.2 (Or.inr ⟨e, he, hkp, s, hs, rfl⟩), rfl⟩
  | keep hne _ ih =>
    obtain ⟨e, he, next, hn, hl⟩ := hl
    have hid := hg.own _ _ _ hn
    exact ⟨e, Edge.mem_redirect.2 (Or.inl ⟨he, hid ▸ hne⟩), _,
      h.node?_kept hb.wf hgb hn (hid ▸ hne), ih hl⟩
  | put hp hx _ ih =>
    obtain ⟨e, he, next, hn, hl⟩ := hl
    have hid := hg.own _ _ _ hn
    have heq := (show e.target = p from hid.symm.trans hp) ▸ hn
    cases heq.symm.trans h.node
    have hnext := ih hl
    rw [h.redirect_own] at hnext
    have hpart : r.Leads (Edge.redirect b.start sink es) _ t :=
      leads_rewire_append hb.wf (h.part ▸ h.includes_part) hx hnext
    rw [List.append_assoc]
    refine hpart.mono fun s hs => ⟨_, Edge.mem_redirect.2 (Or.inr ⟨e, he, hid.symm.trans hp, s, ?_,
      rfl⟩), rfl⟩
    rw [h.part]
    exact hs

/-- Every path of the result comes from a path with the vertex, or it ends in the new graph and comes from
a path to the vertex. -/
theorem leads_cases (h : Replaces operation g p b r v es c d) (hg : g.Whole) (hb : b.Whole)
    (hgb : g.Apart b) {us : List Vertex} {ds : List Edge}
    (hd : g.Targets (· = sink) ds) (hl : r.Leads (Edge.redirect ds p c.start) us t) :
    (∃ vs, g.Leads ds vs t ∧ Spliced p b vs us) ∨
      (b.has t = true ∧ ∃ vs ys xs, us = ys ++ xs ∧ g.Leads ds vs p ∧ Spliced p b vs ys ∧
        b.Reaches xs t) := by
  induction hn : us.length using Nat.strong_induction_on generalizing us ds with
  | _ n ih =>
    subst hn
    -- from an edge that does not lead to the vertex, one step is made in the old graph
    have step : ∀ ys : List Vertex, ys.length ≤ us.length → ∀ fs, g.Targets (· = sink) fs →
        ∀ e ∈ fs, e.target ≠ p → r.Leads [e] ys t →
        (∃ vs, g.Leads fs vs t ∧ Spliced p b vs ys) ∨
          (b.has t = true ∧ ∃ vs zs xs, ys = zs ++ xs ∧ g.Leads fs vs p ∧ Spliced p b vs zs ∧
            b.Reaches xs t) := by
      intro ys hlen fs hf e he hne hy
      cases ys with
      | nil =>
        obtain ⟨k, hk, hkt⟩ := hy
        rw [List.mem_singleton.1 hk] at hkt
        exact Or.inl ⟨[], ⟨e, he, hkt⟩, .nil⟩
      | cons y ys =>
        obtain ⟨k, hk, next, hnode, hnext⟩ := hy
        rw [List.mem_singleton.1 hk] at hnode
        rcases hf e he with ⟨⟨w, es'⟩, hw⟩ | hs
        · cases (h.node?_kept hb.wf hgb hw hne).symm.trans hnode
          have hid := hg.wf.own _ _ _ hw
          rcases ih ys.length (by simp at hlen; omega) (hg.closed.edges _ _ _ hw) hnext rfl with
            ⟨vs, hvs, hsp⟩ | ⟨ht, vs, zs, xs, rfl, hvs, hsp, hx⟩
          · exact Or.inl ⟨y :: vs, ⟨e, he, es', hw, hvs⟩, .keep (hid ▸ hne) hsp⟩
          · exact Or.inr ⟨ht, y :: vs, y :: zs, xs, rfl, ⟨e, he, es', hw, hvs⟩, .keep (hid ▸ hne) hsp,
              hx⟩
        · rw [hs, (h.whole hg hb hgb).wf.sink_none] at hnode
          cases hnode
    obtain ⟨e, he, hle⟩ := hl.first
    rcases Edge.mem_redirect.1 he with ⟨hm, hne⟩ | ⟨k, hk, hkp, s, hs, rfl⟩
    · exact step us le_rfl ds hd e hm hne hle
    · -- through the new graph, and on along the edges of the vertex, which do not come back to it
      have hpart : r.Leads (Edge.redirect b.start sink es) us t := by
        refine hle.mono fun x hx => ⟨s, ?_, by rw [List.mem_singleton.1 hx]⟩
        rw [h.part] at hs
        exact hs
      have hid := hg.wf.own _ _ _ h.node
      rcases leads_rewire_cases hb.wf hb.closed.edges (h.part ▸ h.includes_part) hb.closed.start hpart with
        ⟨hx, ht⟩ | ⟨xs, ys, rfl, hx, hy⟩
      · exact Or.inr ⟨ht, [], [], us, rfl, ⟨k, hk, hkp⟩, .nil, hx⟩
      · obtain ⟨f, hf, hlf⟩ := hy.first
        rcases step ys (by simp) es (hg.closed.edges _ _ _ h.node) f hf (h.target_ne f hf) hlf with
          ⟨vs, hvs, hsp⟩ | ⟨ht, vs, zs, ws, rfl, hvs, hsp, hw⟩
        · exact Or.inl ⟨v :: vs, ⟨k, hk, es, hkp ▸ h.node, hvs⟩, .put hid hx hsp⟩
        · exact Or.inr ⟨ht, v :: vs, xs ++ zs, ws, (List.append_assoc ..).symm,
            ⟨k, hk, es, hkp ▸ h.node, hvs⟩, .put hid hx hsp, hw⟩

theorem spliced_of_leads (h : Replaces operation g p b r v es c d) (hg : g.Whole) (hb : b.Whole)
    (hgb : g.Apart b) (ht : b.has t = false) {us : List Vertex} {ds : List Edge}
    (hd : g.Targets (· = sink) ds) (hl : r.Leads (Edge.redirect ds p c.start) us t) :
    ∃ vs, g.Leads ds vs t ∧ Spliced p b vs us := by
  refine (h.leads_cases hg hb hgb hd hl).resolve_right ?_
  rintro ⟨hin, -⟩
  rw [ht] at hin
  cases hin

theorem reaches_sink (h : Replaces operation g p b r v es c d) (hg : g.Whole) (hb : b.Whole)
    (hgb : g.Apart b) {us : List Vertex} :
    r.Reaches us sink ↔ ∃ vs, g.Reaches vs sink ∧ Spliced p b vs us := by
  have hsink : b.has sink = false := node?_eq_none_iff.1 hb.wf.sink_none
  have hp := (h.real hg.wf).symm
  unfold Reaches
  rw [h.start_eq]
  constructor
  · exact h.spliced_of_leads hg hb hgb hsink hg.closed.start
  · rintro ⟨vs, hl, hs⟩
    have hend : r.Leads (Edge.redirect [⟨sink, false⟩] p c.start) [] sink :=
      ⟨⟨sink, false⟩, Edge.mem_redirect.2 (Or.inl ⟨List.mem_singleton_self _, hp⟩), rfl⟩
    have := h.leads_of_spliced hg.wf hb hgb hs hl hend
    rwa [List.append_nil] at this

theorem reaches_kept (h : Replaces operation g p b r v es c d) (hg : g.WellFormed) (hb : b.Whole)
    (hgb : g.Apart b) {vs us : List Vertex} (hs : Spliced p b vs us) (hl : g.Reaches vs t)
    (ht : t ≠ p) : r.Reaches us t := by
  have hend : r.Leads (Edge.redirect [⟨t, false⟩] p c.start) [] t :=
    ⟨⟨t, false⟩, Edge.mem_redirect.2 (Or.inl ⟨List.mem_singleton_self _, ht⟩), rfl⟩
  have hr := h.leads_of_spliced hg hb hgb hs hl hend
  rw [List.append_nil] at hr
  unfold Reaches
  rwa [h.start_eq]

theorem reaches_part (h : Replaces operation g p b r v es c d) (hg : g.WellFormed) (hb : b.Whole)
    (hgb : g.Apart b) {vs us xs : List Vertex} (hs : Spliced p b vs us) (hl : g.Reaches vs p)
    (hx : b.Reaches xs t) (ht : t ≠ sink) : r.Reaches (us ++ xs) t := by
  have hin : r.Leads (Edge.redirect b.start sink es) xs t :=
    leads_rewire_within hb.wf (h.part ▸ h.includes_part) ht hx
  have hend : r.Leads (Edge.redirect [⟨p, false⟩] p c.start) xs t := by
    refine hin.mono fun e he => ⟨_, Edge.mem_redirect.2 (Or.inr ⟨_, List.mem_singleton_self _, rfl,
      e, ?_, rfl⟩), rfl⟩
    rw [h.part]
    exact he
  have hr := h.leads_of_spliced hg hb hgb hs hl hend
  unfold Reaches
  rwa [h.start_eq]

end Replaces

end StoryFlow.Flow.Graph
