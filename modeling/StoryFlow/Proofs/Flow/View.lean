import StoryFlow.Proofs.Flow.Search

/-! The visible view of a graph is the graph with the invisible vertices passed over. If no cycle consists
of invisible vertices, the search behind them finds all that control can come to past such vertices only. An
edge of the view that is not a loop edge stands for a way without loop edges. -/

namespace StoryFlow.Flow.Graph

open Relation

variable {g r : Graph} {id t : VertexId} {v : Vertex} {es ds : List Edge} {l : Bool} {operation : Nat}

/-- The edges `ds` lead to the targets that are nearest behind the edges `es`. -/
structure Covers (g : Graph) (es ds : List Edge) : Prop where
  complete : ∀ l t, g.Past l es t → Edge.anyTo ds t = true
  sound : ∀ d ∈ ds, ∃ l, g.Past l es d.target ∧ (d.loop = false → l = false)

structure Viewable (g : Graph) : Prop where
  valid : g.Valid
  real : ∀ id, g.has id = true → 0 ≤ id
  clear : ∀ id, ¬TransGen g.Hidden id id

theorem Viewable.covers (hg : g.Viewable) (h : g.Finds (fun _ => True) es ds) : g.Covers es ds := by
  have nearest := h.nearest hg.real
  refine ⟨fun l t hp => ?_, fun d hd => ⟨d.loop, nearest.sound d hd, fun hl => hl⟩⟩
  exact Edge.anyTo_iff.2 ((nearest.targets (fun _ _ id _ => hg.clear id) t).2 ⟨l, hp⟩)

/-- The view of a graph: the visible vertices, with edges for what is nearest behind their own. -/
structure ViewOf (r g : Graph) : Prop where
  start : g.Covers g.start r.start
  shown : ∀ id v es, g.node? id = some (v, es) → v.visible = true →
    ∃ ds, r.node? id = some (v, ds) ∧ g.Covers es ds
  only : ∀ id v ds, r.node? id = some (v, ds) →
    ∃ es, g.node? id = some (v, es) ∧ v.visible = true ∧ g.Covers es ds

theorem Viewable.view (hg : g.Viewable) (operation : Nat) :
    ∃ r, removeInvisible operation g = .ok r ∧ r.ViewOf g := by
  obtain ⟨r, hr, hstart, shown, only⟩ := view_finds hg.valid hg.real operation
  refine ⟨r, hr, hg.covers hstart, fun id v es hn hv => ?_, fun id v ds hn => ?_⟩
  · obtain ⟨ds, hds, hfinds⟩ := shown id v es hn hv
    exact ⟨ds, hds, hg.covers hfinds⟩
  · obtain ⟨es, hes, hv⟩ := only id v ds hn
    obtain ⟨ds', hds', hfinds⟩ := shown id v es hes hv
    cases hn.symm.trans hds'
    exact ⟨es, hes, hv, hg.covers hfinds⟩

section Sequences

theorem Past.leads (h : g.Past l es t) (vs : List Vertex) {s : VertexId}
    (ht : g.Leads [⟨t, false⟩] vs s) :
    ∃ us, (∀ u ∈ us, u.visible = false) ∧ g.Leads es (us ++ vs) s := by
  induction h with
  | @here es e he _ => exact ⟨[], by simp, ht.mono (by simpa using ⟨e, he, rfl⟩)⟩
  | @past es ds e v l t he hn hv _ ih =>
    obtain ⟨us, hus, hl⟩ := ih ht
    exact ⟨v :: us, List.forall_mem_cons.2 ⟨hv, hus⟩, e, he, ds, hn, hl⟩

/-- On its way control comes to the first visible vertex, if there is one, past invisible ones. -/
theorem first_shown {vs : List Vertex} {s : VertexId} (hs : ¬g.Unseen s) (h : g.Leads es vs s) :
    (vs.filter Vertex.visible = [] ∧ ∃ l, g.Past l es s) ∨
      ∃ l t v next rest, g.Past l es t ∧ g.node? t = some (v, next) ∧ v.visible = true ∧
        g.Leads next rest s ∧ rest.length < vs.length ∧
        vs.filter Vertex.visible = v :: rest.filter Vertex.visible := by
  induction vs generalizing es with
  | nil =>
    obtain ⟨e, he, rfl⟩ := h
    exact Or.inl ⟨rfl, e.loop, .here he hs⟩
  | cons v vs ih =>
    obtain ⟨e, he, next, hn, hl⟩ := h
    cases hv : v.visible with
    | true =>
      refine Or.inr ⟨e.loop, e.target, v, next, vs, .here he ?_, hn, hv, hl, by simp, by simp [hv]⟩
      rintro ⟨w, ds, hw, hno⟩
      cases hn.symm.trans hw
      rw [hv] at hno
      cases hno
    | false =>
      rw [List.filter_cons_of_neg (by simp [hv])]
      rcases ih hl with ⟨hnil, l, hp⟩ | ⟨l, t, w, ds, rest, hp, hw, hwv, hrest, hlt, heq⟩
      · exact Or.inl ⟨hnil, _, .past he hn hv hp⟩
      · exact Or.inr ⟨_, t, w, ds, rest, .past he hn hv hp, hw, hwv, hrest,
          hlt.trans (Nat.lt_succ_self _), heq⟩

/-- What is seen along the ways through the graph is what the ways through the view pass. -/
theorem ViewOf.leads_iff (hr : r.ViewOf g) {s : VertexId} (hs : g.node? s = none) (hc : g.Covers es ds)
    {us : List Vertex} :
    r.Leads ds us s ↔ ∃ vs, g.Leads es vs s ∧ vs.filter Vertex.visible = us := by
  have hidden : ∀ {us : List Vertex}, (∀ u ∈ us, u.visible = false) → us.filter Vertex.visible = [] := by
    intro us hus
    exact List.filter_eq_nil_iff.2 fun u hu => by simp [hus u hu]
  constructor
  · intro h
    induction us generalizing es ds with
    | nil =>
      obtain ⟨d, hd, rfl⟩ := h
      obtain ⟨l, hp, -⟩ := hc.sound d hd
      obtain ⟨us, hus, hl⟩ := hp.leads [] ⟨⟨d.target, false⟩, List.mem_singleton_self _, rfl⟩
      rw [List.append_nil] at hl
      exact ⟨us, hl, hidden hus⟩
    | cons u us ih =>
      obtain ⟨d, hd, next, hn, hl⟩ := h
      obtain ⟨l, hp, -⟩ := hc.sound d hd
      obtain ⟨es', hn', hu, hc'⟩ := hr.only _ u next hn
      obtain ⟨vs, hvs, rfl⟩ := ih hc' hl
      obtain ⟨ws, hws, hl⟩ := hp.leads (u :: vs)
        ⟨⟨d.target, false⟩, List.mem_singleton_self _, es', hn', hvs⟩
      refine ⟨ws ++ u :: vs, hl, ?_⟩
      rw [List.filter_append, hidden hws, List.nil_append, List.filter_cons_of_pos hu]
  · rintro ⟨vs, h, rfl⟩
    have unseen : ¬g.Unseen s := by
      rintro ⟨v, es, hv, -⟩
      cases hs.symm.trans hv
    induction hn : vs.length using Nat.strong_induction_on generalizing vs es ds with
    | _ n ih =>
      rcases first_shown unseen h with ⟨hnil, l, hp⟩ | ⟨l, t, v, next, rest, hp, hv, hvis, hrest, hlt, heq⟩
      · obtain ⟨d, hd, ht⟩ := Edge.anyTo_iff.1 (hc.complete l s hp)
        rw [hnil]
        exact ⟨d, hd, ht⟩
      · obtain ⟨d, hd, ht⟩ := Edge.anyTo_iff.1 (hc.complete l t hp)
        obtain ⟨ds', hv', hc'⟩ := hr.shown t v next hv hvis
        rw [heq]
        exact ⟨d, hd, ds', ht ▸ hv', ih rest.length (hn ▸ hlt) hc' rest hrest rfl⟩

end Sequences

section Cycles

theorem Past.forward (h : g.Past l es t) (hl : l = false) (hn : g.node? id = some (v, es))
    (hreal : ∀ id, g.has id = true → 0 ≤ id) (ht : 0 ≤ t) : TransGen g.Forward id t := by
  induction h generalizing id v with
  | here he _ => exact .single ⟨v, _, hn, _, he, hl, rfl, ht⟩
  | past he hw _ _ ih =>
    obtain ⟨hloop, hrest⟩ := Bool.or_eq_false_iff.1 hl
    have first : g.Forward id _ := ⟨v, _, hn, _, he, hloop, rfl, hreal _ (has_iff.2 ⟨_, hw⟩)⟩
    exact .head first (ih hrest hw ht)

theorem ViewOf.acyclic (hr : r.ViewOf g) (hreal : ∀ id, g.has id = true → 0 ≤ id)
    (hc : ∀ id, ¬TransGen g.Forward id id) : ∀ id, ¬TransGen r.Forward id id := by
  have along : ∀ a b, r.Forward a b → TransGen g.Forward a b := by
    rintro a b ⟨v, ds, hn, d, hd, hloop, rfl, hb⟩
    obtain ⟨es, hn, -, hcov⟩ := hr.only a v ds hn
    obtain ⟨l, hp, hfree⟩ := hcov.sound d hd
    exact hp.forward (hfree hloop) hn hreal hb
  intro id h
  exact hc id (TransGen.closed along id id h)

end Cycles

end StoryFlow.Flow.Graph
