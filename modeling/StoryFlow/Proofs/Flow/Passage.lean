import StoryFlow.Proofs.Flow.Words

/-! How far control comes in composed graphs: to whatever it comes to in one of the parts, after what it
read on the way to the part. -/

namespace StoryFlow.Flow.Graph

variable {a b g : Graph} {p : VertexId} {v : Vertex} {s t : Stmt} {u w : List Stmt} {operation : Nat}

theorem Passes.mono (h : a.Passes u s) (hi : g.Includes a)
    (hr : ∀ vs t, a.Reaches vs t → g.Reaches vs t) : g.Passes u s := by
  obtain ⟨id, x, es, hn, hs, vs, hl, hw⟩ := h
  exact ⟨id, x, es, hi _ _ hn, hs, vs, hr _ _ hl, hw⟩

theorem not_passes_of_isEmpty (h : a.isEmpty = true) : ¬a.Passes u s := by
  rintro ⟨id, x, es, hn, -⟩
  rw [node?_of_isEmpty h] at hn
  cases hn

theorem Leads.includes (hi : g.Includes a) {es : List Edge} {vs : List Vertex} {t : VertexId}
    (h : a.Leads es vs t) : g.Leads es vs t := by
  induction vs generalizing es with
  | nil => exact h
  | cons x vs ih =>
    obtain ⟨e, he, next, hn, hl⟩ := h
    exact ⟨e, he, next, hi _ _ hn, ih hl⟩

theorem Passes.append_left (hp : a.Passes u s) (h : append operation a b = .ok g)
    (ha : a.WellFormed) (hab : a.Apart b) : g.Passes u s := by
  rcases append_cases h with ⟨he, -⟩ | ⟨-, rfl⟩ | ⟨r, rfl, hst, hn, -⟩
  · exact absurd hp (not_passes_of_isEmpty he)
  · exact hp
  · have hi := includes_of_node?_or hn (hab.rewire ha).agree
    obtain ⟨id, x, es, hx, hs, vs, hl, hw⟩ := hp
    refine ⟨id, x, _, hi.node?_of_rewire ha hx, hs, vs, ?_, hw⟩
    rw [hst]
    exact leads_rewire_within ha hi (ha.ne_sink hx) hl

theorem Passes.append_right (hp : b.Passes u s) (h : append operation a b = .ok g)
    (ha : a.WellFormed) (hab : a.Apart b) (hw : w ∈ a.words) : g.Passes (w ++ u) s := by
  rcases append_cases h with ⟨he, rfl⟩ | ⟨he, -⟩ | ⟨r, rfl, hst, hn, -⟩
  · rw [words_of_isEmpty he, Language.mem_one] at hw
    subst hw
    exact hp
  · exact absurd hp (not_passes_of_isEmpty he)
  · have hia := includes_of_node?_or hn (hab.rewire ha).agree
    have hib := includes_right_of_node?_or hn
    obtain ⟨id, x, es, hx, hs, ys, hy, hu⟩ := hp
    obtain ⟨xs, hxs, hw⟩ := hw
    refine ⟨id, x, es, hib _ _ hx, hs, xs ++ ys, ?_, reads_append.2 ⟨w, u, rfl, hw, hu⟩⟩
    rw [hst]
    exact leads_rewire_append ha hia hxs (Leads.includes hib hy)

theorem Passes.loopTo (hp : a.Passes u s) (ha : a.WellFormed) (operation : Nat) (p : VertexId) :
    (a.loopTo operation p).Passes u s := by
  obtain ⟨id, x, es, hx, hs, vs, hl, hw⟩ := hp
  have hi : (a.loopTo operation p).Includes (a.loopTo operation p) := fun _ _ h => h
  exact ⟨id, x, _, hi.node?_of_rewire ha hx, hs, vs,
    leads_rewire_within ha hi (ha.ne_sink hx) hl, hw⟩

theorem Passes.fork {bs : List Graph} (hp : b.Passes u s) (hb : b ∈ bs) (h : fork bs = .ok g)
    (hw : ∀ b ∈ bs, b.Whole) (hbs : bs.Pairwise Apart) : g.Passes u s := by
  obtain ⟨-, -, hi, hr⟩ := fork_ok h (List.ne_nil_of_mem hb) hw hbs
  exact hp.mono (hi b hb) fun vs t hl => (hr vs t).2 ⟨b, hb, hl⟩

section Hub

theorem Hub.passes_attach {r : Graph} (hg : g.Hub p v) (hb : b.WellFormed)
    (hc : b.Closed fun id => id = sink ∨ id = p) (hab : (g.around p).Agree b)
    (h : Graph.attach operation g p b = .ok r)
    (hp : (g.around p).Passes u s ∨ b.Passes u s) : (r.around p).Passes u s := by
  obtain ⟨-, -, hn, hr⟩ := hg.attach hb hc hab h
  rcases hp with hp | hp
  · exact hp.mono (includes_of_node?_or hn hab) fun vs t hl => (hr vs t).2 (Or.inl hl)
  · exact hp.mono (includes_right_of_node?_or hn) fun vs t hl => (hr vs t).2 (Or.inr hl)

variable (h : g.Hub p v) (hv : v.stmt = some s)

include h hv

theorem Hub.passes_here : g.Passes [] s := by
  refine ⟨p, v, _, h.node, hv, [], ?_, reads_nil.2 rfl⟩
  rw [h.start]
  exact ⟨_, List.mem_singleton_self _, rfl⟩

theorem Hub.passes_around (hp : (g.around p).Passes u t) : g.Passes (s :: u) t := by
  obtain ⟨id, x, es, hx, hs, vs, hl, hu⟩ := hp
  rw [node?_around] at hx
  split at hx
  · cases hx
  refine ⟨id, x, es, hx, hs, v :: vs, ?_, reads_cons.2 ⟨s, u, rfl, hv, hu⟩⟩
  rw [h.start]
  exact ⟨_, List.mem_singleton_self _, _, h.node, (leads_around h.node).2 (Or.inl hl)⟩

theorem Hub.passes_again (hw : w ∈ (g.around p).wordsTo p) (hp : g.Passes u t) :
    g.Passes (s :: w ++ u) t := by
  obtain ⟨id, x, es, hx, hs, ys, hl, hu⟩ := hp
  obtain ⟨xs, hxs, hw⟩ := hw
  refine ⟨id, x, es, hx, hs, v :: (xs ++ ys), ?_, ?_⟩
  · rw [h.start] at hl ⊢
    refine ⟨_, List.mem_singleton_self _, _, h.node, (leads_around h.node).2 ?_⟩
    cases ys with
    | nil =>
      obtain ⟨e, he, rfl⟩ := hl
      rw [List.mem_singleton.1 he, List.append_nil]
      exact Or.inl hxs
    | cons y ys =>
      obtain ⟨e, he, next, hn, hl⟩ := hl
      rw [List.mem_singleton.1 he] at hn
      cases hn.symm.trans h.node
      exact Or.inr ⟨xs, ys, rfl, hxs, hl⟩
  · exact reads_cons.2 ⟨s, w ++ u, rfl, hv, reads_append.2 ⟨w, u, rfl, hw, hu⟩⟩

end Hub

end StoryFlow.Flow.Graph
