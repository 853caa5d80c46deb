import StoryFlow.Proofs.Flow.Sequence

/-! Replacements of vertices do not depend on their order. Where one vertex leads to another one that is
replaced too, the edges that are put in for it are redirected in their turn; the two orders differ only in
when that happens. An edge would be redirected for ever only if the vertices led to each other through
replacements that control passes straight through, and then a vertex has an edge to itself by the time it is
replaced, which is refused. -/

namespace StoryFlow.Flow

namespace Edge

variable {es ks ds ss ss' ts ts' : List Edge} {s t : VertexId}

/-- Two redirections, each of which takes what the other one puts in on to where it has to lead, may change
places. -/
theorem redirect_swap (hne : s ≠ t) (hs : redirect ss t ts' = ss') (ht : redirect ts s ss' = ts')
    (es : List Edge) : redirect (redirect es s ss) t ts' = redirect (redirect es t ts) s ss' := by
  induction es with
  | nil => rfl
  | cons e es ih =>
    rw [redirect_cons, redirect_cons, redirect_append, redirect_append, ih]
    congr 1
    by_cases hes : e.target = s
    · rw [if_pos hes, if_neg (hes ▸ hne), redirect_through, hs, redirect_cons, if_pos hes]
      exact (List.append_nil _).symm
    · by_cases het : e.target = t
      · rw [if_neg hes, if_pos het, redirect_through, ht, redirect_cons, if_pos het]
        exact List.append_nil _
      · rw [if_neg hes, if_neg het, redirect_cons, redirect_cons, if_neg hes, if_neg het]
        rfl

theorem anyTo_eq_false_iff : anyTo es t = false ↔ ∀ e ∈ es, e.target ≠ t := by
  rw [← Bool.not_eq_true, anyTo_iff]
  simp

theorem anyTo_redirect_of {u : VertexId} (hes : anyTo es s = true) (hds : anyTo ds u = true) :
    anyTo (redirect es s ds) u = true := by
  obtain ⟨e, he, hes⟩ := anyTo_iff.1 hes
  obtain ⟨d, hd, rfl⟩ := anyTo_iff.1 hds
  exact anyTo_iff.2 ⟨_, mem_redirect.2 (Or.inr ⟨e, he, hes, d, hd, rfl⟩), rfl⟩

theorem redirect_deep (h : anyTo (redirect es s (redirect ks sink ds)) t = false) :
    redirect es s (redirect ks sink (redirect ds t ts)) = redirect es s (redirect ks sink ds) := by
  by_cases hes : anyTo es s = true
  · by_cases hks : anyTo ks sink = true
    · have hds : anyTo ds t = false := by
        by_contra hds
        rw [anyTo_redirect_of hes (anyTo_redirect_of hks (Bool.not_eq_false _ ▸ hds))] at h
        cases h
      rw [redirect_of_not_anyTo hds]
    · rw [Bool.not_eq_true] at hks
      rw [redirect_of_not_anyTo hks, redirect_of_not_anyTo hks]
  · rw [Bool.not_eq_true] at hes
    rw [redirect_of_not_anyTo hes, redirect_of_not_anyTo hes]

end Edge

namespace Graph

variable {a b g h k r : Graph} {v w id : VertexId} {i j l m : Nat}

theorem Apart.node?_eq_none {x : Vertex × List Edge} (hab : a.Apart b) (hx : a.node? id = some x) :
    b.node? id = none :=
  node?_eq_none_iff.2 (hab id (has_iff.2 ⟨x, hx⟩))

theorem Targets.ne {es : List Edge} (hes : a.Targets VertexId.Outside es) (hid : 0 ≤ id)
    (hno : a.node? id = none) : ∀ e ∈ es, e.target ≠ id := by
  rintro e he rfl
  rcases hes e he with ⟨x, hx⟩ | ⟨hneg, -⟩
  · rw [hno] at hx
    cases hx
  · exact absurd hid (Int.not_le.2 hneg)

namespace Replaces

variable {x : Vertex} {es : List Edge} {c d : Graph}

theorem start_part (hr : Replaces i g v b r x es c d) : c.start = Edge.redirect b.start sink es := by
  rw [hr.part]
  rfl

theorem node?_eq (hr : Replaces i g v b r x es c d) (hb : b.WellFormed) (id : VertexId) :
    r.node? id = ((b.node? id).map fun y => (y.1, Edge.redirect y.2 sink es)).or
      (if id = v then none else (g.node? id).map fun y => (y.1, Edge.redirect y.2 v c.start)) := by
  rw [hr.nodes, hr.rest, node?_detour]
  congr 1
  rw [hr.part, node?_rewire hb]

theorem node?_part (hr : Replaces i g v b r x es c d) (hb : b.WellFormed) {y : Vertex} {fs : List Edge}
    (hy : b.node? id = some (y, fs)) : r.node? id = some (y, Edge.redirect fs sink es) := by
  rw [hr.node?_eq hb, hy]
  rfl

theorem apart_left (hr : Replaces i g v b r x es c d) (hb : b.WellFormed) (hgk : g.Apart k)
    (hbk : b.Apart k) : r.Apart k := by
  intro id hid
  rcases (hr.has hb id).1 hid with ⟨hid, -⟩ | hid
  · exact hgk id hid
  · exact hbk id hid

theorem size_eq (hr : Replaces i g v b r x es c d) (hb : b.WellFormed) (hgb : g.Apart b) :
    r.size + 1 = g.size + b.size := by
  have hv : v ∈ g.ids := mem_ids.2 (has_iff.2 ⟨_, hr.node⟩)
  have distinct : (g.ids.erase v ++ b.ids).Nodup := by
    refine List.nodup_append.2 ⟨nodup_ids.erase v, nodup_ids, ?_⟩
    rintro id hid _ hid' rfl
    have hno := hgb id (mem_ids.1 (List.mem_of_mem_erase hid))
    rw [mem_ids.1 hid'] at hno
    cases hno
  have same : r.ids.Perm (g.ids.erase v ++ b.ids) := by
    refine (List.perm_ext_iff_of_nodup nodup_ids distinct).2 fun id => ?_
    rw [List.mem_append, nodup_ids.mem_erase_iff, mem_ids, mem_ids, mem_ids, hr.has hb, and_comm]
  have length := same.length_eq
  have positive := List.length_pos_of_mem hv
  rw [List.length_append, List.length_erase_of_mem hv, length_ids, length_ids, length_ids] at length
  rw [length_ids] at positive
  omega

theorem not_anyTo (hr : Replaces i g v b r x es c d) (hg : g.WellFormed) (hb : b.WellFormed)
    (hgb : g.Apart b) (hbc : b.Closed VertexId.Outside) : Edge.anyTo r.start v = false ∧
      ∀ id y fs, r.node? id = some (y, fs) → Edge.anyTo fs v = false := by
  have away := hgb.node?_eq_none hr.node
  have real := hg.real _ _ hr.node
  have inside : ∀ fs, b.Targets VertexId.Outside fs → Edge.anyTo (Edge.redirect fs sink es) v = false := by
    intro fs hfs
    apply Edge.anyTo_eq_false_iff.2
    intro e he
    rcases Edge.mem_redirect.1 he with ⟨he, -⟩ | ⟨_, -, -, f, hf, rfl⟩
    · exact hfs.ne real away e he
    · exact hr.target_ne f hf
  have outside : ∀ fs, Edge.anyTo (Edge.redirect fs v c.start) v = false := by
    intro fs
    rw [← Bool.not_eq_true, Edge.anyTo_redirect_self, hr.start_part, inside _ hbc.start]
    simp
  refine ⟨hr.start_eq ▸ outside _, fun id y fs hy => ?_⟩
  rw [hr.node?_eq hb, Option.or_eq_some_iff] at hy
  rcases hy with hy | ⟨-, hy⟩
  · obtain ⟨⟨z, ds⟩, hz, heq⟩ := Option.map_eq_some_iff.1 hy
    cases heq
    exact inside _ (hbc.edges _ _ _ hz)
  · split at hy
    · cases hy
    · obtain ⟨⟨z, ds⟩, -, heq⟩ := Option.map_eq_some_iff.1 hy
      cases heq
      exact outside _

end Replaces

theorem Apart.ne_of_node? {x y : Vertex × List Edge} (hab : a.Apart b) (hx : a.node? v = some x)
    (hy : b.node? id = some y) : id ≠ v := by
  rintro rfl
  rw [hab.node?_eq_none hx] at hy
  cases hy

section Twice

variable {gv hw gw left right : Graph}

theorem replace_alike_beside (hg : g.WellFormed) (hh : h.WellFormed) (hk : k.WellFormed)
    (hhc : h.Closed VertexId.Outside) (hkc : k.Closed VertexId.Outside) (hgh : g.Apart h) (hgk : g.Apart k)
    (hhk : h.Apart k) (hvw : v ≠ w) (h₁ : replace i g v h = .ok gv) (h₂ : replace j gv w k = .ok left)
    (h₃ : replace l g w k = .ok gw) (h₄ : replace m gw v h = .ok right) : left.Alike right := by
  obtain ⟨x, es, c, d, r₁⟩ := replace_ok h₁
  obtain ⟨y, fs, c', d', r₃⟩ := replace_ok h₃
  obtain ⟨_, _, c₂, d₂, r₂⟩ := replace_ok h₂
  obtain ⟨_, _, c₂', d₂', r₄⟩ := replace_ok h₄
  cases (r₁.node?_kept hh hgh r₃.node hvw.symm).symm.trans r₂.node
  cases (r₃.node?_kept hk hgk r₁.node hvw).symm.trans r₄.node
  have avoids : ∀ ds, h.Targets VertexId.Outside ds → ∀ e ∈ ds, e.target ≠ w :=
    fun ds hds => hds.ne (hg.real _ _ r₃.node) (hgh.node?_eq_none r₃.node)
  have avoids' : ∀ ds, k.Targets VertexId.Outside ds → ∀ e ∈ ds, e.target ≠ v :=
    fun ds hds => hds.ne (hg.real _ _ r₁.node) (hgk.node?_eq_none r₁.node)
  have own : Edge.redirect es w c₂.start = Edge.redirect es w c'.start := by
    rw [r₂.start_part, r₃.start_part]
    exact Edge.redirect_deep (r₃.start_part ▸ r₄.noLoop)
  have own' : Edge.redirect fs v c₂'.start = Edge.redirect fs v c.start := by
    rw [r₄.start_part, r₁.start_part]
    exact Edge.redirect_deep (r₁.start_part ▸ r₂.noLoop)
  have within : ∀ ds, h.Targets VertexId.Outside ds → Edge.redirect (Edge.redirect ds sink es) w c₂.start =
      Edge.redirect ds sink (Edge.redirect es w c'.start) := by
    intro ds hds
    rw [Edge.redirect_redirect fun e he _ => avoids ds hds e he, own]
  have within' : ∀ ds, k.Targets VertexId.Outside ds → Edge.redirect (Edge.redirect ds sink fs) v c₂'.start =
      Edge.redirect ds sink (Edge.redirect fs v c.start) := by
    intro ds hds
    rw [Edge.redirect_redirect fun e he _ => avoids' ds hds e he, own']
  have around : ∀ ds, Edge.redirect (Edge.redirect ds v c.start) w c₂.start =
      Edge.redirect (Edge.redirect ds w c'.start) v c₂'.start := by
    apply Edge.redirect_swap hvw
    · rw [r₁.start_part, r₄.start_part]
      exact within _ hhc.start
    · rw [r₃.start_part, r₂.start_part]
      exact within' _ hkc.start
  refine alike_of_node? (r₂.wellFormed (r₁.wellFormed hg hh hgh) hk (r₁.apart_left hh hgk hhk))
    (r₄.wellFormed (r₃.wellFormed hg hk hgk) hh (r₃.apart_left hk hgh hhk.symm)) (fun id => ?_) ?_
  · rw [r₂.node?_eq hk, r₁.node?_eq hh, r₄.node?_eq hh, r₃.node?_eq hk]
    cases hkid : k.node? id with
    | some z =>
      have hidv := hgk.ne_of_node? r₁.node hkid
      simp [hhk.symm.node?_eq_none hkid, hidv, within' _ (hkc.edges id z.1 z.2 hkid)]
    | none =>
      cases hhid : h.node? id with
      | some z =>
        have hidw := hgh.ne_of_node? r₃.node hhid
        simp [hidw, within _ (hhc.edges id z.1 z.2 hhid)]
      | none =>
        by_cases hidv : id = v
        · simp [hidv]
        · by_cases hidw : id = w
          · simp [hidw]
          · cases g.node? id <;> simp [hidv, hidw, around]
  · rw [r₂.start_eq, r₁.start_eq, r₄.start_eq, r₃.start_eq, around]

theorem replace_alike_inside (hg : g.WellFormed) (hh : h.WellFormed) (hk : k.WellFormed)
    (hgc : g.Closed VertexId.Outside) (hgh : g.Apart h) (hgk : g.Apart k) (hhk : h.Apart k)
    (h₁ : replace i g v h = .ok gv) (h₂ : replace j gv w k = .ok left) (h₃ : replace l h w k = .ok hw)
    (h₄ : replace m g v hw = .ok right) : left.Alike right := by
  obtain ⟨x, es, c, d, r₁⟩ := replace_ok h₁
  obtain ⟨y, fs, c', d', r₃⟩ := replace_ok h₃
  obtain ⟨_, _, c₂, d₂, r₂⟩ := replace_ok h₂
  obtain ⟨_, _, c₂', d₂', r₄⟩ := replace_ok h₄
  cases (r₁.node?_part hh r₃.node).symm.trans r₂.node
  cases r₁.node.symm.trans r₄.node
  have avoids : ∀ ds, g.Targets VertexId.Outside ds → ∀ e ∈ ds, e.target ≠ w :=
    fun ds hds => hds.ne (hh.real _ _ r₃.node) (hgh.symm.node?_eq_none r₃.node)
  have twice : ∀ ds, Edge.redirect (Edge.redirect ds sink fs) sink es =
      Edge.redirect ds sink (Edge.redirect fs sink es) :=
    fun ds => Edge.redirect_redirect fun _ _ hne => hne
  have within : ∀ ds, Edge.redirect (Edge.redirect ds sink es) w c₂.start =
      Edge.redirect (Edge.redirect ds w c'.start) sink es := by
    apply Edge.redirect_swap (hh.ne_sink r₃.node).symm
    · exact Edge.redirect_of_not_anyTo (Edge.anyTo_eq_false_iff.2 (avoids es (hgc.edges _ _ _ r₁.node)))
    · rw [r₃.start_part, r₂.start_part, twice]
  have around : ∀ ds, g.Targets VertexId.Outside ds →
      Edge.redirect (Edge.redirect ds v c.start) w c₂.start = Edge.redirect ds v c₂'.start := by
    intro ds hds
    rw [Edge.redirect_redirect fun e he _ => avoids ds hds e he, r₁.start_part, within, r₄.start_part,
      r₃.start_eq]
  have hwh := r₃.wellFormed hh hk hhk
  have hgw := (r₃.apart_left hk hgh.symm hgk.symm).symm
  refine alike_of_node? (r₂.wellFormed (r₁.wellFormed hg hh hgh) hk (r₁.apart_left hh hgk hhk))
    (r₄.wellFormed hg hwh hgw) (fun id => ?_) ?_
  · rw [r₂.node?_eq hk, r₁.node?_eq hh, r₄.node?_eq hwh, r₃.node?_eq hk]
    cases hkid : k.node? id with
    | some z => simp [twice]
    | none =>
      by_cases hidw : id = w
      · simp [hidw, hgh.symm.node?_eq_none r₃.node]
      · cases hhid : h.node? id with
        | some z => simp [hidw, within]
        | none =>
          by_cases hidv : id = v
          · simp [hidv]
          · cases hgid : g.node? id with
            | none => simp [hidw]
            | some z => simp [hidv, hidw, around _ (hgc.edges id z.1 z.2 hgid)]
  · rw [r₂.start_eq, r₁.start_eq, r₄.start_eq, around _ hgc.start]

/-- Only an edge of the vertex to itself stands in the way of a replacement by a graph with other
vertices. -/
theorem replace_total_iff (hb : b.WellFormed) (hgb : g.Apart b) : (∃ r, replace i g v b = .ok r) ↔
    ∃ x es, g.node? v = some (x, es) ∧ Edge.anyTo es v = false := by
  constructor
  · rintro ⟨r, hr⟩
    obtain ⟨x, es, c, d, rep⟩ := replace_ok hr
    exact ⟨x, es, rep.node, rep.noLoop⟩
  · rintro ⟨x, es, hn, hes⟩
    exact replace_total hn (Edge.anyTo_eq_false_iff.1 hes) hgb hb

theorem replace_inside_total_iff (hh : h.WellFormed) (hk : k.WellFormed)
    (hgc : g.Closed VertexId.Outside) (hgh : g.Apart h) (hgk : g.Apart k) (hhk : h.Apart k)
    (hw : h.has w = true) :
    (∃ r, (replace i g v h).bind (replace j · w k) = .ok r) ↔
      ∃ r, (replace l h w k).bind (replace m g v) = .ok r := by
  obtain ⟨⟨y, fs⟩, hy⟩ := has_iff.1 hw
  have loop : ∀ x es, g.node? v = some (x, es) →
      (Edge.anyTo (Edge.redirect fs sink es) w = false ↔ Edge.anyTo fs w = false) := by
    intro x es hx
    have avoids := (hgc.edges _ _ _ hx).ne (hh.real _ _ hy) (hgh.symm.node?_eq_none hy)
    simp only [Edge.anyTo_eq_false_iff]
    constructor
    · exact fun hno e he ht => hno e (Edge.mem_redirect.2 (Or.inl ⟨he, ht ▸ hh.ne_sink hy⟩)) ht
    · intro hno e he
      rcases Edge.mem_redirect.1 he with ⟨he, -⟩ | ⟨_, -, -, f, hf, rfl⟩
      · exact hno e he
      · exact avoids f hf
  constructor
  · rintro ⟨left, hleft⟩
    obtain ⟨gv, h₁, h₂⟩ := ok_of_bind_ok hleft
    obtain ⟨x, es, c, d, r₁⟩ := replace_ok h₁
    obtain ⟨_, _, c₂, d₂, r₂⟩ := replace_ok h₂
    cases (r₁.node?_part hh hy).symm.trans r₂.node
    obtain ⟨part, h₃⟩ : ∃ r, replace l h w k = .ok r :=
      (replace_total_iff hk hhk).2 ⟨y, fs, hy, (loop x es r₁.node).1 r₂.noLoop⟩
    obtain ⟨_, _, c', d', r₃⟩ := replace_ok h₃
    obtain ⟨right, h₄⟩ : ∃ r, replace m g v part = .ok r :=
      (replace_total_iff (r₃.wellFormed hh hk hhk) (r₃.apart_left hk hgh.symm hgk.symm).symm).2
        ⟨x, es, r₁.node, r₁.noLoop⟩
    exact ⟨right, by rw [h₃]; exact h₄⟩
  · rintro ⟨right, hright⟩
    obtain ⟨part, h₃, h₄⟩ := ok_of_bind_ok hright
    obtain ⟨_, _, c', d', r₃⟩ := replace_ok h₃
    obtain ⟨x, es, c₂', d₂', r₄⟩ := replace_ok h₄
    cases hy.symm.trans r₃.node
    obtain ⟨gv, h₁⟩ : ∃ r, replace i g v h = .ok r :=
      (replace_total_iff hh hgh).2 ⟨x, es, r₄.node, r₄.noLoop⟩
    obtain ⟨_, _, c, d, r₁⟩ := replace_ok h₁
    cases r₁.node.symm.trans r₄.node
    obtain ⟨left, h₂⟩ : ∃ r, replace j gv w k = .ok r :=
      (replace_total_iff hk (r₁.apart_left hh hgk hhk)).2
        ⟨y, _, r₁.node?_part hh hy, (loop x es r₄.node).2 r₃.noLoop⟩
    exact ⟨left, by rw [h₁]; exact h₂⟩

end Twice

/-- Replacement is substitution. Of three valid graphs without common vertices, two can be put in the place
of two vertices of the third in either order. One that is to stand inside another can be put there before or
after that one is put in its place, and if one order fails, so does the other. A replaced vertex is gone. -/
theorem replace_interchange (hreal : ∀ x ∈ [g, h, k], ∀ id, x.has id = true → 0 ≤ id)
    (hv : ∀ x ∈ [g, h, k], x.invalidity? = none) (hd : [g, h, k].Pairwise Apart) (i j l m : Nat) :
    (∀ v w left right, v ≠ w →
      (replace i g v h).bind (replace j · w k) = .ok left →
      (replace l g w k).bind (replace m · v h) = .ok right → left.Alike right) ∧
    (∀ v w, h.has w = true →
      ((∃ r, (replace i g v h).bind (replace j · w k) = .ok r) ↔
        ∃ r, (replace l h w k).bind (replace m g v) = .ok r) ∧
      ∀ left right, (replace i g v h).bind (replace j · w k) = .ok left →
        (replace l h w k).bind (replace m g v) = .ok right → left.Alike right) ∧
    ∀ v r, replace i g v h = .ok r → r.size + 1 = g.size + h.size ∧ Edge.anyTo r.start v = false ∧
      ∀ id x es, r.node? id = some (x, es) → Edge.anyTo es v = false := by
  have wf : ∀ x ∈ [g, h, k], x.WellFormed :=
    fun x hx => wellFormed_of_problems (hreal x hx) (invalidity?_eq_none_iff.1 (hv x hx))
  have closed : ∀ x ∈ [g, h, k], x.Closed VertexId.Outside :=
    fun x hx => (wf x hx).invalidity?_eq_none_iff.1 (hv x hx)
  simp only [List.mem_cons, List.not_mem_nil, or_false, forall_eq_or_imp, forall_eq] at wf closed
  simp only [List.pairwise_cons, List.mem_cons, List.not_mem_nil, or_false, forall_eq_or_imp,
    forall_eq] at hd
  obtain ⟨hg, hh, hk⟩ := wf
  obtain ⟨hgc, hhc, hkc⟩ := closed
  obtain ⟨⟨hgh, hgk⟩, hhk, -⟩ := hd
  refine ⟨?_, ?_, ?_⟩
  · intro v w left right hvw hleft hright
    obtain ⟨gv, h₁, h₂⟩ := ok_of_bind_ok hleft
    obtain ⟨gw, h₃, h₄⟩ := ok_of_bind_ok hright
    exact replace_alike_beside hg hh hk hhc hkc hgh hgk hhk hvw h₁ h₂ h₃ h₄
  · intro v w hw
    refine ⟨replace_inside_total_iff hh hk hgc hgh hgk hhk hw, ?_⟩
    intro left right hleft hright
    obtain ⟨gv, h₁, h₂⟩ := ok_of_bind_ok hleft
    obtain ⟨part, h₃, h₄⟩ := ok_of_bind_ok hright
    exact replace_alike_inside hg hh hk hgc hgh hgk hhk h₁ h₂ h₃ h₄
  · intro v r hr
    obtain ⟨x, es, c, d, rep⟩ := replace_ok hr
    exact ⟨rep.size_eq hh hgh, rep.not_anyTo hg hh hgh hhc⟩

/-- Three vertices in a cycle, with two edges side by side on it. -/
def circuit : Graph where
  nodes := .ofList [
    (0, ⟨⟨0, none, true, []⟩, [⟨1, false⟩, ⟨sink, false⟩], ⟨0, false⟩⟩),
    (1, ⟨⟨1, none, true, []⟩, [⟨2, true⟩], ⟨0, false⟩⟩),
    (2, ⟨⟨2, none, true, []⟩, [⟨0, false⟩, ⟨1, false⟩, ⟨0, true⟩], ⟨0, false⟩⟩)]
  exits := .ofList [(0, ())]
  start := [⟨1, false⟩, ⟨0, false⟩]

/-- One vertex that control may also pass by, on a loop edge. -/
def optional (id : VertexId) : Graph :=
  ⟨.singleton id ⟨⟨id, none, true, []⟩, [Edge.toSink], ⟨0, false⟩⟩, .singleton id (),
    [⟨id, false⟩, ⟨sink, true⟩]⟩

/-- The vertices are neighbours on a cycle, and both replacements can be passed by. -/
theorem replace_interchange_circuit : ∃ left right left' right',
    (replace 1 circuit 0 (optional 3)).bind (replace 2 · 1 (optional 4)) = .ok left ∧
    (replace 3 circuit 1 (optional 4)).bind (replace 4 · 0 (optional 3)) = .ok right ∧
    left.Alike right ∧ left.edges? 2 = some [⟨3, false⟩, ⟨4, true⟩, ⟨2, true⟩, ⟨sink, true⟩, ⟨4, false⟩,
      ⟨2, true⟩, ⟨3, true⟩, ⟨4, true⟩, ⟨2, true⟩, ⟨sink, true⟩] ∧
    (replace 1 circuit 0 (optional 3)).bind (replace 2 · 3 (optional 4)) = .ok left' ∧
    (replace 3 (optional 3) 3 (optional 4)).bind (replace 4 circuit 0) = .ok right' ∧
    left'.Alike right' ∧ left'.size = 3 := by
  have valid : ∀ x ∈ [circuit, optional 3, optional 4], x.invalidity? = none := by
    simp only [invalidity?_eq_none_iff]
    decide +kernel
  have real : ∀ x ∈ [circuit, optional 3, optional 4], ∀ id, x.has id = true → 0 ≤ id := by
    have listed : ∀ x ∈ [circuit, optional 3, optional 4], ∀ id ∈ x.ids, 0 ≤ id := by decide +kernel
    exact fun x hx => forall_has (listed x hx)
  have apart : [circuit, optional 3, optional 4].Pairwise Apart := pairwise_apart (by decide +kernel)
  obtain ⟨beside, inside, -⟩ := replace_interchange real valid apart 1 2 3 4
  obtain ⟨-, inside⟩ := inside 0 3 (by decide)
  exact ⟨_, _, _, _, rfl, rfl, beside 0 1 _ _ (by decide) rfl rfl, rfl, rfl, rfl, inside _ _ rfl rfl, rfl⟩

end Graph

end StoryFlow.Flow
