import StoryFlow.Proofs.Flow.Words

/-! Copies of graphs. A copy has the shape and the statements of its original under other identities, so
the same is read along its paths. Changing every vertex in place is the copy under the same identities. -/

namespace StoryFlow.Flow

def Edge.rename (ρ : VertexId → VertexId) (e : Edge) : Edge := ⟨ρ e.target, e.loop⟩

namespace Graph

variable {c g r : Graph} {ρ : VertexId → VertexId} {operation first : Nat}
  {f : Vertex → Option Vertex}

structure CopyOf (c g : Graph) (ρ : VertexId → VertexId) : Prop where
  start : c.start = g.start.map (Edge.rename ρ)
  node : ∀ id v es, g.node? id = some (v, es) → ∃ w,
    c.node? (ρ id) = some (w, es.map (Edge.rename ρ)) ∧ w.id = ρ id ∧ w.stmt = v.stmt
  only : ∀ id, c.has id = true → ∃ k, g.has k = true ∧ ρ k = id
  exits : ∀ id, c.exits.contains id = true ↔ ∃ k, g.exits.contains k = true ∧ ρ k = id
  injective : ∀ i j, g.has i = true → g.has j = true → ρ i = ρ j → i = j
  real : ∀ id, g.has id = true → 0 ≤ ρ id
  leave : ρ sink = sink

namespace CopyOf

theorem ne_sink (h : c.CopyOf g ρ) {id : VertexId} (hid : g.has id = true) : ρ id ≠ sink := by
  intro hs
  exact absurd (h.real id hid) (by rw [hs]; decide)

theorem target_injective (h : c.CopyOf g ρ) {i j : VertexId} (hi : g.has i = true ∨ i = sink)
    (hj : g.has j = true ∨ j = sink) (hij : ρ i = ρ j) : i = j := by
  rcases hi with hi | rfl
  · rcases hj with hj | rfl
    · exact h.injective i j hi hj hij
    · exact absurd (hij.trans h.leave) (h.ne_sink hi)
  · rcases hj with hj | rfl
    · exact absurd (hij.symm.trans h.leave) (h.ne_sink hj)
    · rfl

theorem node_back (h : c.CopyOf g ρ) {id : VertexId} {w : Vertex} {ds : List Edge}
    (hn : c.node? id = some (w, ds)) : ∃ k v es, ρ k = id ∧ g.node? k = some (v, es) ∧
      ds = es.map (Edge.rename ρ) ∧ w.id = id ∧ w.stmt = v.stmt := by
  obtain ⟨k, hk, rfl⟩ := h.only id (has_iff.2 ⟨_, hn⟩)
  obtain ⟨⟨v, es⟩, hv⟩ := has_iff.1 hk
  obtain ⟨w', hw, hid, hs⟩ := h.node k v es hv
  cases hw.symm.trans hn
  exact ⟨k, v, es, rfl, hv, rfl, hid, hs⟩

theorem anyTo_sink (h : c.CopyOf g ρ) (hg : g.Whole) {id : VertexId} {v : Vertex} {es : List Edge}
    (hn : g.node? id = some (v, es)) :
    Edge.anyTo (es.map (Edge.rename ρ)) sink = true ↔ Edge.anyTo es sink = true := by
  simp only [Edge.anyTo_iff]
  constructor
  · rintro ⟨d, hd, ht⟩
    obtain ⟨e, he, rfl⟩ := List.mem_map.1 hd
    have hin := (hg.closed.edges _ _ _ hn e he).imp_left has_iff.2
    exact ⟨e, he, h.target_injective hin (Or.inr rfl) (ht.trans h.leave.symm)⟩
  · rintro ⟨e, he, ht⟩
    exact ⟨_, List.mem_map_of_mem he, by rw [Edge.rename, ht, h.leave]⟩

theorem wellFormed (h : c.CopyOf g ρ) (hg : g.Whole) : c.WellFormed where
  own := by
    intro id w ds hn
    obtain ⟨k, v, es, -, -, -, hid, -⟩ := h.node_back hn
    exact hid
  real := by
    intro id x hn
    obtain ⟨k, hk, rfl⟩ := h.only id (has_iff.2 ⟨x, hn⟩)
    exact h.real k hk
  exits := by
    intro id
    rw [h.exits]
    constructor
    · rintro ⟨k, hk, rfl⟩
      obtain ⟨v, es, hn, hs⟩ := (hg.wf.exits k).1 hk
      obtain ⟨w, hw, -, -⟩ := h.node k v es hn
      exact ⟨w, _, hw, (h.anyTo_sink hg hn).2 hs⟩
    · rintro ⟨w, ds, hw, hs⟩
      obtain ⟨k, v, es, rfl, hn, rfl, -, -⟩ := h.node_back hw
      exact ⟨k, (hg.wf.exits k).2 ⟨v, es, hn, (h.anyTo_sink hg hn).1 hs⟩, rfl⟩

theorem targets (h : c.CopyOf g ρ) {es : List Edge} (he : g.Targets (· = sink) es) :
    c.Targets (· = sink) (es.map (Edge.rename ρ)) := by
  intro e hm
  obtain ⟨d, hd, rfl⟩ := List.mem_map.1 hm
  rcases he d hd with ⟨⟨v, ds⟩, hx⟩ | hx
  · obtain ⟨w, hw, -, -⟩ := h.node _ v ds hx
    exact Or.inl ⟨_, hw⟩
  · exact Or.inr (by rw [Edge.rename, hx, h.leave])

theorem whole (h : c.CopyOf g ρ) (hg : g.Whole) : c.Whole := by
  refine ⟨h.wellFormed hg, h.start ▸ h.targets hg.closed.start, ?_⟩
  intro id w ds hn
  obtain ⟨k, v, es, -, hv, rfl, -, -⟩ := h.node_back hn
  exact h.targets (hg.closed.edges k v es hv)

theorem leads_iff (h : c.CopyOf g ρ) (hg : g.Whole) {t : VertexId}
    (ht : g.has t = true ∨ t = sink) {es : List Edge} (he : g.Targets (· = sink) es)
    {w : List Stmt} : (∃ us, c.Leads (es.map (Edge.rename ρ)) us (ρ t) ∧ Reads us w) ↔
      ∃ vs, g.Leads es vs t ∧ Reads vs w := by
  constructor
  · rintro ⟨us, hl, hr⟩
    induction us generalizing es w with
    | nil =>
      obtain ⟨e, hm, het⟩ := hl
      obtain ⟨d, hd, rfl⟩ := List.mem_map.1 hm
      exact ⟨[], ⟨d, hd, h.target_injective ((he d hd).imp_left has_iff.2) ht het⟩, hr⟩
    | cons u us ih =>
      obtain ⟨e, hm, next, hn, hl⟩ := hl
      obtain ⟨d, hd, rfl⟩ := List.mem_map.1 hm
      obtain ⟨s, w, rfl, hs, hr⟩ := reads_cons.1 hr
      obtain ⟨k, v, ds, hk, hv, rfl, -, hstmt⟩ := h.node_back hn
      have hkd : k = d.target := h.target_injective (Or.inl (has_iff.2 ⟨_, hv⟩))
        ((he d hd).imp_left has_iff.2) hk
      subst hkd
      obtain ⟨vs, hvs, hrs⟩ := ih (hg.closed.edges _ _ _ hv) hl hr
      exact ⟨v :: vs, ⟨d, hd, ds, hv, hvs⟩, reads_cons.2 ⟨s, w, rfl, hstmt ▸ hs, hrs⟩⟩
  · rintro ⟨vs, hl, hr⟩
    induction vs generalizing es w with
    | nil =>
      obtain ⟨e, hm, rfl⟩ := hl
      exact ⟨[], ⟨_, List.mem_map_of_mem hm, rfl⟩, hr⟩
    | cons v vs ih =>
      obtain ⟨e, hm, next, hn, hl⟩ := hl
      obtain ⟨s, w, rfl, hs, hr⟩ := reads_cons.1 hr
      obtain ⟨u, hu, -, hstmt⟩ := h.node _ v next hn
      obtain ⟨us, hus, hrs⟩ := ih (hg.closed.edges _ _ _ hn) hl hr
      exact ⟨u :: us, ⟨_, List.mem_map_of_mem hm, _, hu, hus⟩,
        reads_cons.2 ⟨s, w, rfl, hstmt ▸ hs, hrs⟩⟩

theorem wordsTo_eq (h : c.CopyOf g ρ) (hg : g.Whole) {t : VertexId}
    (ht : g.has t = true ∨ t = sink) : c.wordsTo (ρ t) = g.wordsTo t := by
  ext w
  rw [mem_wordsTo, mem_wordsTo]
  unfold Reaches
  rw [h.start]
  exact h.leads_iff hg ht hg.closed.start

theorem words_eq (h : c.CopyOf g ρ) (hg : g.Whole) : c.words = g.words := by
  have hw := h.wordsTo_eq hg (Or.inr rfl)
  rwa [h.leave] at hw

theorem passes (h : c.CopyOf g ρ) (hg : g.Whole) {u : List Stmt} {s : Stmt}
    (hp : g.Passes u s) : c.Passes u s := by
  obtain ⟨id, v, es, hn, hs, hu⟩ := hp
  obtain ⟨w, hw, -, hstmt⟩ := h.node id v es hn
  refine ⟨ρ id, w, _, hw, hstmt ▸ hs, ?_⟩
  rwa [h.wordsTo_eq hg (Or.inl (has_iff.2 ⟨_, hn⟩))]

end CopyOf

/-- The graph with other vertices in the place of its own, under other identities. What is not a vertex
stays where it is. -/
structure Recast (c g : Graph) (ρ : VertexId → VertexId) (mark : Mark) (f : Vertex → Option Vertex) :
    Prop where
  start : c.start = g.start.map (Edge.rename ρ)
  entry : ∀ id e, g.nodes.get? id = some e → ∃ w, f e.vertex = some w ∧
    c.nodes.get? (ρ id) = some ⟨{ w with id := ρ id }, e.edges.map (Edge.rename ρ), mark⟩
  only : ∀ id, c.has id = true → ∃ k, g.has k = true ∧ ρ k = id
  exits : ∀ id, c.exits.contains id = true ↔ ∃ k, g.exits.contains k = true ∧ ρ k = id
  injective : ∀ i j, g.has i = true → g.has j = true → ρ i = ρ j → i = j
  real : ∀ id, g.has id = true → 0 ≤ ρ id
  stays : ∀ id, g.has id = false → ρ id = id

theorem Recast.copyOf {mark : Mark} (h : c.Recast g ρ mark f) (hg : g.WellFormed)
    (hf : ∀ v w, f v = some w → w.stmt = v.stmt) : c.CopyOf g ρ := by
  refine ⟨h.start, fun id v es hn => ?_, h.only, h.exits, h.injective, h.real,
    h.stays _ (node?_eq_none_iff.1 hg.sink_none)⟩
  obtain ⟨e, he, heq⟩ := Option.map_eq_some_iff.1 hn
  cases heq
  obtain ⟨w, hw, hget⟩ := h.entry id e he
  exact ⟨{ w with id := ρ id }, by rw [node?, hget]; rfl, rfl, hf _ w hw⟩

section InPlace

theorem mapEntries_ok {l : List (VertexId × Entry)} {made m : IdMap Entry}
    (h : mapEntries operation f l made = .ok m) (hl : l.Pairwise fun p q => p.1 ≠ q.1) :
    (∀ k, (∀ p ∈ l, p.1 ≠ k) → m.get? k = made.get? k) ∧
      ∀ p ∈ l, ∃ w, f p.2.vertex = some w ∧ w.id = p.1 ∧
        m.get? p.1 = some ⟨w, p.2.edges, ⟨operation, false⟩⟩ := by
  induction l generalizing made with
  | nil => cases h; simp
  | cons entry rest ih =>
    obtain ⟨id, e⟩ := entry
    obtain ⟨apart, tail⟩ := List.pairwise_cons.1 hl
    unfold mapEntries at h
    split at h <;> rename_i w hw
    · split at h <;> rename_i hid
      · obtain ⟨old, new⟩ := ih h tail
        refine ⟨fun k hk => ?_, List.forall_mem_cons.2 ⟨⟨w, hw, hid, ?_⟩, new⟩⟩
        · obtain ⟨hne, hrest⟩ := List.forall_mem_cons.1 hk
          rw [old k hrest, IdMap.get?_insert, if_neg (Ne.symm hne)]
        · rw [old id fun p hp => (apart p hp).symm, IdMap.get?_insert, if_pos rfl]
      · cases h
    · cases h

theorem map_recast (h : map operation f g = .ok r) (hg : g.WellFormed) :
    r.Recast g id ⟨operation, false⟩ f := by
  obtain ⟨m, hm, heq⟩ := ok_of_bind_ok h
  cases heq
  have hne : g.nodes.entries.Pairwise fun p q => p.1 ≠ q.1 :=
    g.nodes.sorted.imp fun h => Int.ne_of_lt h
  obtain ⟨old, new⟩ := mapEntries_ok hm hne
  have rename : ∀ es : List Edge, es.map (Edge.rename id) = es := fun es => List.map_id es
  refine ⟨(rename _).symm, ?_, ?_, by simp, fun i j _ _ hij => hij, ?_, fun _ _ => rfl⟩
  · intro id e he
    obtain ⟨w, hw, hid, hget⟩ := new (id, e) (IdMap.get?_eq_some_iff.1 he)
    refine ⟨w, hw, ?_⟩
    rw [rename]
    obtain ⟨i, stmt, visible, chain⟩ := w
    cases hid
    exact hget
  · intro id hid
    refine ⟨id, ?_, rfl⟩
    by_contra hno
    have habsent : ∀ p ∈ g.nodes.entries, p.1 ≠ id := by
      rintro ⟨k, e⟩ hp rfl
      exact hno (IdMap.contains_iff.2 ⟨e, IdMap.get?_eq_some_iff.2 hp⟩)
    obtain ⟨x, hx⟩ := has_iff.1 hid
    rw [node?, old id habsent] at hx
    cases hx
  · intro id hid
    obtain ⟨x, hx⟩ := has_iff.1 hid
    exact hg.real id x hx

theorem map_copyOf (h : map operation f g = .ok r) (hg : g.WellFormed)
    (hf : ∀ v w, f v = some w → w.stmt = v.stmt) : r.CopyOf g id :=
  (map_recast h hg).copyOf hg hf

end InPlace

section Relabel

theorem get?_freshNames {id n : VertexId} : (g.freshNames first).get? id = some n ↔
    ∃ i : Nat, g.ids[i]? = some id ∧ n = ((first + i : Nat) : Int) := by
  have keys : (g.ids.zipIdx.map fun p => (p.1, ((first + p.2 : Nat) : VertexId))).Pairwise
      fun p q => p.1 < q.1 := by
    rw [List.pairwise_map]
    have hids : (g.ids.zipIdx.map Prod.fst).Pairwise (· < ·) := by
      rw [List.zipIdx_map_fst]
      exact List.pairwise_map.2 g.nodes.sorted
    exact List.pairwise_map.1 hids
  rw [freshNames, IdMap.get?_ofList _ _ (keys.imp fun h => Int.ne_of_lt h),
    IdMap.lookup_eq_some_iff keys]
  simp only [List.mem_map, Prod.mk.injEq]
  constructor
  · rintro ⟨⟨k, i⟩, hm, rfl, rfl⟩
    exact ⟨i, List.mk_mem_zipIdx_iff_getElem?.1 hm, rfl⟩
  · rintro ⟨i, hi, rfl⟩
    exact ⟨(id, i), List.mk_mem_zipIdx_iff_getElem?.2 hi, rfl, rfl⟩

def freshName (g : Graph) (first : Nat) (id : VertexId) : VertexId :=
  ((g.freshNames first).get? id).getD id

theorem freshName_of_has (first : Nat) {id : VertexId} (h : g.has id = true) :
    ∃ i : Nat, g.ids[i]? = some id ∧ (g.freshNames first).get? id = some ((first + i : Nat) : Int) ∧
      g.freshName first id = ((first + i : Nat) : Int) := by
  have hm : id ∈ g.ids := IdMap.mem_keys.2 (IdMap.contains_iff.1 h)
  obtain ⟨i, hi⟩ := List.mem_iff_getElem?.1 hm
  have hget : (g.freshNames first).get? id = some ((first + i : Nat) : Int) :=
    get?_freshNames.2 ⟨i, hi, rfl⟩
  exact ⟨i, hi, hget, by rw [freshName, hget]; rfl⟩

theorem freshName_injective {i j : VertexId} (hi : g.has i = true) (hj : g.has j = true)
    (hij : g.freshName first i = g.freshName first j) : i = j := by
  obtain ⟨k, hk, -, hki⟩ := freshName_of_has first hi
  obtain ⟨l, hl, -, hlj⟩ := freshName_of_has first hj
  rw [hki, hlj, Int.natCast_inj] at hij
  obtain rfl : k = l := by omega
  exact Option.some.inj (hk.symm.trans hl)

theorem freshName_of_not_has {id : VertexId} (h : g.has id = false) :
    g.freshName first id = id := by
  have hget : (g.freshNames first).get? id = none := by
    cases hn : (g.freshNames first).get? id with
    | none => rfl
    | some n =>
      obtain ⟨i, hi, -⟩ := get?_freshNames.1 hn
      have hid : g.has id = true :=
        IdMap.contains_iff.2 (IdMap.mem_keys.1 (List.mem_of_getElem? hi))
      rw [h] at hid
      cases hid
  rw [freshName, hget]
  rfl

theorem renameEdge_ok (hg : g.WellFormed) {e e' : Edge}
    (h : renameEdge (g.freshNames first) e = .ok e') : e' = e.rename (g.freshName first) := by
  unfold renameEdge at h
  split at h <;> rename_i hr
  · split at h <;> rename_i hget
    · cases h
      rw [Edge.rename, freshName, hget]
      rfl
    · cases h
  · cases h
    have hno : g.has e.target = false := by
      rw [← node?_eq_none_iff]
      cases hn : g.node? e.target with
      | none => rfl
      | some x => exact absurd (hg.real _ _ hn) (by simpa [VertexId.isReal] using hr)
    rw [Edge.rename, freshName_of_not_has hno]

theorem renameEdges_ok (hg : g.WellFormed) {es ds : List Edge}
    (h : es.mapM (renameEdge (g.freshNames first)) = .ok ds) :
    ds = es.map (Edge.rename (g.freshName first)) := by
  induction es generalizing ds with
  | nil => cases h; rfl
  | cons e es ih =>
    rw [List.mapM_cons] at h
    obtain ⟨e', he, h₁⟩ := ok_of_bind_ok h
    obtain ⟨ds', hds, h₂⟩ := ok_of_bind_ok h₁
    cases h₂
    rw [renameEdge_ok hg he, ih hds, List.map_cons]

theorem relabelEntries_ok {names : IdMap VertexId} {l : List (VertexId × Entry)}
    {made m : IdMap Entry} (h : relabelEntries operation f names l made = .ok m)
    (hl : l.Pairwise fun p q => names.get? p.1 ≠ names.get? q.1) :
    (∀ k, (∀ p ∈ l, names.get? p.1 ≠ some k) → m.get? k = made.get? k) ∧
      ∀ p ∈ l, ∃ w new es, f p.2.vertex = some w ∧ names.get? p.1 = some new ∧
        p.2.edges.mapM (renameEdge names) = .ok es ∧
        m.get? new = some ⟨{ w with id := new }, es, ⟨operation, false⟩⟩ := by
  induction l generalizing made with
  | nil => cases h; simp
  | cons entry rest ih =>
    obtain ⟨id, e⟩ := entry
    obtain ⟨apart, tail⟩ := List.pairwise_cons.1 hl
    unfold relabelEntries at h
    split at h <;> rename_i hw hnew
    · obtain ⟨es, hes, h₁⟩ := ok_of_bind_ok h
      obtain ⟨old, new⟩ := ih h₁ tail
      refine ⟨fun k hk => ?_, List.forall_mem_cons.2 ⟨⟨_, _, es, hw, hnew, hes, ?_⟩, new⟩⟩
      · obtain ⟨hne, hrest⟩ := List.forall_mem_cons.1 hk
        rw [old k hrest, IdMap.get?_insert, if_neg]
        rintro rfl
        exact hne hnew
      · rw [old _ fun p hp hp' => apart p hp (hnew.trans hp'.symm), IdMap.get?_insert, if_pos rfl]
    · cases h

theorem mem_entries_iff_has {id : VertexId} :
    (∃ e, (id, e) ∈ g.nodes.entries) ↔ g.has id = true := by
  simp only [has, IdMap.contains_iff, IdMap.get?_eq_some_iff]

theorem freshNames_pairwise : g.nodes.entries.Pairwise fun p q =>
    (g.freshNames first).get? p.1 ≠ (g.freshNames first).get? q.1 := by
  refine g.nodes.sorted.imp_of_mem fun {p q} hp hq hlt heq => ?_
  have hp' := mem_entries_iff_has.1 ⟨p.2, hp⟩
  have hq' := mem_entries_iff_has.1 ⟨q.2, hq⟩
  obtain ⟨i, -, hi, hip⟩ := freshName_of_has first hp'
  obtain ⟨j, -, hj, hjq⟩ := freshName_of_has first hq'
  have hij : g.freshName first p.1 = g.freshName first q.1 := by
    rw [hip, hjq]
    exact Option.some.inj (hi.symm.trans (heq.trans hj))
  exact Int.ne_of_lt hlt (freshName_injective hp' hq' hij)

theorem relabel_recast (h : relabel operation first f g = .ok r) (hg : g.WellFormed) :
    r.Recast g (g.freshName first) ⟨operation, false⟩ f := by
  obtain ⟨m, hm, h₁⟩ := ok_of_bind_ok h
  obtain ⟨start, hstart, h₂⟩ := ok_of_bind_ok h₁
  cases h₂
  obtain ⟨old, new⟩ := relabelEntries_ok hm freshNames_pairwise
  refine ⟨renameEdges_ok hg hstart, ?_, ?_, ?_, fun i j => freshName_injective, ?_,
    fun _ => freshName_of_not_has⟩
  · intro id e he
    obtain ⟨w, k, ds, hw, hk, hds, hget⟩ := new (id, e) (IdMap.get?_eq_some_iff.1 he)
    have hname : g.freshName first id = k := by rw [freshName, hk]; rfl
    refine ⟨w, hw, ?_⟩
    rw [hname, ← renameEdges_ok hg hds]
    exact hget
  · intro id hid
    by_contra hno
    have habsent : ∀ p ∈ g.nodes.entries, (g.freshNames first).get? p.1 ≠ some id := by
      intro p hp hget
      exact hno ⟨p.1, mem_entries_iff_has.1 ⟨p.2, hp⟩, by rw [freshName, hget]; rfl⟩
    obtain ⟨x, hx⟩ := has_iff.1 hid
    rw [node?, old id habsent] at hx
    cases hx
  · intro id
    simp only [IdMap.contains_ofIds, List.mem_filterMap, List.mem_filter]
    constructor
    · rintro ⟨k, ⟨-, hk⟩, hget⟩
      exact ⟨k, hk, by rw [freshName, hget]; rfl⟩
    · rintro ⟨k, hk, rfl⟩
      obtain ⟨v, es, hn, -⟩ := (hg.exits k).1 hk
      have hid := has_iff.2 ⟨_, hn⟩
      obtain ⟨i, -, hget, hname⟩ := freshName_of_has first hid
      exact ⟨k, ⟨IdMap.mem_keys.2 (IdMap.contains_iff.1 hid), hk⟩, hname ▸ hget⟩
  · intro id hid
    obtain ⟨i, -, -, hname⟩ := freshName_of_has first hid
    exact hname ▸ Int.natCast_nonneg _

/-- A copy under fresh identities. -/
theorem relabel_copyOf (h : relabel operation first f g = .ok r) (hg : g.WellFormed)
    (hf : ∀ v w, f v = some w → w.stmt = v.stmt) : r.CopyOf g (g.freshName first) :=
  (relabel_recast h hg).copyOf hg hf

theorem CopyOf.takenIn (h : c.CopyOf g (g.freshName first)) :
    c.TakenIn first (first + g.size) := by
  intro id hid
  obtain ⟨k, hk, rfl⟩ := h.only id hid
  obtain ⟨i, hi, -, hname⟩ := freshName_of_has first hk
  have hlt : i < g.size := g.length_ids ▸ (List.getElem?_eq_some_iff.1 hi).1
  rw [hname]
  exact ⟨Int.ofNat_le.2 (Nat.le_add_right _ _), Int.ofNat_lt.2 (Nat.add_lt_add_left hlt first)⟩

end Relabel

end Graph

end StoryFlow.Flow
