import StoryFlow.Flow.Visible
import StoryFlow.Proofs.Flow.Copy
import StoryFlow.Proofs.Flow.Validity

/-! The representation of graphs. Graphs are made one after the other, each from some that are there
already, and share the entries that no operation touched. Whatever was called in whatever order, every
vertex is stored under its own identity and the exits are the vertices with an edge to the sink; and as
long as no caller adds edges of his own, valid graphs make valid graphs. -/

namespace StoryFlow

universe u v w

theorem foldlM_keeps {α : Type u} {β : Type v} {ε : Type w} {P : β → Prop} {f : β → α → Except ε β}
    {l : List α} (step : ∀ x ∈ l, ∀ b c, P b → f b x = .ok c → P c) {b c : β} (hb : P b)
    (h : l.foldlM f b = .ok c) : P c := by
  induction l generalizing b with
  | nil => cases h; exact hb
  | cons x l ih =>
    obtain ⟨d, hd, h⟩ := ok_of_bind_ok h
    exact ih (fun y hy => step y (List.mem_cons_of_mem _ hy)) (step x List.mem_cons_self b d hb hd) h

end StoryFlow

namespace StoryFlow.Flow

namespace Graph

variable {a b g r : Graph} {p t : VertexId} {operation first : Nat} {f : Vertex → Option Vertex}

section Recast

variable {c : Graph} {ρ : VertexId → VertexId} {mark : Mark}

namespace Recast

theorem node_back (h : c.Recast g ρ mark f) {id : VertexId} {w : Vertex} {ds : List Edge}
    (hn : c.node? id = some (w, ds)) : ∃ k v es, ρ k = id ∧ g.node? k = some (v, es) ∧
      ds = es.map (Edge.rename ρ) ∧ w.id = id := by
  obtain ⟨k, hk, rfl⟩ := h.only id (has_iff.2 ⟨_, hn⟩)
  obtain ⟨e, he⟩ := IdMap.contains_iff.1 hk
  obtain ⟨w', -, hget⟩ := h.entry k e he
  rw [node?, hget] at hn
  cases hn
  exact ⟨k, e.vertex, e.edges, rfl, by rw [node?, he]; rfl, rfl, rfl⟩

theorem rename_eq_sink (h : c.Recast g ρ mark f) (hg : g.WellFormed) : ρ t = sink ↔ t = sink := by
  by_cases ht : g.has t = true
  · constructor
    · intro hs
      exact absurd (h.real t ht) (by rw [hs]; decide)
    · intro hs
      rw [hs, node?_eq_none_iff.1 hg.sink_none] at ht
      cases ht
  · rw [h.stays t (Bool.not_eq_true _ ▸ ht)]

theorem anyTo_sink (h : c.Recast g ρ mark f) (hg : g.WellFormed) (es : List Edge) :
    Edge.anyTo (es.map (Edge.rename ρ)) sink = Edge.anyTo es sink := by
  rw [Bool.eq_iff_iff, Edge.anyTo_iff, Edge.anyTo_iff]
  simp only [List.mem_map, exists_exists_and_eq_and]
  exact exists_congr fun e => and_congr_right fun _ => h.rename_eq_sink hg

theorem wellFormed (h : c.Recast g ρ mark f) (hg : g.WellFormed) : c.WellFormed where
  own := by
    intro id w ds hn
    obtain ⟨k, v, es, -, -, -, hid⟩ := h.node_back hn
    exact hid
  real := by
    intro id x hn
    obtain ⟨k, hk, rfl⟩ := h.only id (has_iff.2 ⟨x, hn⟩)
    exact h.real k hk
  exits := by
    intro id
    rw [h.exits]
    constructor
    · rintro ⟨k, hk, rfl⟩
      obtain ⟨v, es, hn, hs⟩ := (hg.exits k).1 hk
      obtain ⟨e, he, heq⟩ := Option.map_eq_some_iff.1 hn
      cases heq
      obtain ⟨w, -, hget⟩ := h.entry k e he
      exact ⟨_, _, by rw [node?, hget]; rfl, (h.anyTo_sink hg _).trans hs⟩
    · rintro ⟨w, ds, hw, hs⟩
      obtain ⟨k, v, es, rfl, hn, rfl, -⟩ := h.node_back hw
      exact ⟨k, (hg.exits k).2 ⟨v, es, hn, (h.anyTo_sink hg _).symm.trans hs⟩, rfl⟩

theorem closed {out : VertexId → Prop} (h : c.Recast g ρ mark f) (hc : g.Closed out) :
    c.Closed out := by
  have go : ∀ es, g.Targets out es → c.Targets out (es.map (Edge.rename ρ)) := by
    intro es he e hm
    obtain ⟨d, hd, rfl⟩ := List.mem_map.1 hm
    by_cases ht : g.has d.target = true
    · obtain ⟨e, he⟩ := IdMap.contains_iff.1 ht
      obtain ⟨w, -, hget⟩ := h.entry _ e he
      exact Or.inl (has_iff.1 (IdMap.contains_iff.2 ⟨_, hget⟩))
    · rw [Bool.not_eq_true] at ht
      rcases he d hd with hx | hx
      · rw [has_iff.2 hx] at ht
        cases ht
      · right
        rw [Edge.rename, h.stays _ ht]
        exact hx
  refine ⟨h.start ▸ go _ hc.start, ?_⟩
  intro id w ds hn
  obtain ⟨k, v, es, -, hv, rfl, -⟩ := h.node_back hn
  exact go _ (hc.edges k v es hv)

end Recast

end Recast

section Visible

def Shown (g : Graph) (t : VertexId) : Prop :=
  (∃ v es, g.node? t = some (v, es) ∧ v.visible = true) ∨ t.Outside

def AllShown (g : Graph) (es : List Edge) : Prop := ∀ e ∈ es, g.Shown e.target

theorem allShown_nil (g : Graph) : g.AllShown [] := by
  intro e he
  cases he

theorem AllShown.orLoop {es : List Edge} {loop : Bool} (h : g.AllShown es) :
    g.AllShown (orLoop t loop es) := by
  induction es with
  | nil => exact h
  | cons e es ih =>
    obtain ⟨he, hes⟩ := List.forall_mem_cons.1 h
    unfold Flow.orLoop
    split
    · exact List.forall_mem_cons.2 ⟨he, hes⟩
    · exact List.forall_mem_cons.2 ⟨he, ih hes⟩

theorem AllShown.snoc {es : List Edge} {e : Edge} (h : g.AllShown es) (he : g.Shown e.target) :
    g.AllShown (es ++ [e]) := by
  intro d hd
  rcases List.mem_append.1 hd with hd | hd
  · exact h d hd
  · rw [List.mem_singleton.1 hd]
    exact he

theorem AllShown.joinEdge {es : List Edge} {e : Edge} (h : g.AllShown es) (he : g.Shown e.target) :
    g.AllShown (joinEdge es e) := by
  unfold Flow.joinEdge
  split
  · exact h.orLoop
  · exact h.snoc he

theorem shown_of_shows (hg : g.WellFormed) {e : Edge} {es : List Edge}
    (hc : g.Targets VertexId.Outside es) (he : e ∈ es) (h : g.shows e.target = .ok true) :
    g.Shown e.target := by
  unfold shows at h
  rcases hc e he with ⟨x, hx⟩ | ho
  · rw [if_pos (by simpa [VertexId.isReal] using hg.real _ x hx)] at h
    obtain ⟨entry, hget, h⟩ := ok_of_bind_ok h
    refine Or.inl ⟨entry.vertex, entry.edges, ?_, Except.ok.inj h⟩
    rw [node?, entry_eq_ok_iff.1 hget]
    rfl
  · exact Or.inr ho

def Remembers (g : Graph) (found : Found) : Prop := ∀ id es, found.get? id = some es → g.AllShown es

theorem Remembers.insert {found : Found} {id : VertexId} {es : List Edge} (h : g.Remembers found)
    (he : g.AllShown es) : g.Remembers (found.insert id es) := by
  intro k ds hk
  rw [IdMap.get?_insert] at hk
  split at hk
  · cases hk; exact he
  · exact h k ds hk

/-- The search behind an invisible vertex finds shown places only. -/
theorem behind_shown (hg : g.WellFormed) (hc : g.Closed VertexId.Outside) {depth : Nat}
    {active : List VertexId} {id : VertexId} {found found' : Found} {es : List Edge}
    (hf : g.Remembers found) (h : g.behind depth active id found = .ok (es, found')) :
    g.AllShown es ∧ g.Remembers found' := by
  induction depth generalizing active id found es found' with
  | zero =>
    cases h
    exact ⟨g.allShown_nil, hf⟩
  | succ depth ih =>
    unfold behind at h
    split at h <;> rename_i hget
    · cases h
      exact ⟨hf _ _ hget, hf⟩
    · split at h
      · cases h
        exact ⟨g.allShown_nil, hf⟩
      · obtain ⟨entry, he, h⟩ := ok_of_bind_ok h
        obtain ⟨⟨edges, after⟩, hfold, h⟩ := ok_of_bind_ok h
        cases h
        have htargets : g.Targets VertexId.Outside entry.edges :=
          hc.edges id _ _ (by rw [node?, entry_eq_ok_iff.1 he]; rfl)
        have inv := foldlM_keeps (P := fun s : List Edge × Found => g.AllShown s.1 ∧ g.Remembers s.2)
          (fun e hm s s' hs hstep => ?_) ⟨g.allShown_nil, hf⟩ hfold
        · exact ⟨inv.1, inv.2.insert inv.1⟩
        · obtain ⟨shown, hshown, hstep⟩ := ok_of_bind_ok hstep
          cases shown with
          | true =>
            cases hstep
            exact ⟨hs.1.joinEdge (shown_of_shows hg htargets hm hshown), hs.2⟩
          | false =>
            obtain ⟨⟨targets, found⟩, hbehind, hstep⟩ := ok_of_bind_ok hstep
            cases hstep
            obtain ⟨ht, hfound⟩ := ih hs.2 hbehind
            refine ⟨?_, hfound⟩
            exact List.foldlRecOn targets _ hs.1 fun edges hedges t htm => hedges.joinEdge (ht t htm)

theorem collapse_shown (hg : g.WellFormed) (hc : g.Closed VertexId.Outside) {es ds : List Edge}
    {found found' : Found} (hf : g.Remembers found) (he : g.Targets VertexId.Outside es)
    (h : g.collapse es found = .ok (ds, found')) : g.AllShown ds ∧ g.Remembers found' := by
  obtain ⟨⟨c, after⟩, hfold, h⟩ := ok_of_bind_ok h
  cases h
  refine foldlM_keeps (P := fun s : Collapsing × Found => g.AllShown s.1.edges ∧ g.Remembers s.2)
    (fun e hm s s' hs hstep => ?_) ⟨g.allShown_nil, hf⟩ hfold
  obtain ⟨shown, hshown, hstep⟩ := ok_of_bind_ok hstep
  cases shown with
  | true =>
    cases hstep
    refine ⟨?_, hs.2⟩
    unfold Collapsing.direct
    split
    · exact hs.1.orLoop
    · exact hs.1.snoc (shown_of_shows hg he hm hshown)
  | false =>
    obtain ⟨⟨targets, found⟩, hbehind, hstep⟩ := ok_of_bind_ok hstep
    cases hstep
    obtain ⟨ht, hfound⟩ := behind_shown hg hc hs.2 hbehind
    refine ⟨?_, hfound⟩
    exact List.foldlRecOn (motive := fun c : Collapsing => g.AllShown c.edges) targets _ hs.1
      fun c hedges t htm => hedges.joinEdge (ht t htm)

theorem collapseEntries_ok {l : List (VertexId × Entry)} {made nodes : IdMap Entry}
    {found found' : Found} (h : collapseEntries g operation l made found = .ok (nodes, found')) :
    (∀ id e, nodes.get? id = some e → made.get? id = some e ∨ ∃ d, (id, d) ∈ l ∧
      e.vertex = d.vertex ∧ e.mark = ⟨operation, false⟩) ∧
    ∀ id, made.contains id = true ∨ (∃ d, (id, d) ∈ l ∧ d.vertex.visible = true) →
      nodes.contains id = true := by
  induction l generalizing made found with
  | nil =>
    cases h
    exact ⟨fun id e he => Or.inl he, by simp⟩
  | cons entry rest ih =>
    obtain ⟨key, d⟩ := entry
    unfold collapseEntries at h
    split at h <;> rename_i hv
    · obtain ⟨⟨edges, found⟩, -, h⟩ := ok_of_bind_ok h
      obtain ⟨only, all⟩ := ih h
      refine ⟨fun id e he => ?_, fun id hid => all id ?_⟩
      · rcases only id e he with hold | ⟨d', hd, hnew⟩
        · rw [IdMap.get?_insert] at hold
          split at hold <;> rename_i hk
          · cases hold
            exact Or.inr ⟨d, by simp [hk], rfl, rfl⟩
          · exact Or.inl hold
        · exact Or.inr ⟨d', List.mem_cons_of_mem _ hd, hnew⟩
      · by_cases hk : id = key
        · exact Or.inl (by simp [IdMap.contains, hk])
        · rcases hid with hid | ⟨d', hd, hvis⟩
          · exact Or.inl (by simpa [IdMap.contains, hk] using hid)
          · exact Or.inr ⟨d', by simpa [hk] using hd, hvis⟩
    · obtain ⟨only, all⟩ := ih h
      refine ⟨fun id e he => ?_, fun id hid => all id ?_⟩
      · rcases only id e he with hold | ⟨d', hd, hnew⟩
        · exact Or.inl hold
        · exact Or.inr ⟨d', List.mem_cons_of_mem _ hd, hnew⟩
      · rcases hid with hid | ⟨d', hd, hvis⟩
        · exact Or.inl hid
        · rcases List.mem_cons.1 hd with heq | hd
          · cases heq
            exact absurd hvis hv
          · exact Or.inr ⟨d', hd, hvis⟩

theorem collapseEntries_shown (hg : g.WellFormed) (hc : g.Closed VertexId.Outside)
    {l : List (VertexId × Entry)} {made nodes : IdMap Entry} {found found' : Found}
    (h : collapseEntries g operation l made found = .ok (nodes, found')) (hl : l ⊆ g.nodes.entries)
    (hf : g.Remembers found) (hm : ∀ id e, made.get? id = some e → g.AllShown e.edges) :
    (∀ id e, nodes.get? id = some e → g.AllShown e.edges) ∧ g.Remembers found' := by
  induction l generalizing made found with
  | nil =>
    cases h
    exact ⟨hm, hf⟩
  | cons entry rest ih =>
    obtain ⟨key, d⟩ := entry
    obtain ⟨hd, hrest⟩ := List.cons_subset.1 hl
    unfold collapseEntries at h
    split at h
    · obtain ⟨⟨edges, after⟩, hcol, h⟩ := ok_of_bind_ok h
      obtain ⟨hedges, hafter⟩ :=
        collapse_shown hg hc hf (hc.edges _ _ _ (node?_of_mem_entries hd)) hcol
      refine ih h hrest hafter fun id e he => ?_
      rw [IdMap.get?_insert] at he
      split at he
      · cases he; exact hedges
      · exact hm id e he
    · exact ih h hrest hf hm

theorem removeInvisible_ok (h : removeInvisible operation g = .ok r) :
    ∃ found found', collapseEntries g operation g.nodes.entries ∅ ∅ = .ok (r.nodes, found) ∧
      g.collapse g.start found = .ok (r.start, found') ∧
      r.exits = (r.nodes.filter fun _ e => Edge.anyTo e.edges sink).map fun _ _ => () := by
  obtain ⟨⟨nodes, found⟩, hnodes, h⟩ := ok_of_bind_ok h
  obtain ⟨⟨start, found'⟩, hstart, h⟩ := ok_of_bind_ok h
  cases h
  exact ⟨found, found', hnodes, hstart, rfl⟩

theorem entry_of_removeInvisible (h : removeInvisible operation g = .ok r) {id : VertexId} {e : Entry}
    (he : r.nodes.get? id = some e) : e.mark = ⟨operation, false⟩ ∧
      ∃ d, g.nodes.get? id = some d ∧ e.vertex = d.vertex := by
  obtain ⟨found, -, hnodes, -, -⟩ := removeInvisible_ok h
  rcases (collapseEntries_ok hnodes).1 id e he with hnone | ⟨d, hd, hv, hmark⟩
  · cases hnone
  · exact ⟨hmark, d, IdMap.get?_eq_some_iff.2 hd, hv⟩

theorem WellFormed.removeInvisible (hg : g.WellFormed) (h : removeInvisible operation g = .ok r) :
    r.WellFormed := by
  have origin : ∀ id v es, r.node? id = some (v, es) → ∃ ds, g.node? id = some (v, ds) := by
    intro id v es hn
    obtain ⟨e, he, heq⟩ := Option.map_eq_some_iff.1 hn
    cases heq
    obtain ⟨-, d, hd, hv⟩ := entry_of_removeInvisible h he
    exact ⟨d.edges, by rw [node?, hd, Option.map_some, Entry.node, hv]⟩
  obtain ⟨-, -, -, -, hexits⟩ := removeInvisible_ok h
  refine ⟨fun id v es hn => ?_, fun id x hn => ?_, fun id => ?_⟩
  · obtain ⟨ds, hd⟩ := origin id v es hn
    exact hg.own id v ds hd
  · obtain ⟨ds, hd⟩ := origin id x.1 x.2 hn
    exact hg.real id _ hd
  · rw [hexits, IdMap.contains, IdMap.get?_map, IdMap.get?_filter, node?]
    cases r.nodes.get? id with
    | none => simp
    | some e => simp [Entry.node, Option.filter_some]

theorem Closed.removeInvisible (hg : g.WellFormed) (hc : g.Closed VertexId.Outside)
    (h : removeInvisible operation g = .ok r) : r.Closed VertexId.Outside := by
  obtain ⟨found, found', hnodes, hstart, -⟩ := removeInvisible_ok h
  obtain ⟨hedges, hfound⟩ := collapseEntries_shown hg hc hnodes (List.Subset.refl _)
    (fun id es hn => by cases hn) (fun id e hn => by cases hn)
  have shown : ∀ es, g.AllShown es → r.Targets VertexId.Outside es := by
    intro es hes e he
    rcases hes e he with ⟨v, ds, hn, hv⟩ | ho
    · obtain ⟨d, hd, heq⟩ := Option.map_eq_some_iff.1 hn
      cases heq
      refine Or.inl (has_iff.1 ((collapseEntries_ok hnodes).2 _ (Or.inr ⟨d, ?_, hv⟩)))
      exact IdMap.get?_eq_some_iff.1 hd
    · exact Or.inr ho
  refine ⟨shown _ (collapse_shown hg hc hfound hc.start hstart).1, fun id v es hn => ?_⟩
  obtain ⟨e, he, heq⟩ := Option.map_eq_some_iff.1 hn
  cases heq
  exact shown _ (hedges id e he)

end Visible

section Sharing

variable {pool : List Graph} {next : Nat}

def Drawn (pool : List Graph) (mark : Mark) (g : Graph) : Prop :=
  ∀ id e, g.nodes.get? id = some e → e.mark = mark ∨ ∃ h ∈ pool, h.nodes.get? id = some e

/-- The graphs of a pool agree on what they share: entries of one vertex with one mark are the same
entry. The marks are those of operations before the next one. -/
structure Coherent (pool : List Graph) (next : Nat) : Prop where
  wf : ∀ g ∈ pool, g.WellFormed
  marked : ∀ g ∈ pool, ∀ id e, g.nodes.get? id = some e → e.mark.operation < next
  shared : ∀ g ∈ pool, ∀ h ∈ pool, ∀ id d e, g.nodes.get? id = some d →
    h.nodes.get? id = some e → d.mark = e.mark → d = e

structure Made (pool : List Graph) (operation : Nat) (g : Graph) : Prop where
  wf : g.WellFormed
  drawn : ∀ id e, g.nodes.get? id = some e →
    e.mark.operation = operation ∨ ∃ h ∈ pool, h.nodes.get? id = some e

theorem coherent_nil (next : Nat) : Coherent [] next := by
  constructor <;> intro g hg <;> cases hg

theorem Coherent.add (h : Coherent pool next) (ho : next ≤ operation) (hg : Made pool operation g) :
    Coherent (g :: pool) (operation + 1) := by
  -- an entry of the new graph is new, and then no old one has its mark, or it is an old one
  have mixed : ∀ k ∈ pool, ∀ id d e, g.nodes.get? id = some d → k.nodes.get? id = some e →
      d.mark = e.mark → d = e := by
    intro k hk id d e hd he hmark
    rcases hg.drawn id d hd with hnew | ⟨k', hk', hold⟩
    · have hlt := h.marked k hk id e he
      rw [← hmark, hnew] at hlt
      omega
    · exact h.shared k' hk' k hk id d e hold he hmark
  refine ⟨List.forall_mem_cons.2 ⟨hg.wf, h.wf⟩, List.forall_mem_cons.2 ⟨?_, ?_⟩,
    List.forall_mem_cons.2 ⟨List.forall_mem_cons.2 ⟨?_, mixed⟩, fun k hk =>
      List.forall_mem_cons.2 ⟨?_, h.shared k hk⟩⟩⟩
  · intro id e he
    rcases hg.drawn id e he with hnew | ⟨k, hk, hold⟩
    · omega
    · have hlt := h.marked k hk id e hold
      omega
  · intro k hk id e he
    have hlt := h.marked k hk id e he
    omega
  · intro id d e hd he _
    exact Option.some.inj (hd.symm.trans he)
  · intro id d e hd he hmark
    exact (mixed k hk id e d he hd hmark.symm).symm

theorem drawn_of_mem {mark : Mark} (hg : g ∈ pool) : Drawn pool mark g := by
  intro id e he
  exact Or.inr ⟨g, hg, he⟩

theorem Drawn.rewire {mark : Mark} {repl : List Edge} (hg : g ∈ pool) :
    Drawn pool mark (rewire mark g repl) := by
  intro id e he
  rw [Graph.rewire, IdMap.get?_map, Option.map_eq_some_iff] at he
  obtain ⟨d, hd, rfl⟩ := he
  split
  · exact Or.inl rfl
  · exact Or.inr ⟨g, hg, hd⟩

theorem Drawn.detour {mark : Mark} {target : List Edge} (hg : g ∈ pool) :
    Drawn pool mark (detour mark g p target) := by
  intro id e he
  rw [Graph.detour, IdMap.get?_map, IdMap.get?_erase, Option.map_eq_some_iff] at he
  obtain ⟨d, hd, rfl⟩ := he
  split at hd
  · cases hd
  · unfold redirectEntry
    split
    · exact Or.inl rfl
    · exact Or.inr ⟨g, hg, hd⟩

theorem Coherent.agree (h : Coherent pool next) (ho : next ≤ operation)
    (ha : Drawn pool ⟨operation, false⟩ a) (hb : Drawn pool ⟨operation, true⟩ b)
    (hab : Compatible a.nodes b.nodes) : a.Agree b := by
  intro id x y hx hy
  obtain ⟨d, hd, rfl⟩ := Option.map_eq_some_iff.1 hx
  obtain ⟨e, he, rfl⟩ := Option.map_eq_some_iff.1 hy
  have hmark := hab id d e hd he
  have old : ∀ k ∈ pool, ∀ m, k.nodes.get? id = some m → m.mark.operation ≠ operation := by
    intro k hk m hm heq
    have hlt := h.marked k hk id m hm
    omega
  rcases ha id d hd with hnew | ⟨k, hk, hdk⟩
  · rcases hb id e he with hnew' | ⟨k, hk, hek⟩
    · rw [hnew, hnew'] at hmark
      cases hmark
    · rw [hnew] at hmark
      exact absurd (congrArg Mark.operation hmark.symm) (old k hk e hek)
  · rcases hb id e he with hnew | ⟨k', hk', hek⟩
    · rw [hnew] at hmark
      exact absurd (congrArg Mark.operation hmark) (old k hk d hdk)
    · rw [h.shared k hk k' hk' id d e hdk hek hmark]

theorem drawn_of_merge {nodes : IdMap Entry} (hm : mergeEntries a.nodes b.nodes = .ok nodes)
    (ha : Drawn pool ⟨operation, false⟩ a) (hb : Drawn pool ⟨operation, true⟩ b) {id : VertexId}
    {e : Entry} (he : nodes.get? id = some e) :
    e.mark.operation = operation ∨ ∃ h ∈ pool, h.nodes.get? id = some e := by
  rw [mergeEntries_eq hm, IdMap.get?_union, Option.or_eq_some_iff] at he
  rcases he with he | ⟨_, he⟩
  · exact (hb id e he).imp_left (congrArg Mark.operation)
  · exact (ha id e he).imp_left (congrArg Mark.operation)

theorem made_of_mem (h : Coherent pool next) (hg : g ∈ pool) : Made pool operation g :=
  ⟨h.wf g hg, fun _ _ he => Or.inr ⟨g, hg, he⟩⟩

theorem made_empty : Made pool operation empty :=
  ⟨whole_empty.wf, fun id e he => by cases he⟩

theorem made_single {v : Vertex} {es : List Edge} (h : single operation v es = .ok r) :
    Made pool operation r := by
  obtain ⟨-, -, hw⟩ := single_ok h
  refine ⟨hw, fun id e he => ?_⟩
  unfold single at h
  split at h
  · cases h
    rw [IdMap.get?_singleton] at he
    split at he
    · cases he; exact Or.inl rfl
    · cases he
  · cases h

theorem made_append (h : Coherent pool next) (ho : next ≤ operation) (ha : a ∈ pool) (hb : b ∈ pool)
    (hr : append operation a b = .ok r) : Made pool operation r := by
  rcases append_merged hr with rfl | rfl | hm
  · exact made_of_mem h ha
  · exact made_of_mem h hb
  · have drawn : Drawn pool ⟨operation, false⟩ (rewire ⟨operation, false⟩ a b.start) := .rewire ha
    refine ⟨?_, fun id e => drawn_of_merge hm drawn (drawn_of_mem hb)⟩
    have hab := h.agree ho drawn (drawn_of_mem hb) (mergeEntries_ok_iff.1 hm).1
    rcases append_cases hr with ⟨_, rfl⟩ | ⟨_, rfl⟩ | ⟨_, rfl, -, hn, he⟩
    · exact h.wf _ hb
    · exact h.wf _ ha
    · exact wellFormed_of_node?_or hn he (h.wf a ha).rewire (h.wf b hb) hab

/-- A choice makes no entries, so what it has collected stays drawn from the pool. -/
theorem made_forkOnto (h : Coherent pool next) (ho : next ≤ operation) {bs : List Graph}
    (hbs : ∀ b ∈ bs, b ∈ pool) (hg : g.WellFormed) (hd : Drawn pool ⟨operation, false⟩ g)
    (hr : forkOnto g bs = .ok r) :
    (r.WellFormed ∧ Drawn pool ⟨operation, false⟩ r) ∧ ∀ out, g.Closed out →
      (∀ b ∈ bs, b.Closed out) → r.Closed out := by
  induction bs generalizing g with
  | nil =>
    cases hr
    exact ⟨⟨hg, hd⟩, fun out hc _ => hc⟩
  | cons b bs ih =>
    obtain ⟨nodes, hm, hr⟩ := ok_of_bind_ok hr
    obtain ⟨hb, hbs⟩ := List.forall_mem_cons.1 hbs
    have hab := h.agree ho hd (drawn_of_mem hb) (mergeEntries_ok_iff.1 hm).1
    rw [mergeEntries_eq hm] at hr
    have hn := node?_union (a := g) (b := b) (g.exits.union b.exits) (b.start.foldl addStart g.start)
    have hw := wellFormed_of_node?_or hn (contains_union _ _) hg (h.wf b hb) hab
    have hunion : ∀ id e, (g.nodes.union b.nodes).get? id = some e →
        e.mark = ⟨operation, false⟩ ∨ ∃ k ∈ pool, k.nodes.get? id = some e := by
      intro id e he
      rw [IdMap.get?_union, Option.or_eq_some_iff] at he
      rcases he with he | ⟨_, he⟩
      · exact Or.inr ⟨b, hb, he⟩
      · exact hd id e he
    obtain ⟨hres, hclosed⟩ := ih hbs hw hunion hr
    refine ⟨hres, fun out hc hcs => ?_⟩
    obtain ⟨hcb, hcs⟩ := List.forall_mem_cons.1 hcs
    refine hclosed out (closed_of_node?_or hn hab hc hcb fun t ht => ?_) hcs
    exact exists_target_foldl_addStart.1 ht

theorem made_attach (h : Coherent pool next) (ho : next ≤ operation) (hg : g ∈ pool) (hb : b ∈ pool)
    (hr : attach operation g p b = .ok r) : Made pool operation r := by
  obtain ⟨nodes, e, hm, hnodes⟩ := attach_merged hr
  have hab : g.Agree b :=
    h.agree ho (drawn_of_mem hg) (drawn_of_mem hb) (mergeEntries_ok_iff.1 hm).1
  refine ⟨(h.wf g hg).attach (h.wf b hb) (fun id x y hx hy => ?_) hr, fun id d hd => ?_⟩
  · rw [node?_around] at hx
    split at hx
    · cases hx
    · exact hab id x y hx hy
  · rw [hnodes, IdMap.get?_insert] at hd
    split at hd
    · cases hd; exact Or.inl rfl
    · exact drawn_of_merge hm (drawn_of_mem hg) (drawn_of_mem hb) hd

theorem Closed.attach {out : VertexId → Prop} (hg : g.Closed out) (hb : b.Closed out)
    (hr : attach operation g p b = .ok r) : r.Closed out := by
  obtain ⟨v, es, hp, -, hstart, hn, -⟩ := attach_ok hr
  have has : ∀ id, g.has id = true ∨ b.has id = true → r.has id = true := by
    intro id hid
    simp only [has_iff, hn] at hid ⊢
    split
    · simp
    · cases hb : b.node? id with
      | none => simpa [hb] using hid
      | some x => simp
  have lift : ∀ k : Graph, (∀ id, k.has id = true → r.has id = true) → ∀ ds, k.Targets out ds →
      r.Targets out ds := by
    intro k hk ds hd e he
    exact (hd e he).imp_left fun hx => has_iff.1 (hk _ (has_iff.2 hx))
  have first := lift g fun id hid => has id (Or.inl hid)
  have second := lift b fun id hid => has id (Or.inr hid)
  refine ⟨hstart ▸ first _ hg.start, fun id w ds hx => ?_⟩
  rw [hn] at hx
  split at hx
  · cases hx
    intro e he
    rcases List.mem_append.1 he with he | he
    · exact first _ (hg.edges p v es hp) e he
    · exact second _ hb.start e he
  · rcases Option.or_eq_some_iff.1 hx with hx | ⟨_, hx⟩
    · exact second _ (hb.edges id w ds hx)
    · exact first _ (hg.edges id w ds hx)

theorem made_replace (h : Coherent pool next) (ho : next ≤ operation) (hg : g ∈ pool) (hb : b ∈ pool)
    (hr : replace operation g p b = .ok r) : Made pool operation r := by
  obtain ⟨v, es, c, d, rep⟩ := replace_ok hr
  have hd : Drawn pool ⟨operation, false⟩ d := rep.rest ▸ Drawn.detour hg
  have hc : Drawn pool ⟨operation, true⟩ c := rep.part ▸ Drawn.rewire hb
  have hdc := h.agree ho hd hc (mergeEntries_ok_iff.1 rep.merged).1
  exact ⟨rep.wellFormed_of_agree (h.wf g hg) (h.wf b hb) hdc,
    fun id e => drawn_of_merge rep.merged hd hc⟩

theorem made_loopTo (h : Coherent pool next) (hg : g ∈ pool) :
    Made pool operation (g.loopTo operation t) := by
  refine ⟨(h.wf g hg).loopTo, fun id e he => ?_⟩
  exact (Drawn.rewire hg id e he).imp_left (congrArg Mark.operation)

theorem made_of_recast {ρ : VertexId → VertexId} (hg : g.WellFormed)
    (hr : r.Recast g ρ ⟨operation, false⟩ f) : Made pool operation r := by
  refine ⟨hr.wellFormed hg, fun id e he => Or.inl ?_⟩
  obtain ⟨k, hk, rfl⟩ := hr.only id (IdMap.contains_iff.2 ⟨e, he⟩)
  obtain ⟨d, hd⟩ := IdMap.contains_iff.1 hk
  obtain ⟨w, -, hget⟩ := hr.entry k d hd
  rw [hget] at he
  cases he
  rfl

theorem made_removeInvisible (hg : g.WellFormed) (hr : removeInvisible operation g = .ok r) :
    Made pool operation r := by
  refine ⟨hg.removeInvisible hr, fun id e he => Or.inl ?_⟩
  rw [(entry_of_removeInvisible hr he).1]

end Sharing

section Sessions

inductive Call where
  | empty
  | single (v : Vertex) (edges : List Edge)
  | append (a b : Graph)
  | fork (branches : List Graph)
  | attach (g : Graph) (id : VertexId) (h : Graph)
  | replace (g : Graph) (id : VertexId) (h : Graph)
  | loopTo (h : Graph) (target : VertexId)
  | map (f : Vertex → Option Vertex) (g : Graph)
  | relabel (first : Nat) (f : Vertex → Option Vertex) (g : Graph)
  | removeInvisible (g : Graph)

namespace Call

def operands : Call → List Graph
  | .empty | .single _ _ => []
  | .append a b => [a, b]
  | .fork branches => branches
  | .attach g _ h | .replace g _ h => [g, h]
  | .loopTo g _ | .map _ g | .relabel _ _ g | .removeInvisible g => [g]

def wires : Call → Bool
  | .single _ _ | .loopTo _ _ => true
  | _ => false

def perform (operation : Nat) : Call → Except Fault Graph
  | .empty => .ok Graph.empty
  | .single v edges => Graph.single operation v edges
  | .append a b => Graph.append operation a b
  | .fork branches => Graph.fork branches
  | .attach g id h => Graph.attach operation g id h
  | .replace g id h => Graph.replace operation g id h
  | .loopTo h target => .ok (h.loopTo operation target)
  | .map f g => Graph.map operation f g
  | .relabel first f g => g.relabel operation first f
  | .removeInvisible g => Graph.removeInvisible operation g

end Call

/-- The graphs there are after some calls that did not fail, and the number of the next operation. Any
of them may be an operand of the next call, also several times. -/
inductive Session : List Graph → Nat → Prop
  | start : Session [] 0
  | call {pool : List Graph} {next operation : Nat} {c : Call} {g : Graph} : Session pool next →
      next ≤ operation → (∀ x ∈ c.operands, x ∈ pool) → c.perform operation = .ok g →
      Session (g :: pool) (operation + 1)

variable {pool : List Graph} {next : Nat} {c : Call}

theorem Call.made (h : Coherent pool next) (ho : next ≤ operation) (hc : ∀ x ∈ c.operands, x ∈ pool)
    (hr : c.perform operation = .ok r) : Made pool operation r := by
  cases c with
  | empty => cases hr; exact made_empty
  | single v edges => exact made_single hr
  | append a b => exact made_append h ho (hc a (by simp [operands])) (hc b (by simp [operands])) hr
  | fork bs =>
    cases bs with
    | nil => cases hr; exact made_empty
    | cons b bs =>
      obtain ⟨⟨hw, hd⟩, -⟩ :=
        made_forkOnto h ho hc (wellFormed_nil []) (fun id e he => by cases he) hr
      exact ⟨hw, fun id e he => (hd id e he).imp_left (congrArg Mark.operation)⟩
  | attach g id b => exact made_attach h ho (hc g (by simp [operands])) (hc b (by simp [operands])) hr
  | replace g id b => exact made_replace h ho (hc g (by simp [operands])) (hc b (by simp [operands])) hr
  | loopTo g target => cases hr; exact made_loopTo h (hc g (by simp [operands]))
  | map f g =>
    have hg := h.wf g (hc g (by simp [operands]))
    exact made_of_recast hg (map_recast hr hg)
  | relabel first f g =>
    have hg := h.wf g (hc g (by simp [operands]))
    exact made_of_recast hg (relabel_recast hr hg)
  | removeInvisible g => exact made_removeInvisible (h.wf g (hc g (by simp [operands]))) hr

theorem Call.closed (h : Coherent pool next) (hc : ∀ x ∈ c.operands, x ∈ pool)
    (hr : c.perform operation = .ok r) (hw : c.wires = false)
    (hv : ∀ x ∈ c.operands, x.Closed VertexId.Outside) : r.Closed VertexId.Outside := by
  cases c with
  | empty =>
    cases hr
    exact whole_empty.closed.mono fun _ hid => hid ▸ outside_sink
  | single v edges => cases hw
  | append a b =>
    exact .append hr (h.wf a (hc a (by simp [operands]))) (hv a (by simp [operands]))
      (hv b (by simp [operands]))
  | fork bs =>
    cases bs with
    | nil =>
      cases hr
      exact whole_empty.closed.mono fun _ hid => hid ▸ outside_sink
    | cons b bs =>
      obtain ⟨-, hclosed⟩ :=
        made_forkOnto h le_rfl hc (wellFormed_nil []) (fun id e he => by cases he) hr
      refine hclosed _ ⟨fun e he => ?_, fun id v es hn => ?_⟩ hv
      · cases he
      · cases hn
  | attach g id b => exact .attach (hv g (by simp [operands])) (hv b (by simp [operands])) hr
  | replace g id b =>
    obtain ⟨v, es, k, d, rep⟩ := replace_ok hr
    exact rep.closed (h.wf b (hc b (by simp [operands]))) (hv g (by simp [operands]))
      (hv b (by simp [operands]))
  | loopTo g target => cases hw
  | map f g =>
    exact (map_recast hr (h.wf g (hc g (by simp [operands])))).closed (hv g (by simp [operands]))
  | relabel first f g =>
    exact (relabel_recast hr (h.wf g (hc g (by simp [operands])))).closed (hv g (by simp [operands]))
  | removeInvisible g =>
    exact .removeInvisible (h.wf g (hc g (by simp [operands]))) (hv g (by simp [operands])) hr

theorem Session.coherent (h : Session pool next) : Coherent pool next := by
  induction h with
  | start => exact coherent_nil 0
  | call _ ho hc hr ih => exact ih.add ho (Call.made ih ho hc hr)

/-- Every graph that can be made is well formed, and a call of an operation that adds no edges of the
caller makes valid graphs into a valid graph. -/
theorem Session.wellFormed_and_keeps_valid (h : Session pool next) :
    (∀ g ∈ pool, g.WellFormed) ∧ ∀ (c : Call) (operation : Nat) (g : Graph), next ≤ operation →
      (∀ x ∈ c.operands, x ∈ pool) → c.perform operation = .ok g → c.wires = false →
      (∀ x ∈ c.operands, x.invalidity? = none) → g.invalidity? = none := by
  have hco := h.coherent
  refine ⟨hco.wf, fun c operation g ho hc hr hw hv => ?_⟩
  apply (Call.made hco ho hc hr).wf.invalidity?_eq_none_iff.2
  apply Call.closed hco hc hr hw
  intro x hx
  exact (hco.wf x (hc x hx)).invalidity?_eq_none_iff.1 (hv x hx)

/-- One vertex without a statement, and control that passes it and leaves. -/
def pass (operation : Nat) (id : VertexId) (visible : Bool) : Graph :=
  ⟨.singleton id ⟨⟨id, none, visible, []⟩, [Edge.toSink], ⟨operation, false⟩⟩, .singleton id (),
    [⟨id, false⟩]⟩

/-- A session that puts an invisible and a visible vertex in sequence, and the call that hides the
first of them. -/
theorem Session.wellFormed_and_keeps_valid_sequence :
    ∃ pool s g, Session pool 3 ∧ s ∈ pool ∧ (Call.removeInvisible s).perform 3 = .ok g ∧
      s.size = 2 ∧ g.size = 1 ∧ s.WellFormed ∧ g.invalidity? = none := by
  have first : Session [pass 0 0 false] 1 :=
    .call (c := .single ⟨0, none, false, []⟩ [Edge.toSink]) .start le_rfl (by simp [Call.operands]) rfl
  have second : Session [pass 1 1 true, pass 0 0 false] 2 :=
    .call (c := .single ⟨1, none, true, []⟩ [Edge.toSink]) first le_rfl (by simp [Call.operands]) rfl
  have third : ∃ s g, Session [s, pass 1 1 true, pass 0 0 false] 3 ∧
      (Call.removeInvisible s).perform 3 = .ok g ∧ s.size = 2 ∧ g.size = 1 ∧ s.invalidity? = none :=
    ⟨_, _, .call (c := .append (pass 0 0 false) (pass 1 1 true)) second le_rfl
      (by simp [Call.operands]) rfl, rfl, rfl, rfl, by decide⟩
  obtain ⟨s, g, hs, hg, hsize, hgsize, hvalid⟩ := third
  obtain ⟨wf, keeps⟩ := hs.wellFormed_and_keeps_valid
  refine ⟨_, s, g, hs, List.mem_cons_self, hg, hsize, hgsize, wf s List.mem_cons_self, ?_⟩
  exact keeps (.removeInvisible s) 3 g le_rfl (by simp [Call.operands]) hg rfl
    (by simpa [Call.operands] using hvalid)

end Sessions

end Graph

end StoryFlow.Flow
