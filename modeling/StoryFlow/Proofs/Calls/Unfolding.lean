import StoryFlow.Proofs.Flow.Copy
import StoryFlow.Proofs.Flow.Substitution
import StoryFlow.Scene.Graph

/-! Calls unfolded. A call stands for what its scene does, calls of that scene unfolded in turn, and two
calls of one scene may go different ways. A graph in which a call was replaced by a graph that does what
the scene does unfolds to the same sequences as before. -/

namespace StoryFlow

open StoryFlow.Flow
open StoryFlow.Flow.Graph

variable {graphs : SceneGraphs}

/-- The second sequence is the first one with every call replaced by an unfolded sequence of its
scene. -/
inductive Unfolds (graphs : SceneGraphs) : List Stmt → List Stmt → Prop
  | nil : Unfolds graphs [] []
  | keep {s : Stmt} {w u : List Stmt} : s.callee? = none → Unfolds graphs w u →
      Unfolds graphs (s :: w) (s :: u)
  | call {s : Stmt} {name : String} {h : Graph} {x e w u : List Stmt} :
      s.callee? = some name → graphs.graph? name = some h → x ∈ h.words → Unfolds graphs x e →
      Unfolds graphs w u → Unfolds graphs (s :: w) (e ++ u)

def unfolded (graphs : SceneGraphs) (g : Graph) : Language Stmt :=
  {u | ∃ w ∈ g.words, Unfolds graphs w u}

/-- The unfolded sequences of a scene. A scene without a graph has none. -/
def expansions (graphs : SceneGraphs) (name : String) : Language Stmt :=
  {u | ∃ h, graphs.graph? name = some h ∧ u ∈ unfolded graphs h}

/-- Control that entered a scene comes, after the unfolded sequence, to a statement of that scene or of
a scene that is called on the way. -/
inductive Arrives (graphs : SceneGraphs) : String → List Stmt → Stmt → Prop
  | here {name : String} {h : Graph} {w u : List Stmt} {s : Stmt} :
      graphs.graph? name = some h → h.Passes w s → s.callee? = none → Unfolds graphs w u →
      Arrives graphs name u s
  | inside {name callee : String} {h : Graph} {w u u' : List Stmt} {c s : Stmt} :
      graphs.graph? name = some h → h.Passes w c → c.callee? = some callee → Unfolds graphs w u →
      Arrives graphs callee u' s → Arrives graphs name (u ++ u') s

def ArrivesIn (graphs : SceneGraphs) (passes : List Stmt → Stmt → Prop) (u : List Stmt) (s : Stmt) :
    Prop :=
  (∃ w, passes w s ∧ s.callee? = none ∧ Unfolds graphs w u) ∨
    ∃ w c callee u₁ u₂, passes w c ∧ c.callee? = some callee ∧ Unfolds graphs w u₁ ∧
      Arrives graphs callee u₂ s ∧ u = u₁ ++ u₂

theorem arrives_iff {name : String} {h : Graph} (hg : graphs.graph? name = some h)
    {u : List Stmt} {s : Stmt} : Arrives graphs name u s ↔ ArrivesIn graphs h.Passes u s := by
  constructor
  · intro ha
    cases ha with
    | here hn hp hs hu =>
      cases hn.symm.trans hg
      exact Or.inl ⟨_, hp, hs, hu⟩
    | inside hn hp hc hu ha =>
      cases hn.symm.trans hg
      exact Or.inr ⟨_, _, _, _, _, hp, hc, hu, ha, rfl⟩
  · rintro (⟨w, hp, hs, hu⟩ | ⟨w, c, callee, u₁, u₂, hp, hc, hu, ha, rfl⟩)
    · exact .here hg hp hs hu
    · exact .inside hg hp hc hu ha

theorem ArrivesIn.mono {p q : List Stmt → Stmt → Prop} {u : List Stmt} {s : Stmt}
    (h : ArrivesIn graphs p u s) (hpq : ∀ w t, p w t → q w t) : ArrivesIn graphs q u s := by
  rcases h with ⟨w, hp, hs, hu⟩ | ⟨w, c, callee, u₁, u₂, hp, hrest⟩
  · exact Or.inl ⟨w, hpq w s hp, hs, hu⟩
  · exact Or.inr ⟨w, c, callee, u₁, u₂, hpq w c hp, hrest⟩

theorem unfolds_append {x y u : List Stmt} : Unfolds graphs (x ++ y) u ↔
    ∃ e e', u = e ++ e' ∧ Unfolds graphs x e ∧ Unfolds graphs y e' := by
  constructor
  · intro h
    induction x generalizing u with
    | nil => exact ⟨[], u, rfl, .nil, h⟩
    | cons s x ih =>
      cases h with
      | keep hs h =>
        obtain ⟨e, e', rfl, hx, hy⟩ := ih h
        exact ⟨s :: e, e', rfl, .keep hs hx, hy⟩
      | call hs hg hw he h =>
        obtain ⟨e, e', rfl, hx, hy⟩ := ih h
        exact ⟨_ ++ e, e', (List.append_assoc ..).symm, .call hs hg hw he hx, hy⟩
  · rintro ⟨e, e', rfl, hx, hy⟩
    induction hx with
    | nil => exact hy
    | keep hs _ ih => exact .keep hs ih
    | call hs hg hw he _ _ ih => exact List.append_assoc .. ▸ .call hs hg hw he ih

theorem unfolds_iff_of_no_call {w u : List Stmt} (hw : ∀ s ∈ w, s.callee? = none) :
    Unfolds graphs w u ↔ u = w := by
  constructor
  · intro h
    induction h with
    | nil => rfl
    | keep _ _ ih => rw [ih fun s hs => hw s (List.mem_cons_of_mem _ hs)]
    | call hs => cases (hw _ List.mem_cons_self).symm.trans hs
  · rintro rfl
    induction u with
    | nil => exact .nil
    | cons s u ih =>
      obtain ⟨hs, hu⟩ := List.forall_mem_cons.1 hw
      exact .keep hs (ih hu)

theorem expansions_eq {name : String} {h : Graph} (hg : graphs.graph? name = some h) :
    expansions graphs name = unfolded graphs h := by
  ext u
  constructor
  · rintro ⟨h', hh, hu⟩
    cases hh.symm.trans hg
    exact hu
  · exact fun hu => ⟨h, hg, hu⟩

theorem unfolded_of_isEmpty {h : Graph} (he : h.isEmpty = true) : unfolded graphs h = 1 := by
  ext u
  rw [Language.mem_one]
  constructor
  · rintro ⟨w, hw, hu⟩
    rw [words_of_isEmpty he, Language.mem_one] at hw
    exact (unfolds_iff_of_no_call (by simp)).1 (hw ▸ hu)
  · rintro rfl
    exact ⟨[], by rw [words_of_isEmpty he]; rfl, .nil⟩

def Final (g : Graph) : Prop := ∀ id v es, g.node? id = some (v, es) → v.callee? = none

theorem Final.no_call {g : Graph} (hf : Final g) {es : List Edge} {vs : List Vertex}
    {t : VertexId} (hl : g.Leads es vs t) {w : List Stmt} (hr : Reads vs w) :
    ∀ s ∈ w, s.callee? = none := by
  induction vs generalizing es w with
  | nil => rw [reads_nil.1 hr]; simp
  | cons v vs ih =>
    obtain ⟨e, -, next, hn, hl⟩ := hl
    obtain ⟨s, u, rfl, hs, hu⟩ := reads_cons.1 hr
    refine List.forall_mem_cons.2 ⟨?_, ih hl hu⟩
    have hv := hf _ _ _ hn
    rwa [Vertex.callee?, hs] at hv

theorem Final.unfolds_iff {g : Graph} (hf : Final g) {t : VertexId} {w u : List Stmt}
    (hw : w ∈ g.wordsTo t) : Unfolds graphs w u ↔ u = w := by
  obtain ⟨vs, hl, hr⟩ := hw
  exact unfolds_iff_of_no_call (hf.no_call hl hr)

theorem Final.unfolded_eq {g : Graph} (hf : Final g) : unfolded graphs g = g.words := by
  ext u
  constructor
  · rintro ⟨w, hw, hu⟩
    rwa [(hf.unfolds_iff hw).1 hu]
  · exact fun hu => ⟨u, hu, (hf.unfolds_iff hu).2 rfl⟩

structure Expanded (graphs : SceneGraphs) (name : String) (g : Graph) : Prop where
  built : ∃ h, graphs.graph? name = some h
  whole : g.Whole
  final : Final g
  words : g.words = expansions graphs name
  passes : ∀ u s, Arrives graphs name u s → g.Passes u s

theorem Expanded.copy {name : String} {g c : Graph} {ρ : VertexId → VertexId}
    (h : Expanded graphs name g) (hc : c.CopyOf g ρ) : Expanded graphs name c where
  built := h.built
  whole := hc.whole h.whole
  final := by
    intro id v es hn
    obtain ⟨k, w, ds, -, hw, -, -, hs⟩ := hc.node_back hn
    rw [Vertex.callee?, hs]
    exact h.final k w ds hw
  words := by rw [hc.words_eq h.whole, h.words]
  passes := fun u s ha => hc.passes h.whole (h.passes u s ha)

section Splice

variable {p : VertexId} {b : Graph} {callee : String} {vs us : List Vertex} {u w : List Stmt}

/-- A spliced path unfolds to what the path with the calls unfolds to. -/
theorem unfolds_of_spliced (hs : Spliced p b vs us) (hb : Expanded graphs callee b)
    (hp : ∀ v ∈ vs, v.id = p → ∃ s, v.stmt = some s ∧ s.callee? = some callee)
    (hr : Reads us w) (hu : Unfolds graphs w u) : ∃ x, Reads vs x ∧ Unfolds graphs x u := by
  induction hs generalizing w u with
  | nil =>
    rw [reads_nil] at hr
    exact ⟨[], reads_nil.2 rfl, hr ▸ hu⟩
  | keep _ _ ih =>
    obtain ⟨s, w, rfl, hv, hr⟩ := reads_cons.1 hr
    have hrest := fun v hm => hp v (List.mem_cons_of_mem _ hm)
    cases hu with
    | keep hs hu =>
      obtain ⟨x, hx, hu⟩ := ih hrest hr hu
      exact ⟨s :: x, reads_cons.2 ⟨s, x, rfl, hv, hx⟩, .keep hs hu⟩
    | call hs hg hw he hu =>
      obtain ⟨x, hx, hu⟩ := ih hrest hr hu
      exact ⟨s :: x, reads_cons.2 ⟨s, x, rfl, hv, hx⟩, .call hs hg hw he hu⟩
  | put hid hreach _ ih =>
    obtain ⟨w₁, w₂, rfl, hr₁, hr₂⟩ := reads_append.1 hr
    obtain ⟨e, e', rfl, hu₁, hu₂⟩ := unfolds_append.1 hu
    obtain ⟨s, hv, hs⟩ := hp _ List.mem_cons_self hid
    obtain ⟨x, hx, hu₂⟩ := ih (fun v hm => hp v (List.mem_cons_of_mem _ hm)) hr₂ hu₂
    have hw : w₁ ∈ b.words := ⟨_, hreach, hr₁⟩
    obtain rfl := (hb.final.unfolds_iff hw).1 hu₁
    rw [hb.words] at hw
    obtain ⟨h, hg, y, hy, hye⟩ := hw
    exact ⟨s :: x, reads_cons.2 ⟨s, x, rfl, hv, hx⟩, .call hs hg hy hye hu₂⟩

theorem spliced_of_unfolds (hb : Expanded graphs callee b)
    (hp : ∀ v ∈ vs, v.id = p → ∃ s, v.stmt = some s ∧ s.callee? = some callee)
    (hr : Reads vs w) (hu : Unfolds graphs w u) :
    ∃ us x, Spliced p b vs us ∧ Reads us x ∧ Unfolds graphs x u := by
  induction vs generalizing w u with
  | nil => exact ⟨[], w, .nil, hr, hu⟩
  | cons v vs ih =>
    obtain ⟨s, w, rfl, hv, hr⟩ := reads_cons.1 hr
    obtain ⟨hfirst, hrest⟩ := List.forall_mem_cons.1 hp
    by_cases hid : v.id = p
    · obtain ⟨s', hv', hs'⟩ := hfirst hid
      cases hv.symm.trans hv'
      cases hu with
      | keep hs => cases hs.symm.trans hs'
      | @call _ _ _ y e _ _ hs hg hy he hu =>
        cases hs.symm.trans hs'
        obtain ⟨us, x, hsp, hx, hux⟩ := ih hrest hr hu
        have hmem : e ∈ b.words := by
          rw [hb.words]
          exact ⟨_, hg, y, hy, he⟩
        obtain ⟨xs, hxs, hread⟩ := hmem
        refine ⟨xs ++ us, e ++ x, .put hid hxs hsp, reads_append.2 ⟨e, x, rfl, hread, hx⟩, ?_⟩
        exact unfolds_append.2 ⟨e, _, rfl, (hb.final.unfolds_iff ⟨xs, hxs, hread⟩).2 rfl, hux⟩
    · cases hu with
      | keep hs hu =>
        obtain ⟨us, x, hsp, hx, hux⟩ := ih hrest hr hu
        exact ⟨v :: us, s :: x, .keep hid hsp, reads_cons.2 ⟨s, x, rfl, hv, hx⟩, .keep hs hux⟩
      | call hs hg hy he hu =>
        obtain ⟨us, x, hsp, hx, hux⟩ := ih hrest hr hu
        exact ⟨v :: us, s :: x, .keep hid hsp, reads_cons.2 ⟨s, x, rfl, hv, hx⟩,
          .call hs hg hy he hux⟩

end Splice

/-- The graph does what the scene does once its calls are unfolded, and makes calls only at some of the
given vertices. -/
structure Expanding (graphs : SceneGraphs) (name : String) (ids : List VertexId) (g : Graph) :
    Prop where
  built : ∃ h, graphs.graph? name = some h
  whole : g.Whole
  calls : ∀ id v es, g.node? id = some (v, es) → v.callee? ≠ none → id ∈ ids
  words : unfolded graphs g = expansions graphs name
  arrives : ∀ u s, Arrives graphs name u s → ArrivesIn graphs g.Passes u s

namespace Expanding

variable {name : String} {ids : List VertexId} {g : Graph} {p : VertexId}

theorem start (hg : graphs.graph? name = some g) (hw : g.Whole) :
    Expanding graphs name g.ids g where
  built := ⟨g, hg⟩
  whole := hw
  calls := by
    intro id v es hn _
    obtain ⟨e, he, -⟩ := Option.map_eq_some_iff.1 hn
    exact IdMap.mem_keys.2 ⟨e, he⟩
  words := (expansions_eq hg).symm
  arrives := fun _ _ ha => (arrives_iff hg).1 ha

theorem finish (h : Expanding graphs name [] g) : Expanded graphs name g := by
  have final : Final g := by
    intro id v es hn
    by_contra hc
    cases h.calls id v es hn hc
  refine ⟨h.built, h.whole, final, by rw [← h.words, final.unfolded_eq], fun u s ha => ?_⟩
  rcases h.arrives u s ha with ⟨w, hp, -, hu⟩ | ⟨w, c, callee, u₁, u₂, hp, hc, -, -, -⟩
  · obtain ⟨id, v, es, hn, hs, hw⟩ := hp
    rw [(final.unfolds_iff hw).1 hu]
    exact ⟨id, v, es, hn, hs, hw⟩
  · obtain ⟨id, v, es, hn, hs, -⟩ := hp
    have hv := final id v es hn
    rw [Vertex.callee?, hs] at hv
    cases hv.symm.trans hc

theorem skip (h : Expanding graphs name (p :: ids) g)
    (hp : (g.vertex? p).bind Vertex.callee? = none) : Expanding graphs name ids g := by
  refine ⟨h.built, h.whole, fun id v es hn hc => ?_, h.words, h.arrives⟩
  rcases List.mem_cons.1 (h.calls id v es hn hc) with rfl | hid
  · obtain ⟨e, he, heq⟩ := Option.map_eq_some_iff.1 hn
    cases heq
    rw [Graph.vertex?, he] at hp
    exact absurd hp hc
  · exact hid

end Expanding

theorem Flow.Graph.Leads.node?_of_mem {g : Graph} (hg : g.WellFormed) {es : List Edge}
    {vs : List Vertex} {t : VertexId} (hl : g.Leads es vs t) :
    ∀ v ∈ vs, ∃ ds, g.node? v.id = some (v, ds) := by
  induction vs generalizing es with
  | nil => simp
  | cons v vs ih =>
    obtain ⟨e, -, next, hn, hl⟩ := hl
    refine List.forall_mem_cons.2 ⟨⟨next, ?_⟩, ih hl⟩
    rw [hg.own _ _ _ hn]
    exact hn

section Replace

variable {operation : Nat} {name callee : String} {ids : List VertexId} {g b r c d : Graph}
  {p : VertexId} {v : Vertex} {es : List Edge} {s : Stmt}

theorem call_of_leads (hg : g.WellFormed) (hn : g.node? p = some (v, es)) (hv : v.stmt = some s)
    (hs : s.callee? = some callee) {ds : List Edge} {vs : List Vertex} {t : VertexId}
    (hl : g.Leads ds vs t) :
    ∀ x ∈ vs, x.id = p → ∃ s, x.stmt = some s ∧ s.callee? = some callee := by
  rintro x hx rfl
  obtain ⟨ds', hx⟩ := hl.node?_of_mem hg x hx
  cases hx.symm.trans hn
  exact ⟨s, hv, hs⟩

theorem unfolded_replace (h : Replaces operation g p b r v es c d) (hg : g.Whole)
    (hb : Expanded graphs callee b) (hgb : g.Apart b) (hv : v.stmt = some s)
    (hs : s.callee? = some callee) : unfolded graphs r = unfolded graphs g := by
  ext u
  constructor
  · rintro ⟨w, ⟨us, hreach, hr⟩, hu⟩
    obtain ⟨vs, hl, hsp⟩ := (h.reaches_sink hg hb.whole hgb).1 hreach
    obtain ⟨x, hx, hu⟩ := unfolds_of_spliced hsp hb (call_of_leads hg.wf h.node hv hs hl) hr hu
    exact ⟨x, ⟨vs, hl, hx⟩, hu⟩
  · rintro ⟨w, ⟨vs, hl, hr⟩, hu⟩
    obtain ⟨us, x, hsp, hx, hu⟩ :=
      spliced_of_unfolds hb (call_of_leads hg.wf h.node hv hs hl) hr hu
    exact ⟨x, ⟨us, (h.reaches_sink hg hb.whole hgb).2 ⟨vs, hl, hsp⟩, hx⟩, hu⟩

theorem wordsTo_kept (h : Replaces operation g p b r v es c d) (hg : g.Whole)
    (hb : Expanded graphs callee b) (hgb : g.Apart b) (hv : v.stmt = some s)
    (hs : s.callee? = some callee) {w u : List Stmt} {id : VertexId} (hw : w ∈ g.wordsTo id)
    (hid : id ≠ p) (hu : Unfolds graphs w u) : ∃ y ∈ r.wordsTo id, Unfolds graphs y u := by
  obtain ⟨vs, hl, hr⟩ := hw
  obtain ⟨us, y, hsp, hy, hu⟩ := spliced_of_unfolds hb (call_of_leads hg.wf h.node hv hs hl) hr hu
  exact ⟨y, ⟨us, h.reaches_kept hg.wf hb.whole hgb hsp hl hid, hy⟩, hu⟩

theorem wordsTo_inside (h : Replaces operation g p b r v es c d) (hg : g.Whole)
    (hb : Expanded graphs callee b) (hgb : g.Apart b) (hv : v.stmt = some s)
    (hs : s.callee? = some callee) {w u x : List Stmt} {id : VertexId} (hw : w ∈ g.wordsTo p)
    (hu : Unfolds graphs w u) (hx : x ∈ b.wordsTo id) (hid : id ≠ sink) :
    ∃ y ∈ r.wordsTo id, Unfolds graphs y (u ++ x) := by
  obtain ⟨vs, hl, hr⟩ := hw
  obtain ⟨us, y, hsp, hy, hu⟩ := spliced_of_unfolds hb (call_of_leads hg.wf h.node hv hs hl) hr hu
  obtain ⟨xs, hxs, hread⟩ := hx
  refine ⟨y ++ x, ⟨us ++ xs, h.reaches_part hg.wf hb.whole hgb hsp hl hxs hid, ?_⟩, ?_⟩
  · exact reads_append.2 ⟨y, x, rfl, hy, hread⟩
  · exact unfolds_append.2 ⟨u, x, rfl, hu, (hb.final.unfolds_iff ⟨xs, hxs, hread⟩).2 rfl⟩

theorem wordsTo_of_kept (h : Replaces operation g p b r v es c d) (hg : g.Whole)
    (hb : Expanded graphs callee b) (hgb : g.Apart b) (hv : v.stmt = some s)
    (hs : s.callee? = some callee) {y u : List Stmt} {id : VertexId} (hid : b.has id = false)
    (hy : y ∈ r.wordsTo id) (hu : Unfolds graphs y u) : ∃ w ∈ g.wordsTo id, Unfolds graphs w u := by
  obtain ⟨us, hl, hr⟩ := hy
  rw [h.start_eq] at hl
  obtain ⟨vs, hvs, hsp⟩ := h.spliced_of_leads hg hb.whole hgb hid hg.closed.start hl
  obtain ⟨w, hw, hu⟩ := unfolds_of_spliced hsp hb (call_of_leads hg.wf h.node hv hs hvs) hr hu
  exact ⟨w, ⟨vs, hvs, hw⟩, hu⟩

/-- What is read on the way to a vertex of the graph that is put in was read on the way to the call, and
then in that graph. -/
theorem wordsTo_of_inside (h : Replaces operation g p b r v es c d) (hg : g.Whole)
    (hb : Expanded graphs callee b) (hgb : g.Apart b) (hv : v.stmt = some s)
    (hs : s.callee? = some callee) {y u : List Stmt} {id : VertexId} (hid : b.has id = true)
    (hy : y ∈ r.wordsTo id) (hu : Unfolds graphs y u) :
    ∃ w ∈ g.wordsTo p, ∃ x ∈ b.wordsTo id, ∃ e, Unfolds graphs w e ∧ u = e ++ x := by
  obtain ⟨us, hl, hr⟩ := hy
  rw [h.start_eq] at hl
  rcases h.leads_cases hg hb.whole hgb hg.closed.start hl with ⟨vs, hvs, -⟩ | ⟨-, vs, ys, xs, rfl, hvs, hsp, hx⟩
  · rcases hg.closed.target hvs with hin | rfl
    · rw [hgb id hin] at hid
      cases hid
    · rw [node?_eq_none_iff.1 hb.whole.wf.sink_none] at hid
      cases hid
  · obtain ⟨y₁, x, rfl, hr₁, hrx⟩ := reads_append.1 hr
    obtain ⟨e, e', rfl, hu₁, hux⟩ := unfolds_append.1 hu
    have hx : x ∈ b.wordsTo id := ⟨xs, hx, hrx⟩
    obtain rfl := (hb.final.unfolds_iff hx).1 hux
    obtain ⟨w, hw, hu₁⟩ := unfolds_of_spliced hsp hb (call_of_leads hg.wf h.node hv hs hvs) hr₁ hu₁
    exact ⟨w, ⟨vs, hvs, hw⟩, _, hx, e, hu₁, rfl⟩

theorem passes_kept (h : Replaces operation g p b r v es c d) (hg : g.Whole)
    (hb : Expanded graphs callee b) (hgb : g.Apart b) (hv : v.stmt = some s)
    (hs : s.callee? = some callee) {w u : List Stmt} {id : VertexId} {x : Vertex}
    {ds : List Edge} {t : Stmt} (hn : g.node? id = some (x, ds)) (hx : x.stmt = some t)
    (hw : w ∈ g.wordsTo id) (hid : id ≠ p) (hu : Unfolds graphs w u) :
    ∃ y, r.Passes y t ∧ Unfolds graphs y u := by
  obtain ⟨y, hy, hu⟩ := wordsTo_kept h hg hb hgb hv hs hw hid hu
  exact ⟨y, ⟨id, x, _, h.node?_kept hb.whole.wf hgb hn hid, hx, hy⟩, hu⟩

theorem passes_inside (h : Replaces operation g p b r v es c d) (hg : g.Whole)
    (hb : Expanded graphs callee b) (hgb : g.Apart b) (hv : v.stmt = some s)
    (hs : s.callee? = some callee) {w u u' : List Stmt} {t : Stmt}
    (hw : w ∈ g.wordsTo p) (hu : Unfolds graphs w u) (ha : Arrives graphs callee u' t) :
    ArrivesIn graphs r.Passes (u ++ u') t := by
  obtain ⟨id, x, ds, hn, hx, hread⟩ := hb.passes u' t ha
  obtain ⟨y, hy, hyu⟩ := wordsTo_inside h hg hb hgb hv hs hw hu hread (hb.whole.wf.ne_sink hn)
  have hnr : r.node? id = some (x, Edge.redirect ds sink es) := by
    apply h.includes_part
    rw [h.part, node?_rewire hb.whole.wf, hn]
    rfl
  have ht : t.callee? = none := by
    have hf := hb.final id x ds hn
    rwa [Vertex.callee?, hx] at hf
  exact Or.inl ⟨y, ⟨id, x, _, hnr, hx, hy⟩, ht, hyu⟩

theorem call_kept (h : Replaces operation g p b r v es c d) (hb : Expanded graphs callee b)
    {id : VertexId} {x : Vertex} {ds : List Edge} (hn : r.node? id = some (x, ds))
    (hc : x.callee? ≠ none) : id ≠ p ∧ ∃ es', g.node? id = some (x, es') := by
  rw [h.nodes, Option.or_eq_some_iff] at hn
  rcases hn with hn | ⟨-, hn⟩
  · rw [h.part, node?_rewire hb.whole.wf, Option.map_eq_some_iff] at hn
    obtain ⟨⟨y, es'⟩, hy, heq⟩ := hn
    cases heq
    exact absurd (hb.final id y es' hy) hc
  · rw [h.rest] at hn
    obtain ⟨hid, es', hx, -⟩ := node?_detour_eq_some.1 hn
    exact ⟨hid, es', hx⟩

theorem Expanding.replace (h : Expanding graphs name (p :: ids) g)
    (hr : Replaces operation g p b r v es c d) (hb : Expanded graphs callee b) (hgb : g.Apart b)
    (hv : v.stmt = some s) (hs : s.callee? = some callee) : Expanding graphs name ids r where
  built := h.built
  whole := hr.whole h.whole hb.whole hgb
  calls := by
    intro id x ds hn hc
    obtain ⟨hid, es', hx⟩ := call_kept hr hb hn hc
    exact (List.mem_cons.1 (h.calls id x es' hx hc)).resolve_left hid
  words := by rw [unfolded_replace hr h.whole hb hgb hv hs, h.words]
  arrives := by
    intro u t ha
    rcases h.arrives u t ha with ⟨w, hp, ht, hu⟩ | ⟨w, x, callee', u₁, u₂, hp, hx, hu, ha', rfl⟩
    · obtain ⟨id, y, ds, hn, hy, hw⟩ := hp
      have hid : id ≠ p := by
        rintro rfl
        cases hn.symm.trans hr.node
        cases hy.symm.trans hv
        cases ht.symm.trans hs
      obtain ⟨z, hz, hzu⟩ := passes_kept hr h.whole hb hgb hv hs hn hy hw hid hu
      exact Or.inl ⟨z, hz, ht, hzu⟩
    · obtain ⟨id, y, ds, hn, hy, hw⟩ := hp
      by_cases hid : id = p
      · subst hid
        cases hn.symm.trans hr.node
        cases hy.symm.trans hv
        cases hx.symm.trans hs
        exact passes_inside hr h.whole hb hgb hv hs hw hu ha'
      · obtain ⟨z, hz, hzu⟩ := passes_kept hr h.whole hb hgb hv hs hn hy hw hid hu
        exact Or.inr ⟨z, x, callee', u₁, u₂, hz, hx, hzu, ha', rfl⟩

end Replace

end StoryFlow
