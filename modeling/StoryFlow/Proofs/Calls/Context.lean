import StoryFlow.Proofs.Calls.Form
import StoryFlow.Proofs.Calls.Provenance

/-! A scene in the context of the program. What the scene reads stays in place when its calls are unfolded,
and every way through the scene has an unfolding, because each scene that is called gets to its end. What
an unfolding adds comes from scenes that are called. -/

namespace StoryFlow

open StoryFlow.Flow
open StoryFlow.Flow.Graph
open Relation

variable {graphs : SceneGraphs} {name callee : String} {w u : List Stmt} {s t : Stmt} {g h : Graph}

section Unfolding

theorem Unfolds.keeps (h : Unfolds graphs w u) (hs : s ∈ w) (hc : s.callee? = none) : s ∈ u := by
  induction h with
  | nil => exact hs
  | keep _ _ ih =>
    rcases List.mem_cons.1 hs with rfl | hs
    · exact List.mem_cons_self
    · exact List.mem_cons_of_mem _ (ih hs)
  | call hcall _ _ _ _ _ ih =>
    rcases List.mem_cons.1 hs with rfl | hs
    · cases hc.symm.trans hcall
    · exact List.mem_append_right _ (ih hs)

/-- A sequence can be unfolded if every scene that it calls can be read through. -/
theorem exists_unfolds (hw : ∀ s ∈ w, ∀ callee, s.callee? = some callee →
    ∃ u, u ∈ expansions graphs callee) : ∃ u, Unfolds graphs w u := by
  induction w with
  | nil => exact ⟨[], .nil⟩
  | cons s w ih =>
    obtain ⟨hs, hw⟩ := List.forall_mem_cons.1 hw
    obtain ⟨u, hu⟩ := ih hw
    cases hc : s.callee? with
    | none => exact ⟨s :: u, .keep hc hu⟩
    | some callee =>
      obtain ⟨e, h, hg, x, hx, hxe⟩ := hs callee hc
      exact ⟨e ++ u, .call hc hg hx hxe hu⟩

/-- The ways in a scene, within the ways of a program. Each of them is, once its calls are unfolded, the last
part of a way of the program, and every way of the program has such a last part. -/
structure Embeds (graphs : SceneGraphs) (inner outer : Language Stmt) : Prop where
  within : ∀ w ∈ inner, ∃ before u, Unfolds graphs w u ∧ before ++ u ∈ outer
  covered : ∀ e ∈ outer, ∃ before u, ∃ w ∈ inner, Unfolds graphs w u ∧ e = before ++ u

def SceneGraphs.Calls (graphs : SceneGraphs) (a b : String) : Prop :=
  ∃ h, graphs.graph? a = some h ∧ h.Makes b ∧ (graphs.graph? b).isSome = true

def SceneGraphs.Contains (graphs : SceneGraphs) (name : String) (t : Stmt) : Prop :=
  ∃ h id v, graphs.graph? name = some h ∧ h.Holds id v ∧ v.stmt = some t

theorem holds_of_mem_wordsTo (hg : g.WellFormed) {id : VertexId} (hw : w ∈ g.wordsTo id) (hs : s ∈ w) :
    ∃ k v, g.Holds k v ∧ v.stmt = some s := by
  obtain ⟨vs, hl, hr⟩ := hw
  have hs : some s ∈ vs.map Vertex.stmt := by
    rw [hr]
    exact List.mem_map_of_mem hs
  obtain ⟨v, hv, hstmt⟩ := List.mem_map.1 hs
  obtain ⟨ds, hn⟩ := hl.node?_of_mem hg v hv
  exact ⟨v.id, v, ⟨ds, hn⟩, hstmt⟩

theorem Unfolds.origin (hwf : ∀ name g, graphs.graph? name = some g → g.WellFormed)
    (h : Unfolds graphs w u) (ht : t ∈ u) : t ∈ w ∨ ∃ s ∈ w, ∃ callee inner, s.callee? = some callee ∧
      (graphs.graph? callee).isSome = true ∧ ReflTransGen graphs.Calls callee inner ∧
      graphs.Contains inner t := by
  induction h with
  | nil => exact Or.inl ht
  | keep _ _ ih =>
    rcases List.mem_cons.1 ht with rfl | ht
    · exact Or.inl List.mem_cons_self
    · refine (ih ht).imp (List.mem_cons_of_mem _) ?_
      rintro ⟨s, hs, hrest⟩
      exact ⟨s, List.mem_cons_of_mem _ hs, hrest⟩
  | @call _ name h _ _ _ _ hcall hg hx _ _ ihx ihw =>
    have built : (graphs.graph? name).isSome = true := by
      rw [hg]
      rfl
    rcases List.mem_append.1 ht with ht | ht
    · refine Or.inr ⟨_, List.mem_cons_self, name, ?_⟩
      rcases ihx ht with hin | ⟨s, hs, callee, inner, hsc, hcallee, hreach, hinner⟩
      · obtain ⟨id, v, hv, hstmt⟩ := holds_of_mem_wordsTo (hwf name h hg) hx hin
        exact ⟨name, hcall, built, .refl, h, id, v, hg, hv, hstmt⟩
      · obtain ⟨id, v, ⟨es, hn⟩, hstmt⟩ := holds_of_mem_wordsTo (hwf name h hg) hx hs
        have makes : h.Makes callee := ⟨id, v, es, hn, by rw [Vertex.callee?, hstmt]; exact hsc⟩
        exact ⟨inner, hcall, built, .head ⟨h, hg, makes, hcallee⟩ hreach, hinner⟩
    · refine (ihw ht).imp (List.mem_cons_of_mem _) ?_
      rintro ⟨s, hs, hrest⟩
      exact ⟨s, List.mem_cons_of_mem _ hs, hrest⟩

end Unfolding

def Flow.Graph.Stated (g : Graph) : Prop := ∀ id v, g.Holds id v → ∃ s, v.stmt = some s

theorem Flow.Graph.Stated.reads (hs : g.Stated) {es : List Edge} {vs : List Vertex} {id : VertexId}
    (hl : g.Leads es vs id) : Reads vs (vs.filterMap Vertex.stmt) := by
  induction vs generalizing es with
  | nil => rfl
  | cons v vs ih =>
    obtain ⟨e, -, next, hn, hl⟩ := hl
    obtain ⟨s, hv⟩ := hs _ v ⟨next, hn⟩
    rw [List.filterMap_cons_some hv]
    exact reads_cons.2 ⟨s, _, rfl, hv, ih hl⟩

section Story

variable {table : SymbolTable} {story : Story} {supply : Supply} {scenes : SceneGraphs}
  {program : Program} {config : Config.StoryConfig} {path : String} {entry : Scene}

theorem SceneGraphs.stated (hb : story.build table supply = .ok scenes)
    (hg : scenes.graph? name = some h) : h.Stated := by
  obtain ⟨s, -, -, -, t, t', hd⟩ := SceneGraphs.drafted hb hg
  rintro id v ⟨es, hn⟩
  obtain ⟨stmt, hv, -⟩ := (Scene.draft_shaped hd).carries id v es hn
  exact ⟨stmt, hv⟩

theorem SceneGraphs.whole_of_build (hb : story.build table supply = .ok scenes)
    (hg : scenes.graph? name = some h) : h.Whole :=
  (separate_build hb).whole _ (mem_of_graph? hg) h rfl

theorem Copied.stated {copy : List CallPoint × VertexId → VertexId}
    (hc : Copied scenes name copy g) (hb : story.build table supply = .ok scenes) : g.Stated := by
  intro id v hv
  obtain ⟨place, scene, c, ho, rfl⟩ := hc.copies.onto id hv.has
  obtain ⟨k, hk, hk'⟩ := ho.held
  rw [hv.unique (hc.copies.into _ _ _ ho)]
  exact SceneGraphs.stated hb hk _ c hk'

theorem Story.calls_of_makes (hd : (story.scenes.map Scene.name).Nodup)
    (hb : story.build table supply = .ok scenes) (hc : scenes.Calls name callee) :
    story.Calls name callee := by
  obtain ⟨h, hg, hm, hcallee⟩ := hc
  obtain ⟨s, hs, rfl, -, t, t', hdraft⟩ := SceneGraphs.drafted hb hg
  obtain ⟨call, hcall, rfl⟩ := Scene.calls_of_makes hdraft hm
  obtain ⟨h', hg'⟩ := Option.isSome_iff_exists.1 hcallee
  obtain ⟨s', hs', hname, -⟩ := SceneGraphs.drafted hb hg'
  refine ⟨s, scene?_of_mem hd hs, ⟨call, hcall, rfl⟩, ?_⟩
  rw [← hname, scene?_of_mem hd hs']
  rfl

theorem Unfolds.called (hd : (story.scenes.map Scene.name).Nodup)
    (hb : story.build table supply = .ok scenes) (hg : scenes.graph? name = some h)
    (hu : Unfolds scenes w u) (hw : ∀ s ∈ w, ∃ id v, h.Holds id v ∧ v.stmt = some s) (ht : t ∈ u) :
    t ∈ w ∨ ∃ scene ∈ story.scenes, TransGen story.Calls name scene.name ∧
      (t = scene.opening ∨ .stmt t ∈ bodyNodes scene.body) := by
  refine (hu.origin (fun _ _ hk => (SceneGraphs.whole_of_build hb hk).wf) ht).imp_right ?_
  rintro ⟨s, hs, callee, inner, hcall, hcallee, hreach, h', id, v, hg', ⟨es, hn⟩, hstmt⟩
  obtain ⟨k, c, ⟨ds, hk⟩, hcstmt⟩ := hw s hs
  have first : scenes.Calls name callee :=
    ⟨h, hg, ⟨k, c, ds, hk, by rw [Vertex.callee?, hcstmt]; exact hcall⟩, hcallee⟩
  obtain ⟨scene, hscene, rfl, -, t₁, t₂, hdraft⟩ := SceneGraphs.drafted hb hg'
  obtain ⟨stmt, hv, hin⟩ := (Scene.draft_shaped hdraft).carries id v es hn
  cases hv.symm.trans hstmt
  refine ⟨scene, hscene, ?_, (List.mem_cons.1 hin).imp_left ?_⟩
  · exact TransGen.mono (fun _ _ => Story.calls_of_makes hd hb) _ _ (TransGen.head' first hreach)
  · exact fun heq => TreeNode.stmt.inj heq

theorem Program.exists_unfolds_of_reached (hbind : config.bind path = .ok (story, table))
    (hcases : ∀ area name cases, .stmt (.branchOn area name cases) ∈ story.nodes →
      table.declared? name = none → cases ≠ [])
    (hb : story.build table supply = .ok scenes)
    (ha : assemble story scenes scenes.supply = .ok program) (hg : program.graph = some g)
    (hentry : story.entryScene? = some entry)
    (hreached : ReflTransGen story.Calls entry.name name) (hh : scenes.graph? name = some h)
    (hw : ∀ s ∈ w, ∃ id v, h.Holds id v ∧ v.stmt = some s) : ∃ u, Unfolds scenes w u := by
  obtain ⟨entry', x, copies, hentry', last, stocked, traced, formed, -⟩ := traced_of_assemble hb ha hg
  cases hentry.symm.trans hentry'
  have branching := branching_of_bind hbind hcases
  have through : ∀ q ∈ x.graphs, ∃ u, u ∈ expansions scenes q.1 := by
    intro q hq
    obtain ⟨vs, hl⟩ := ((formed q hq).live branching).through.leads
    have stated := (traced.copied q hq).stated hb
    have words : vs.filterMap Vertex.stmt ∈ q.2.words := ⟨vs, hl, stated.reads hl⟩
    rw [(stocked.expanded q hq).words] at words
    exact ⟨_, words⟩
  refine exists_unfolds fun s hs callee hcall => ?_
  obtain ⟨id, v, ⟨es, hn⟩, hstmt⟩ := hw s hs
  have makes : h.Makes callee := ⟨id, v, es, hn, by rw [Vertex.callee?, hstmt]; exact hcall⟩
  obtain ⟨b, hb⟩ := traced.reached stocked hbind hb last hreached
  obtain ⟨b', hb'⟩ := traced.known _ (traced.called _ hb h callee hh makes)
  exact through _ hb'

/-- The ways to a vertex of a scene are within the ways to each of its copies. -/
theorem Program.embeds_of_reached (hbind : config.bind path = .ok (story, table))
    (hcases : ∀ area name cases, .stmt (.branchOn area name cases) ∈ story.nodes →
      table.declared? name = none → cases ≠ [])
    (hb : story.build table supply = .ok scenes)
    (ha : assemble story scenes scenes.supply = .ok program) (hg : program.graph = some g)
    (hentry : story.entryScene? = some entry)
    (hreached : ReflTransGen story.Calls entry.name name) (hh : scenes.graph? name = some h)
    {copy : List CallPoint × VertexId → VertexId} (hc : Copied scenes entry.name copy g)
    {place : List CallPoint × VertexId} {v : Vertex} (ho : Occurs scenes entry.name place name v) :
    Embeds scenes (h.wordsTo place.2) (g.wordsTo (copy place)) := by
  have reads := fun e => hc.reads place name v h e ho hh
  refine ⟨fun w hw => ?_, fun e he => ?_⟩
  · -- control comes to the copy, so something is read before it enters the scene
    have live := (formed_of_assemble hb ha hg).live (branching_of_bind hbind hcases)
    obtain ⟨vs, hl⟩ := (live.reached _ (hc.copies.into _ _ _ ho).has).leads
    obtain ⟨before, -, -, hprelude, -⟩ := (reads _).1 ⟨vs, hl, (hc.stated hb).reads hl⟩
    obtain ⟨u, hu⟩ := exists_unfolds_of_reached hbind hcases hb ha hg hentry hreached hh
      fun s hs => holds_of_mem_wordsTo (SceneGraphs.whole_of_build hb hh).wf hw hs
    exact ⟨before, u, hu, (reads _).2 ⟨before, w, u, hprelude, hw, hu, rfl⟩⟩
  · obtain ⟨before, w, u, -, hw, hu, heq⟩ := (reads e).1 he
    exact ⟨before, u, w, hw, hu, heq⟩

end Story

end StoryFlow
