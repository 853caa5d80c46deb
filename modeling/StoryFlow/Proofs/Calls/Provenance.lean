import Mathlib.Data.Set.Card
import StoryFlow.Proofs.Calls.Copies
import StoryFlow.Proofs.Calls.Withholding
import StoryFlow.Proofs.Config.Scenes

/-! How the expansion hands out identities. Every expanded graph consists of the copies for the paths of
calls from its scene. The identities of a scene always lie in one graph that no call has taken over yet,
and at the end only the graph of the entry scene is left. So the program graph has one vertex for every
path of calls to a scene and every vertex of that scene, and one of the paths keeps the identities. -/

namespace StoryFlow

open StoryFlow.Flow
open StoryFlow.Flow.Graph
open Relation

variable {graphs : SceneGraphs} {name scene callee : String} {ids : List VertexId} {p : VertexId}
  {copy : List CallPoint × VertexId → VertexId}
  {copies : String → List CallPoint × VertexId → VertexId}

/-- The copy of the scene for some path of calls keeps the identities of the scene. The path does not begin
with a call that is still to be expanded. -/
def Keeps (graphs : SceneGraphs) (ids : List VertexId) (copy : List CallPoint × VertexId → VertexId)
    (name scene : String) : Prop :=
  ∃ path, CallPath graphs name path scene ∧ (∀ point ∈ path.head?, point.vertex ∉ ids) ∧
    ∀ u v, Occurs graphs name (path, u) scene v → copy (path, u) = u

def pathsFrom (graphs : SceneGraphs) (name : String) : Set (List CallPoint × String) :=
  {r | CallPath graphs name r.1 r.2}

theorem finite_pathsFrom {h : Graph} (hg : graphs.graph? name = some h)
    (hf : ∀ id v callee, h.Holds id v → v.callee? = some callee → (pathsFrom graphs callee).Finite) :
    (pathsFrom graphs name).Finite := by
  have first : ∀ id ∈ h.ids, {r | ∃ v callee r', h.Holds id v ∧ v.callee? = some callee ∧
      r' ∈ pathsFrom graphs callee ∧ r = (⟨name, id⟩ :: r'.1, r'.2)}.Finite := by
    intro id hid
    obtain ⟨⟨v, es⟩, hn⟩ := has_iff.1 (mem_ids.1 hid)
    have hv : h.Holds id v := ⟨es, hn⟩
    cases hc : v.callee? with
    | none =>
      refine Set.finite_empty.subset ?_
      rintro r ⟨v', callee, r', hv', hc', -, -⟩
      cases hv.unique hv'
      cases hc.symm.trans hc'
    | some callee =>
      refine ((hf id v callee hv hc).image fun r => ((⟨name, id⟩ : CallPoint) :: r.1, r.2)).subset ?_
      rintro r ⟨v', callee', r', hv', hc', hr', rfl⟩
      cases hv.unique hv'
      cases hc.symm.trans hc'
      exact ⟨r', hr', rfl⟩
  refine ((Set.finite_singleton ([], name)).union ((List.finite_toSet h.ids).biUnion first)).subset ?_
  rintro ⟨path, scene⟩ hpath
  cases hpath with
  | here => exact Or.inl rfl
  | call hg' hv hc hpath =>
    cases hg.symm.trans hg'
    exact Or.inr (Set.mem_iUnion₂.2 ⟨_, mem_ids.2 hv.has, _, _, (_, scene), hv, hc, hpath, rfl⟩)

namespace Program

variable {x x' : Expansion} {g g' h : Graph} {live : List Graph} {names : List String}

theorem supplied_recast {caller : String} {b c : Graph} {s : Supply} (hw : b.Whole)
    (hc : (if x.used.contains callee then x.supply.relabel (fun v => some (v.nested caller)) b
      else x.supply.perform fun operation => b.map operation fun v => some (v.nested caller)) =
        .ok (c, s)) : ∃ ρ mark, c.Recast b ρ mark (fun v => some (v.nested caller)) ∧
          (callee ∉ x.used → ρ = id) := by
  split at hc <;> rename_i hused
  · exact ⟨_, _, relabel_recast (perform_ok hc).1 hw.wf, fun hno => absurd (by simpa using hused) hno⟩
  · exact ⟨_, _, map_recast (perform_ok hc).1 hw.wf, fun _ => rfl⟩

def Held (graphs : SceneGraphs) (x : Expansion)
    (copies : String → List CallPoint × VertexId → VertexId) (scene : String) : Prop :=
  ∃ q ∈ x.graphs, q.1 ∉ x.used ∧ Keeps graphs [] (copies q.1) q.1 scene

theorem expandCall_copying (hcall : expandCall name callee p g x = .ok (g', x'))
    (hx : Stocked graphs x (g :: live)) (hg : Expanding graphs name (p :: ids) g)
    (hp : (g.vertex? p).bind Vertex.callee? = some callee) (hd : (p :: ids).Nodup)
    (hh : graphs.graph? name = some h) (hcopies : ∀ q ∈ x.graphs, Copied graphs q.1 (copies q.1) q.2)
    (hc : Copying graphs name (p :: ids) copy g) :
    ∃ copy', Copying graphs name ids copy' g' ∧ x'.graphs = x.graphs ∧ x'.used = callee :: x.used ∧
      (∃ b, (callee, b) ∈ x.graphs) ∧ ∀ scene,
        Keeps graphs (p :: ids) copy name scene ∨ Held graphs x copies scene →
          Keeps graphs ids copy' name scene ∨ Held graphs x' copies scene := by
  obtain ⟨b, c, s₁, s₂, hb, hsupplied, hr, hgraphs, hused, -⟩ := expandCall_cases hcall
  have hm := mem_of_graph? hb
  have hbe := hx.expanded _ hm
  obtain ⟨ρ, mark, hrecast, hkept⟩ := supplied_recast hbe.whole hsupplied
  have supplied := supplied_ok hbe.whole hsupplied
  obtain ⟨σ, hcopy⟩ := supplied.copy
  have hce := hbe.copy hcopy
  have hgc := (supplied.apart hx hm).1 g List.mem_cons_self
  obtain ⟨v, es, c', d, hrep⟩ := replace_ok (perform_ok hr).1
  obtain ⟨w, ds, hn, hwcall⟩ := node?_of_vertex? hp
  cases hn.symm.trans hrep.node
  obtain ⟨st, hst, hstcall⟩ := Option.bind_eq_some_iff.1 hwcall
  refine ⟨_, hc.replace hd hrep hg.whole hgc hst hstcall hh (hcopies _ hm) hbe.whole hrecast hce,
    hgraphs, hused, ⟨b, hm⟩, ?_⟩
  rintro scene (⟨path, hpath, hhead, hkeeps⟩ | ⟨q, hq, hqu, path, hpath, -, hkeeps⟩)
  · refine Or.inl ⟨path, hpath, fun point hpoint hin => hhead point hpoint ?_, fun u v ho => ?_⟩
    · exact List.mem_cons_of_mem _ hin
    · cases path with
      | nil => exact hkeeps u v ho
      | cons point path =>
        have hne := List.ne_of_not_mem_cons (hhead point rfl)
        exact (if_neg hne).trans (hkeeps u v ho)
  · by_cases hqc : q.1 = callee
    · -- the identities come along with the graph that is put in
      rw [hqc] at hqu hpath hkeeps
      obtain ⟨w', hw', hw'call⟩ := hc.holds_call hh hrep.node hwcall
      refine Or.inl ⟨⟨name, p⟩ :: path, .call hh hw' hw'call hpath, ?_, fun u v ho => ?_⟩
      · rintro point hpoint
        cases hpoint
        exact (List.nodup_cons.1 hd).1
      · have inner : Occurs graphs callee (path, u) scene v := ⟨hpath, ho.held, ho.plain⟩
        have same : reroute p ρ (copies callee) copy (⟨name, p⟩ :: path, u) =
            ρ (copies callee (path, u)) := if_pos rfl
        rw [same, hkept hqu, hkeeps u v inner]
        rfl
    · refine Or.inr ⟨q, hgraphs ▸ hq, ?_, path, hpath, by simp, hkeeps⟩
      rw [hused, List.mem_cons, not_or]
      exact ⟨hqc, hqu⟩

theorem expandCalls_copying (hcalls : expandCalls name ids g x = .ok (g', x'))
    (hx : Stocked graphs x (g :: live)) (hg : Expanding graphs name ids g) (hd : ids.Nodup)
    (hh : graphs.graph? name = some h) (hcopies : ∀ q ∈ x.graphs, Copied graphs q.1 (copies q.1) q.2)
    (hc : Copying graphs name ids copy g) :
    ∃ copy', Copied graphs name copy' g' ∧ x'.graphs = x.graphs ∧
      (∀ n ∈ x'.used, n ∈ x.used ∨ ∃ b, (n, b) ∈ x.graphs) ∧ x.used ⊆ x'.used ∧
      (∀ id v callee, id ∈ ids → h.Holds id v → v.callee? = some callee → callee ∈ x'.used) ∧
      ∀ scene, Keeps graphs ids copy name scene ∨ Held graphs x copies scene →
        Keeps graphs [] copy' name scene ∨ Held graphs x' copies scene := by
  induction ids generalizing g x copy with
  | nil =>
    cases hcalls
    exact ⟨copy, hc.finish hg.finish.final, rfl, fun n hn => Or.inl hn, List.Subset.refl _, by simp,
      fun _ hk => hk⟩
  | cons p ids ih =>
    have own : ∀ v, h.Holds p v → (g.vertex? p).bind Vertex.callee? = v.callee? := by
      intro v hv
      obtain ⟨es, hn⟩ := hc.own hh hv (Or.inr List.mem_cons_self)
      obtain ⟨e, he, heq⟩ := Option.map_eq_some_iff.1 hn
      have hvertex : e.vertex = v.copied [] name p := congrArg Prod.fst heq
      rw [Graph.vertex?, he]
      exact (congrArg Vertex.callee? hvertex).trans rfl
    unfold expandCalls at hcalls
    split at hcalls
    · rename_i hp
      obtain ⟨copy', hcopied, hgraphs, hback, hsub, hall, hkept⟩ :=
        ih hcalls hx (hg.skip hp) (List.nodup_cons.1 hd).2 hcopies (hc.skip hp)
      refine ⟨copy', hcopied, hgraphs, hback, hsub, fun id v callee hid hv hvcall => ?_,
        fun scene hk => hkept scene (hk.imp_left ?_)⟩
      · rcases List.mem_cons.1 hid with rfl | hid
        · cases (hp.symm.trans (own v hv)).trans hvcall
        · exact hall id v callee hid hv hvcall
      · rintro ⟨path, hpath, hhead, hkeeps⟩
        exact ⟨path, hpath, fun k hk hin => hhead k hk (List.mem_cons_of_mem _ hin), hkeeps⟩
    · rename_i hp
      obtain ⟨⟨g₁, x₁⟩, hcall, h₁⟩ := ok_of_bind_ok hcalls
      obtain ⟨hg₁, hx₁⟩ := expandCall_ok hcall hx hg hp
      obtain ⟨copy₁, hc₁, hgraphs₁, hused₁, ⟨b, hb⟩, hkept₁⟩ :=
        expandCall_copying hcall hx hg hp hd hh hcopies hc
      obtain ⟨copy', hcopied, hgraphs, hback, hsub, hall, hkept⟩ :=
        ih h₁ hx₁ hg₁ (List.nodup_cons.1 hd).2 (hgraphs₁ ▸ hcopies) hc₁
      rw [hgraphs₁] at hgraphs hback
      rw [hused₁] at hback hsub
      refine ⟨copy', hcopied, hgraphs, fun n hn => ?_, fun n hn => hsub (List.mem_cons_of_mem _ hn),
        fun id v callee hid hv hvcall => ?_, fun scene hk => hkept scene (hkept₁ scene hk)⟩
      · rcases hback n hn with hn | hn
        · rcases List.mem_cons.1 hn with rfl | hn
          · exact Or.inr ⟨b, hb⟩
          · exact Or.inl hn
        · exact Or.inr hn
      · rcases List.mem_cons.1 hid with rfl | hid
        · cases (hp.symm.trans (own v hv)).trans hvcall
          exact hsub List.mem_cons_self
        · exact hall id v callee hid hv hvcall

structure Traced (graphs : SceneGraphs) (x : Expansion)
    (copies : String → List CallPoint × VertexId → VertexId) : Prop where
  copied : ∀ q ∈ x.graphs, Copied graphs q.1 (copies q.1) q.2
  known : ∀ n ∈ x.used, ∃ b, (n, b) ∈ x.graphs
  called : ∀ q ∈ x.graphs, ∀ h callee, graphs.graph? q.1 = some h → h.Makes callee → callee ∈ x.used
  held : ∀ q ∈ x.graphs, Held graphs x copies q.1
  finite : ∀ q ∈ x.graphs, (pathsFrom graphs q.1).Finite

theorem Traced.store (ht : Traced graphs x copies) (hx : Stocked graphs x (g :: live))
    (hg : graphs.graph? name = some g) (hw : g.Whole) (hm : g.MadeIn name)
    (hfresh : ∀ q ∈ x.graphs, q.1 ≠ name) (hcalls : expandCalls name g.ids g x = .ok (g', x')) :
    x'.graphs = x.graphs ∧
      ∃ copies', Traced graphs { x' with graphs := (name, g') :: x'.graphs } copies' := by
  obtain ⟨copy', hcopied, hgraphs, hback, hsub, hall, hkept⟩ :=
    expandCalls_copying hcalls hx (.start hg hw) nodup_ids hg ht.copied (.start hg hm)
  have known : ∀ n ∈ x'.used, ∃ b, (n, b) ∈ x.graphs := by
    intro n hn
    exact (hback n hn).elim (ht.known n) fun hb => hb
  have made : ∀ callee, g.Makes callee → callee ∈ x'.used := by
    rintro callee ⟨id, v, es, hn, hcall⟩
    exact hall id v callee (mem_ids.2 (has_iff.2 ⟨_, hn⟩)) ⟨es, hn⟩ hcall
  have other : ∀ q ∈ x.graphs, Function.update copies name copy' q.1 = copies q.1 :=
    fun q hq => Function.update_of_ne (hfresh q hq) _ _
  -- the new graph is not used, so it may hold identities
  have unused : name ∉ x'.used := by
    intro hin
    obtain ⟨b, hb⟩ := known name hin
    exact hfresh _ hb rfl
  have held : ∀ scene, Keeps graphs g.ids Prod.snd name scene ∨ Held graphs x copies scene →
      Held graphs { x' with graphs := (name, g') :: x'.graphs } (Function.update copies name copy')
        scene := by
    intro scene hscene
    rcases hkept scene hscene with hk | ⟨q, hq, hqu, hk⟩
    · refine ⟨(name, g'), List.mem_cons_self, unused, ?_⟩
      rwa [Function.update_self]
    · rw [hgraphs] at hq
      refine ⟨q, List.mem_cons_of_mem _ (hgraphs ▸ hq), hqu, ?_⟩
      rwa [other q hq]
  refine ⟨hgraphs, Function.update copies name copy', ?_⟩
  constructor <;> dsimp only <;> rw [hgraphs]
  · refine List.forall_mem_cons.2 ⟨?_, fun q hq => ?_⟩
    · rwa [Function.update_self]
    · rw [other q hq]
      exact ht.copied q hq
  · intro n hn
    obtain ⟨b, hb⟩ := known n hn
    exact ⟨b, List.mem_cons_of_mem _ hb⟩
  · refine List.forall_mem_cons.2 ⟨fun h callee hh hmade => ?_, fun q hq h callee hh hmade => ?_⟩
    · cases hg.symm.trans hh
      exact made callee hmade
    · exact hsub (ht.called q hq h callee hh hmade)
  · rw [hgraphs] at held
    refine List.forall_mem_cons.2 ⟨held name (Or.inl ?_), fun q hq => held q.1 (Or.inr (ht.held q hq))⟩
    exact ⟨[], .here name, by simp, fun u v _ => rfl⟩
  · refine List.forall_mem_cons.2 ⟨finite_pathsFrom hg fun id v callee hv hcall => ?_, ht.finite⟩
    obtain ⟨es, hn⟩ := hv
    obtain ⟨b, hb⟩ := known callee (made callee ⟨id, v, es, hn, hcall⟩)
    exact ht.finite _ hb

theorem expandScenes_traced (h : expandScenes graphs names x = .ok x') (hs : graphs.Separate)
    (hm : ∀ name g, graphs.graph? name = some g → g.MadeIn name)
    (hx : Stocked graphs x (names.filterMap graphs.graph?)) (hd : names.Nodup)
    (hfresh : ∀ q ∈ x.graphs, q.1 ∉ names) (ht : Traced graphs x copies) :
    (∃ copies', Traced graphs x' copies') ∧
      ∀ q ∈ x'.graphs, q.1 ∈ names ∨ q ∈ x.graphs := by
  induction names generalizing x copies with
  | nil =>
    cases h
    exact ⟨⟨copies, ht⟩, fun q hq => Or.inr hq⟩
  | cons name rest ih =>
    unfold expandScenes at h
    split at h <;> rename_i g hg
    · cases h
    obtain ⟨⟨g', x₁⟩, hcalls, h₁⟩ := ok_of_bind_ok h
    obtain ⟨hno, hd⟩ := List.nodup_cons.1 hd
    rw [List.filterMap_cons_some hg] at hx
    have hw := hs.whole _ (SceneGraphs.mem_of_graph? hg) g rfl
    obtain ⟨hg', hx₁⟩ := expandCalls_ok hcalls hx (.start hg hw)
    obtain ⟨hgraphs, copies₁, ht₁⟩ := ht.store hx hg hw (hm name g hg)
      (fun q hq heq => hfresh q hq (heq ▸ List.mem_cons_self)) hcalls
    have fresh : ∀ q ∈ (name, g') :: x₁.graphs, q.1 ∉ rest := by
      rw [hgraphs]
      refine List.forall_mem_cons.2 ⟨hno, fun q hq hin => hfresh q hq (List.mem_cons_of_mem _ hin)⟩
    obtain ⟨hcopies, hnames⟩ := ih h₁ (hx₁.store hg') hd fresh ht₁
    refine ⟨hcopies, fun q hq => ?_⟩
    rcases hnames q hq with hq | hq
    · exact Or.inl (List.mem_cons_of_mem _ hq)
    · rcases List.mem_cons.1 hq with rfl | hq
      · exact Or.inl List.mem_cons_self
      · exact Or.inr (hgraphs ▸ hq)

end Program

section Counting

variable {g : Graph}

def SceneGraphs.plainVertices (graphs : SceneGraphs) (scene : String) : List Vertex :=
  match graphs.graph? scene with
  | none => []
  | some h => h.vertices.filter fun v => v.callee?.isNone

theorem vertices_ids (hg : g.WellFormed) : g.vertices.map Vertex.id = g.ids := by
  rw [vertices, List.map_map]
  refine List.map_congr_left fun q hq => ?_
  refine hg.own q.1 q.2.vertex q.2.edges ?_
  rw [node?, IdMap.get?_eq_some_iff.2 hq]
  rfl

theorem ncard_has : {id | g.has id = true}.ncard = g.size := by
  have ids : {id | g.has id = true} = (g.ids.toFinset : Set VertexId) := by
    ext id
    simp [mem_ids]
  rw [ids, Set.ncard_coe_finset, List.toFinset_card_of_nodup nodup_ids, length_ids]

theorem ncard_plainVertices : {u | ∃ v h, graphs.graph? scene = some h ∧ h.Holds u v ∧
    v.callee? = none}.ncard = (graphs.plainVertices scene).length := by
  unfold SceneGraphs.plainVertices
  split <;> rename_i hg
  · simp [hg]
  · rename_i h
    have sorted : (h.nodes.entries.filter fun q => q.2.vertex.callee?.isNone).Pairwise
        fun q r => q.1 < r.1 := h.nodes.sorted.sublist List.filter_sublist
    have distinct : ((h.nodes.entries.filter fun q => q.2.vertex.callee?.isNone).map Prod.fst).Nodup :=
      (List.pairwise_map.2 sorted).imp Int.ne_of_lt
    have ids : {u | ∃ v h, graphs.graph? scene = some h ∧ h.Holds u v ∧ v.callee? = none} =
        (((h.nodes.entries.filter fun q => q.2.vertex.callee?.isNone).map Prod.fst).toFinset :
          Set VertexId) := by
      ext u
      simp only [Set.mem_ofPred_eq, List.coe_toFinset, List.mem_map, List.mem_filter,
        Option.isNone_iff_eq_none]
      constructor
      · rintro ⟨v, h', hg', ⟨es, hn⟩, hv⟩
        cases hg.symm.trans hg'
        obtain ⟨e, he, heq⟩ := Option.map_eq_some_iff.1 hn
        cases heq
        exact ⟨(u, e), ⟨IdMap.get?_eq_some_iff.1 he, hv⟩, rfl⟩
      · rintro ⟨⟨u, e⟩, ⟨he, hv⟩, rfl⟩
        exact ⟨e.vertex, h, hg, ⟨e.edges, by rw [node?, IdMap.get?_eq_some_iff.2 he]; rfl⟩, hv⟩
    rw [ids, Set.ncard_coe_finset, List.toFinset_card_of_nodup distinct, List.length_map, vertices,
      List.filter_map, List.length_map]
    rfl

theorem finite_paths (hf : (pathsFrom graphs name).Finite) (scene : String) :
    {path | CallPath graphs name path scene}.Finite :=
  (hf.image Prod.fst).subset fun path hpath => ⟨(path, scene), hpath, rfl⟩

theorem places_eq : {q | ∃ v, Occurs graphs name q scene v} = {path | CallPath graphs name path scene} ×ˢ
    {u | ∃ v h, graphs.graph? scene = some h ∧ h.Holds u v ∧ v.callee? = none} := by
  ext ⟨path, u⟩
  constructor
  · rintro ⟨v, hpath, ⟨h, hg, hv⟩, hplain⟩
    exact ⟨hpath, v, h, hg, hv, hplain⟩
  · rintro ⟨hpath, v, h, hg, hv, hplain⟩
    exact ⟨v, hpath, ⟨h, hg, hv⟩, hplain⟩

theorem finite_plain : {u | ∃ v h, graphs.graph? scene = some h ∧ h.Holds u v ∧
    v.callee? = none}.Finite := by
  cases hg : graphs.graph? scene with
  | none => simp
  | some h =>
    refine (List.finite_toSet h.ids).subset ?_
    rintro u ⟨v, h', hh, hv, -⟩
    cases hh
    exact mem_ids.2 hv.has

theorem ncard_places (hf : (pathsFrom graphs name).Finite) {l : List Scene}
    (hd : (l.map Scene.name).Nodup) : {q | ∃ s ∈ l, ∃ v, Occurs graphs name q s.name v}.ncard =
      (l.map fun s => {path | CallPath graphs name path s.name}.ncard *
        (graphs.plainVertices s.name).length).sum := by
  induction l with
  | nil => simp
  | cons s rest ih =>
    obtain ⟨hfresh, hd⟩ := List.nodup_cons.1 hd
    have split : {q | ∃ t ∈ s :: rest, ∃ v, Occurs graphs name q t.name v} =
        {q | ∃ v, Occurs graphs name q s.name v} ∪
          {q | ∃ t ∈ rest, ∃ v, Occurs graphs name q t.name v} := by
      ext q
      simp
    have finite : ∀ scene, {q | ∃ v, Occurs graphs name q scene v}.Finite := by
      intro scene
      rw [places_eq]
      exact (finite_paths hf scene).prod finite_plain
    have others : {q | ∃ t ∈ rest, ∃ v, Occurs graphs name q t.name v}.Finite := by
      refine ((List.finite_toSet rest).biUnion fun t _ => finite t.name).subset ?_
      rintro q ⟨t, ht, hq⟩
      exact Set.mem_biUnion ht hq
    have apart : Disjoint {q | ∃ v, Occurs graphs name q s.name v}
        {q | ∃ t ∈ rest, ∃ v, Occurs graphs name q t.name v} := by
      refine Set.disjoint_left.2 ?_
      rintro q ⟨v, hv⟩ ⟨t, ht, w, hw⟩
      refine hfresh (List.mem_map.2 ⟨t, ht, ?_⟩)
      exact hw.path.end_unique hv.path
    rw [split, Set.ncard_union_eq apart (finite s.name) others, ih hd, places_eq, Set.ncard_prod,
      ncard_plainVertices, List.map_cons, List.sum_cons]

end Counting

namespace Story

variable {table : SymbolTable} {story : Story} {supply : Supply} {scenes : SceneGraphs} {h : Graph}
  {config : Config.StoryConfig} {path : String}

theorem madeIn_of_build (hb : story.build table supply = .ok scenes)
    (hg : scenes.graph? name = some h) : h.MadeIn name := by
  obtain ⟨s, -, rfl, -, t, t', hd⟩ := SceneGraphs.drafted hb hg
  exact (Scene.draft_shelters hd).1

theorem makes_of_calls (hbind : config.bind path = .ok (story, table))
    (hb : story.build table supply = .ok scenes) (hg : scenes.graph? name = some h)
    (hcall : story.Calls name callee) : h.Makes callee := by
  obtain ⟨cased, distinct⟩ := Config.scenes_of_bind hbind
  obtain ⟨s, hs, rfl, hp, t, t', hd⟩ := SceneGraphs.drafted hb hg
  obtain ⟨s', hs', ⟨call, hmem, rfl⟩, -⟩ := hcall
  cases (scene?_of_mem distinct hs).symm.trans hs'
  obtain ⟨node, hnode, hcall⟩ := List.mem_filterMap.1 hmem
  unfold TreeNode.call? at hcall
  split at hcall
  · cases hcall
    obtain ⟨id, v, ⟨es, hn⟩, hv⟩ := (Scene.draft_shelters hd).2 hp (cased s hs) _ _ hnode
    exact ⟨id, v, es, hn, hv⟩
  · cases hcall

end Story

namespace Program

section Assembled

variable {table : SymbolTable} {story : Story} {supply : Supply} {scenes : SceneGraphs}
  {program : Program} {g : Graph} {config : Config.StoryConfig} {path : String}

theorem Traced.uses {x : Expansion} {live : List Graph} {b : Graph} (ht : Traced scenes x copies)
    (hx : Stocked scenes x live) (hbind : config.bind path = .ok (story, table))
    (hb : story.build table supply = .ok scenes) (hm : (name, b) ∈ x.graphs)
    (hcall : story.Calls name callee) : callee ∈ x.used := by
  obtain ⟨h, hh⟩ := (hx.expanded _ hm).built
  exact ht.called _ hm h callee hh (Story.makes_of_calls hbind hb hh hcall)

theorem Traced.reached {x : Expansion} {live : List Graph} {b : Graph} (ht : Traced scenes x copies)
    (hx : Stocked scenes x live) (hbind : config.bind path = .ok (story, table))
    (hb : story.build table supply = .ok scenes) (hm : (name, b) ∈ x.graphs)
    (hscene : ReflTransGen story.Calls name scene) : ∃ b, (scene, b) ∈ x.graphs := by
  induction hscene with
  | refl => exact ⟨b, hm⟩
  | tail _ hcall ih =>
    obtain ⟨b', hmem⟩ := ih
    exact ht.known _ (ht.uses hx hbind hb hmem hcall)

/-- The expansion behind a program graph. Only scenes that the entry scene leads to are expanded. -/
theorem traced_of_assemble (hb : story.build table supply = .ok scenes)
    (ha : assemble story scenes scenes.supply = .ok program) (hg : program.graph = some g) :
    ∃ entry x copies, story.entryScene? = some entry ∧ (entry.name, g) ∈ x.graphs ∧
      Stocked scenes x [] ∧ Traced scenes x copies ∧
      (∀ q ∈ x.graphs, q.2.Formed (∀ s ∈ story.scenes, Branching table (bodyNodes s.body))) ∧
      ∀ q ∈ x.graphs, ReflTransGen story.Calls entry.name q.1 := by
  obtain ⟨entry, x, hentry, hscenes, hfound⟩ := expandScenes_of_assemble ha hg
  have separate := SceneGraphs.separate_build hb
  have stocked := stocked_build hb (story.callGraph.reachable entry.name).contains
  have start : Traced scenes { supply := scenes.supply } fun _ => Prod.snd :=
    ⟨by simp, by simp, by simp, by simp, by simp⟩
  obtain ⟨⟨copies, traced⟩, hnames⟩ := expandScenes_traced hscenes separate
    (fun _ _ => Story.madeIn_of_build hb) stocked
    ((CallGraph.nodup_finished_walk Story.declared_callGraph).filter _) (by simp) start
  refine ⟨entry, x, copies, hentry, mem_of_graph? hfound, expandScenes_ok hscenes separate stocked,
    traced, expandScenes_formed hscenes separate stocked (fun _ _ => SceneGraphs.formed hb) (by simp),
    fun q hq => ?_⟩
  have hin := (List.mem_filter.1 ((hnames q hq).resolve_right (by simp))).2
  rwa [List.contains_iff_mem, CallGraph.mem_reachable_iff Story.declared_callGraph
    (Story.mem_names_callGraph (Story.mem_of_entryScene? hentry)), Story.callGraph_calls] at hin

/-- In the program graph the copies are told apart by their paths of calls, and among the copies of a
scene that the entry scene leads to, those for one path keep the identities of the scene. -/
theorem copied_of_assemble (hbind : config.bind path = .ok (story, table))
    (hb : story.build table supply = .ok scenes)
    (ha : assemble story scenes scenes.supply = .ok program) (hg : program.graph = some g) :
    ∃ entry copy, story.entryScene? = some entry ∧ Copied scenes entry.name copy g ∧
      (pathsFrom scenes entry.name).Finite ∧ ∀ scene, ReflTransGen story.Calls entry.name scene →
        (scenes.graph? scene).isSome = true ∧ Keeps scenes [] copy entry.name scene := by
  obtain ⟨entry, x, copies, hentry, last, stocked, traced, -, hreached⟩ := traced_of_assemble hb ha hg
  -- what no call has taken over is the graph of the entry scene
  have top : ∀ q ∈ x.graphs, q.1 ∉ x.used → q.1 = entry.name := by
    intro q hq hqu
    rcases (hreached q hq).cases_tail with heq | ⟨a, hreach, hcall⟩
    · exact heq
    · obtain ⟨b, hab⟩ := traced.reached stocked hbind hb last hreach
      exact absurd (traced.uses stocked hbind hb hab hcall) hqu
  refine ⟨entry, copies entry.name, hentry, traced.copied _ last, traced.finite _ last,
    fun scene hscene => ?_⟩
  obtain ⟨b, hmem⟩ := traced.reached stocked hbind hb last hscene
  obtain ⟨h, hh⟩ := (stocked.expanded _ hmem).built
  obtain ⟨q, hq, hqu, hkeeps⟩ := traced.held _ hmem
  rw [top q hq hqu] at hkeeps
  exact ⟨by rw [hh]; rfl, hkeeps⟩

/-- The program graph has exactly one vertex for every path of calls from the entry scene and every vertex,
not a call, of the scene at its end. The chain of the vertex names the scenes along the path. For every scene
that the entry scene leads to, one path keeps the identities of the scene and every other path changes all
of them. -/
theorem vertices_of_call_paths (hbind : config.bind path = .ok (story, table))
    (hb : story.build table supply = .ok scenes)
    (ha : assemble story scenes scenes.supply = .ok program) (hg : program.graph = some g) :
    ∃ entry copy, story.entryScene? = some entry ∧
      Set.BijOn copy {q | ∃ scene v, Occurs scenes entry.name q scene v} {id | g.has id = true} ∧
      (∀ q scene v, Occurs scenes entry.name q scene v → g.Holds (copy q)
        ⟨copy q, v.stmt, v.visible, scene :: (q.1.map CallPoint.caller).reverse⟩) ∧
      (∀ scene, ReflTransGen story.Calls entry.name scene →
        ∃ calls, CallPath scenes entry.name calls scene ∧
          (∀ u v, Occurs scenes entry.name (calls, u) scene v → copy (calls, u) = u) ∧
          ∀ calls' u v, Occurs scenes entry.name (calls', u) scene v → copy (calls', u) = u →
            calls' = calls) ∧
      (g.vertices.map Vertex.id).Nodup ∧
      (∀ scene, {calls | CallPath scenes entry.name calls scene}.Finite) ∧
      g.size = (story.scenes.map fun s => {calls | CallPath scenes entry.name calls s.name}.ncard *
        (scenes.plainVertices s.name).length).sum := by
  obtain ⟨entry, copy, hentry, copied, finite, kept⟩ := copied_of_assemble hbind hb ha hg
  obtain ⟨_, -, expanded⟩ := expanded_of_assemble hb ha hg
  obtain ⟨-, distinct⟩ := Config.scenes_of_bind hbind
  have bij : Set.BijOn copy {q | ∃ scene v, Occurs scenes entry.name q scene v} {id | g.has id = true} := by
    refine ⟨?_, ?_, ?_⟩
    · rintro q ⟨scene, v, ho⟩
      exact (copied.copies.into _ _ _ ho).has
    · rintro q ⟨scene, v, ho⟩ q' ⟨scene', v', ho'⟩ heq
      exact copied.copies.injective _ _ _ _ _ _ ho ho' heq
    · intro id hid
      obtain ⟨q, scene, v, ho, rfl⟩ := copied.copies.onto id hid
      exact ⟨q, ⟨scene, v, ho⟩, rfl⟩
  have places : {q | ∃ scene v, Occurs scenes entry.name q scene v} =
      {q | ∃ s ∈ story.scenes, ∃ v, Occurs scenes entry.name q s.name v} := by
    ext q
    constructor
    · rintro ⟨scene, v, ho⟩
      obtain ⟨h, hh, -⟩ := ho.held
      obtain ⟨s, hs, rfl, -⟩ := SceneGraphs.drafted hb hh
      exact ⟨s, hs, v, ho⟩
    · rintro ⟨s, -, v, ho⟩
      exact ⟨s.name, v, ho⟩
  refine ⟨entry, copy, hentry, bij, fun q scene v => copied.copies.into q scene v, fun scene hscene => ?_,
    ?_, finite_paths finite, ?_⟩
  · obtain ⟨-, calls, hcalls, -, hkeeps⟩ := kept scene hscene
    refine ⟨calls, hcalls, hkeeps, fun calls' u v ho hsame => ?_⟩
    have ho' : Occurs scenes entry.name (calls, u) scene v := ⟨hcalls, ho.held, ho.plain⟩
    exact congrArg Prod.fst
      (copied.copies.injective _ _ _ _ _ _ ho ho' (hsame.trans (hkeeps u v ho').symm))
  · rw [vertices_ids expanded.whole.wf]
    exact nodup_ids
  · rw [← ncard_has, ← bij.image_eq, bij.injOn.ncard_image, places]
    exact ncard_places finite distinct

end Assembled

/-- Two scenes share a third one, and one of them is called twice. -/
def crossing : Config.StoryConfig where
  scenes := [
    some ⟨"home", true, "", [
      some (.text "" .call (some "left")),
      some (.text "" .call (some "right")),
      some (.text "" .call (some "left"))]⟩,
    some ⟨"left", false, "", [
      some (.text "" .output (some "west")),
      some (.text "" .call (some "well"))]⟩,
    some ⟨"right", false, "", [
      some (.text "" .call (some "well")),
      some (.text "" .output (some "east"))]⟩,
    some ⟨"well", false, "", [some (.text "" .output (some "water"))]⟩]

theorem vertices_of_call_paths_crossing : ∃ story table scenes program g copy,
    crossing.bind "tale" = .ok (story, table) ∧ story.build table {} = .ok scenes ∧
      assemble story scenes scenes.supply = .ok program ∧ program.graph = some g ∧
      Set.BijOn copy {q | ∃ scene v, Occurs scenes "home" q scene v} {id | g.has id = true} ∧
      7 = (story.scenes.map fun s => {calls | CallPath scenes "home" calls s.name}.ncard *
        (scenes.plainVertices s.name).length).sum := by
  obtain ⟨story, table, hbind⟩ : ∃ story table, crossing.bind "tale" = .ok (story, table) :=
    ⟨_, _, rfl⟩
  have assembled : (match crossing.bind "tale" with
      | .error _ => none
      | .ok (story, table) =>
        match story.build table {} with
        | .error _ => none
        | .ok scenes =>
          match assemble story scenes scenes.supply with
          | .error _ => none
          | .ok program => program.graph.map fun g =>
              (g.size, story.entryScene?.map Scene.name)) = some (7, some "home") := by decide +kernel
  simp only [hbind] at assembled
  split at assembled <;> rename_i scenes hb
  · cases assembled
  split at assembled <;> rename_i program ha
  · cases assembled
  obtain ⟨g, hg, heq⟩ := Option.map_eq_some_iff.1 assembled
  obtain ⟨hsize, hname⟩ := Prod.mk.inj heq
  obtain ⟨entry, copy, hentry, bij, -, -, -, -, hsum⟩ := vertices_of_call_paths hbind hb ha hg
  rw [hentry] at hname
  have hname : entry.name = "home" := Option.some.inj hname
  rw [hsize] at hsum
  rw [hname] at bij hsum
  exact ⟨story, table, scenes, program, g, copy, hbind, hb, ha, hg, bij, hsum⟩

end Program

end StoryFlow
