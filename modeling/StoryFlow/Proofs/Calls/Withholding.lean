import StoryFlow.Proofs.Calls.Assembly

/-! When a story has a program graph. The graph is withheld exactly when the entry scene leads to a scene
that calls an undeclared one, has no graph or lies on a cycle of calls; otherwise putting it together
succeeds. Both rest on names that the keys of cycles can tell apart. -/

namespace StoryFlow

open StoryFlow.Flow
open StoryFlow.Flow.Graph
open Relation

variable {table : SymbolTable} {story : Story} {supply : Supply} {scenes : SceneGraphs} {name : String}
  {g : Graph}

namespace Scene

theorem calls_of_makes {s : Scene} {t t' : Supply} {callee : String}
    (h : s.draft table t = .ok (g, t')) (hm : g.Makes callee) : ∃ call ∈ s.calls, call.scene = callee := by
  obtain ⟨id, v, es, hn, hcall⟩ := hm
  obtain ⟨stmt, hv, hin⟩ := (draft_shaped h).carries id v es hn
  rw [Vertex.callee?, hv] at hcall
  have hcall : stmt.callee? = some callee := hcall
  unfold Stmt.callee? at hcall
  split at hcall
  · cases hcall
    have hbody := (List.mem_cons.1 hin).resolve_left (by simp [opening])
    exact ⟨_, List.mem_filterMap.2 ⟨_, hbody, rfl⟩, rfl⟩
  · cases hcall

end Scene

namespace SceneGraphs

theorem drafted_of_buildFrom {list : List Scene} {done : SceneGraphs}
    (h : buildFrom table done list = .ok scenes) (hg : (name, some g) ∈ scenes.graphs) :
    (name, some g) ∈ done.graphs ∨ ∃ s ∈ list, s.name = name ∧ s.problems table = [] ∧
      ∃ t t', s.draft table t = .ok (g, t') := by
  induction list generalizing done with
  | nil =>
    cases h
    exact Or.inl hg
  | cons s rest ih =>
    rw [buildFrom] at h
    obtain ⟨built, hb, h₁⟩ := ok_of_bind_ok h
    rcases ih h₁ with hdone | ⟨s', hs', hrest⟩
    · rcases List.mem_append.1 hdone with hdone | hdone
      · exact Or.inl hdone
      · obtain ⟨rfl, hgraph⟩ := Prod.mk.inj (List.mem_singleton.1 hdone)
        obtain ⟨d, hd, ⟨hp, -, hbg, -⟩ | ⟨-, hbg, -⟩⟩ := Scene.build_cases hb
        · cases hgraph.trans hbg
          exact Or.inr ⟨s, List.mem_cons_self, rfl, hp, _, _, hd⟩
        · cases hgraph.trans hbg
    · exact Or.inr ⟨s', List.mem_cons_of_mem _ hs', hrest⟩

theorem drafted (h : story.build table supply = .ok scenes) (hg : scenes.graph? name = some g) :
    ∃ s ∈ story.scenes, s.name = name ∧ s.problems table = [] ∧
      ∃ t t', s.draft table t = .ok (g, t') :=
  (drafted_of_buildFrom h (mem_of_graph? hg)).resolve_left (by simp)

theorem formed (h : story.build table supply = .ok scenes) (hg : scenes.graph? name = some g) :
    g.Formed (∀ s ∈ story.scenes, Branching table (bodyNodes s.body)) := by
  obtain ⟨s, hs, -, hp, t, t', hd⟩ := drafted h hg
  have shaped := Scene.draft_shaped hd
  exact ⟨shaped.looped, fun hall => shaped.live ⟨hp, hall s hs⟩⟩

end SceneGraphs

namespace Story

theorem plain_callGraph (h : ∀ s ∈ story.scenes, '\x00' ∉ s.name.toList) : story.callGraph.Plain := by
  intro name hname
  rw [names_callGraph] at hname
  obtain ⟨s, hs, rfl⟩ := List.mem_map.1 hname
  exact h s hs

theorem scene?_of_mem (hd : (story.scenes.map Scene.name).Nodup) {s : Scene} (hs : s ∈ story.scenes) :
    story.scene? s.name = some s := by
  have one : story.scenes.Pairwise fun a b => ¬((a.name == s.name) = true ∧ (b.name == s.name) = true) := by
    refine (List.pairwise_map.1 hd).imp fun {a b} hne hboth => hne ?_
    rw [eq_of_beq hboth.1, eq_of_beq hboth.2]
  exact Scene.find?_eq_some_of_pairwise one hs (beq_self_eq_true _)

/-- The scene calls declared scenes only, has a graph and lies on no cycle of calls. -/
structure Intact (story : Story) (scenes : SceneGraphs) (s : Scene) : Prop where
  declared : ∀ call ∈ s.calls, (story.scene? call.scene).isSome = true
  built : (scenes.graph? s.name).isSome = true
  acyclic : ¬TransGen story.Calls s.name s.name

def faulty (story : Story) (scenes : SceneGraphs) : List String :=
  (story.scenes.filter fun s => !(Program.undeclaredProblems story s).isEmpty ||
    (scenes.graph? s.name).isNone).map Scene.name

theorem not_mem_faulty_iff (hd : (story.scenes.map Scene.name).Nodup) {s : Scene} (hs : s ∈ story.scenes) :
    s.name ∉ story.faulty scenes ↔ (∀ call ∈ s.calls, (story.scene? call.scene).isSome = true) ∧
      (scenes.graph? s.name).isSome = true := by
  have own : s.name ∈ story.faulty scenes ↔ (!(Program.undeclaredProblems story s).isEmpty ||
      (scenes.graph? s.name).isNone) = true := by
    constructor
    · intro h
      obtain ⟨s', hs', hname⟩ := List.mem_map.1 h
      obtain ⟨hs', hbad⟩ := List.mem_filter.1 hs'
      have heq := (scene?_of_mem hd hs').symm.trans (hname ▸ scene?_of_mem hd hs)
      cases heq
      exact hbad
    · intro h
      exact List.mem_map_of_mem (List.mem_filter.2 ⟨hs, h⟩)
  rw [own]
  simp [Program.undeclaredProblems, List.filter_eq_nil_iff, Option.isSome_iff_ne_none]

theorem exists_scene_of_reached {entry : Scene} (hentry : entry ∈ story.scenes)
    (h : ReflTransGen story.Calls entry.name name) : ∃ s ∈ story.scenes, s.name = name := by
  rcases reflTransGen_iff_eq_or_transGen.1 h with rfl | h
  · exact ⟨entry, hentry, rfl⟩
  · obtain ⟨x, -, -, -, -, hx⟩ := TransGen.tail'_iff.1 h
    obtain ⟨s, hs⟩ := Option.isSome_iff_exists.1 hx
    exact ⟨s, mem_of_scene? hs⟩

theorem sound_iff_intact (hd : (story.scenes.map Scene.name).Nodup) {entry : Scene}
    (hentry : entry ∈ story.scenes) :
    Program.Sound story.callGraph (story.faulty scenes) entry.name ↔
      ∀ s ∈ story.scenes, ReflTransGen story.Calls entry.name s.name → story.Intact scenes s := by
  unfold Program.Sound
  rw [callGraph_calls]
  constructor
  · intro h s hs hreach
    obtain ⟨hown, hcyc⟩ := h s.name hreach
    obtain ⟨declared, built⟩ := (not_mem_faulty_iff hd hs).1 hown
    exact ⟨declared, built, hcyc⟩
  · intro h x hx
    obtain ⟨s, hs, rfl⟩ := exists_scene_of_reached hentry hx
    have intact := h s hs hx
    exact ⟨(not_mem_faulty_iff hd hs).2 ⟨intact.declared, intact.built⟩, intact.acyclic⟩

end Story

namespace Program

open StoryFlow.CallGraph

theorem brokenScenes_eq : brokenScenes story scenes story.callGraph story.callGraph.walk =
    marked story.callGraph (story.faulty scenes) := rfl

/-- The marks are right: a scene is marked unless it leads to intact scenes only. -/
theorem unmarked_iff_intact (hd : (story.scenes.map Scene.name).Nodup) (hplain : story.callGraph.Plain)
    {entry : Scene} (hentry : entry ∈ story.scenes) :
    entry.name ∉ marked story.callGraph (story.faulty scenes) ↔
      ∀ s ∈ story.scenes, ReflTransGen story.Calls entry.name s.name → story.Intact scenes s := by
  rw [not_mem_marked_iff Story.declared_callGraph hplain (Story.mem_names_callGraph hentry)]
  exact Story.sound_iff_intact hd hentry

def toExpand (story : Story) (entry : String) : List String :=
  story.callGraph.walk.finished.filter (story.callGraph.reachable entry).contains

section Expand

variable {entry : Scene} (hd : (story.scenes.map Scene.name).Nodup) (hplain : story.callGraph.Plain)
  (hentry : entry ∈ story.scenes) (hno : entry.name ∉ marked story.callGraph (story.faulty scenes))

include hd hplain hentry hno

theorem intact_of_mem_toExpand (h : name ∈ toExpand story entry.name) :
    ∃ s ∈ story.scenes, s.name = name ∧ story.Intact scenes s := by
  have hin : name ∈ story.callGraph.reachable entry.name := by simpa using (List.mem_filter.1 h).2
  rw [mem_reachable_iff Story.declared_callGraph (Story.mem_names_callGraph hentry),
    Story.callGraph_calls] at hin
  obtain ⟨s, hs, rfl⟩ := Story.exists_scene_of_reached hentry hin
  exact ⟨s, hs, rfl, (unmarked_iff_intact hd hplain hentry).1 hno s hs hin⟩

theorem made_first (hb : story.build table supply = .ok scenes) {l r : List String} {callee : String}
    (heq : toExpand story entry.name = l ++ name :: r) (hg : scenes.graph? name = some g)
    (hm : g.Makes callee) : callee ∈ l := by
  have hin : name ∈ toExpand story entry.name := by simp [heq]
  obtain ⟨s, hs, hsname, intact⟩ := intact_of_mem_toExpand hd hplain hentry hno hin
  obtain ⟨s', hs', hsname', -, t, t', hdraft⟩ := SceneGraphs.drafted hb hg
  have hs := Story.scene?_of_mem hd hs
  have hs' := Story.scene?_of_mem hd hs'
  rw [hsname] at hs
  rw [hsname'] at hs'
  cases hs'.symm.trans hs
  obtain ⟨call, hcall, rfl⟩ := Scene.calls_of_makes hdraft hm
  apply callees_first Story.declared_callGraph hplain (Story.mem_names_callGraph hentry) hno heq
  rw [Story.callGraph_calls]
  exact ⟨s, hs, ⟨call, hcall, rfl⟩, intact.declared call hcall⟩

theorem expand_total (hb : story.build table supply = .ok scenes) :
    ∃ r, expand scenes story.callGraph story.callGraph.walk.finished entry.name scenes.supply = .ok r := by
  have separate := SceneGraphs.separate_build hb
  have stocked := stocked_build hb (story.callGraph.reachable entry.name).contains
  have built : ∀ name ∈ toExpand story entry.name, ∃ g, scenes.graph? name = some g := by
    intro name hin
    obtain ⟨s, -, rfl, intact⟩ := intact_of_mem_toExpand hd hplain hentry hno hin
    exact Option.isSome_iff_exists.1 intact.built
  obtain ⟨x, hx, hall⟩ := expandScenes_total separate stocked (fun _ _ => SceneGraphs.formed hb)
    (by simp) built fun l name r g heq hg callee hm =>
      Or.inl (made_first hd hplain hentry hno hb heq hg hm)
  have hname := Story.mem_names_callGraph hentry
  have last : entry.name ∈ toExpand story entry.name := by
    refine List.mem_filter.2 ⟨(walk_explored Story.declared_callGraph hplain).2 hname, ?_⟩
    rw [List.contains_iff_mem, mem_reachable_iff Story.declared_callGraph hname]
  obtain ⟨g, hg⟩ := hall entry.name (Or.inl last)
  have expanded := (expandScenes_ok hx separate stocked).expanded _ (mem_of_graph? hg)
  unfold expand
  apply bind_total ⟨x, hx⟩
  intro x' hx'
  cases hx'.symm.trans hx
  rw [hg]
  dsimp only
  rw [expanded.whole.invalidity?_eq_none]
  exact ⟨_, rfl⟩

end Expand

/-- Putting the program graph together never fails, and an entry scene that is not marked has a graph. -/
theorem assemble_total (hb : story.build table supply = .ok scenes)
    (hd : (story.scenes.map Scene.name).Nodup) (hplain : story.callGraph.Plain) :
    ∃ program, assemble story scenes scenes.supply = .ok program ∧ (program.graph.isSome = true ↔
      ∃ entry, story.entryScene? = some entry ∧
        entry.name ∉ marked story.callGraph (story.faulty scenes)) := by
  unfold assemble
  cases hentry : story.entryScene? with
  | none => exact ⟨_, rfl, by simp⟩
  | some entry =>
    dsimp only
    rw [brokenScenes_eq]
    by_cases hno : entry.name ∈ marked story.callGraph (story.faulty scenes)
    · rw [if_pos (by simpa using hno)]
      refine ⟨_, rfl, ?_⟩
      simpa using hno
    · obtain ⟨r, hr⟩ := expand_total hd hplain (Story.mem_of_entryScene? hentry) hno hb
      rw [if_neg (by simpa using hno), hr]
      refine ⟨_, rfl, ?_⟩
      simpa using hno

/-- The program graph is withheld exactly when the entry scene is missing or leads to a scene that calls an
undeclared one, has no graph or lies on a cycle of calls. -/
theorem graph_isSome_iff_intact (hb : story.build table supply = .ok scenes)
    (hd : (story.scenes.map Scene.name).Nodup) (hplain : ∀ s ∈ story.scenes, '\x00' ∉ s.name.toList) :
    ∃ program, assemble story scenes scenes.supply = .ok program ∧ (program.graph.isSome = true ↔
      ∃ entry, story.entryScene? = some entry ∧ ∀ s ∈ story.scenes,
        ReflTransGen story.Calls entry.name s.name → story.Intact scenes s) := by
  have plain := Story.plain_callGraph hplain
  obtain ⟨program, ha, hgraph⟩ := assemble_total hb hd plain
  refine ⟨program, ha, hgraph.trans ?_⟩
  constructor
  · rintro ⟨entry, hentry, hno⟩
    exact ⟨entry, hentry, (unmarked_iff_intact hd plain (Story.mem_of_entryScene? hentry)).1 hno⟩
  · rintro ⟨entry, hentry, hi⟩
    exact ⟨entry, hentry, (unmarked_iff_intact hd plain (Story.mem_of_entryScene? hentry)).2 hi⟩

/-- What the entry scene leads to is in order. Two scenes that it does not lead to are not. -/
def detours : Story where
  scenes := [
    ⟨{}, "home", true, [
      .menu {} .loopSwitch "Well?" [
        ⟨{}, "walk", true, [.plain {} (.output "on"), .plain {} (.call "road")]⟩,
        ⟨{}, "rest", false, []⟩],
      .plain {} (.call "road")]⟩,
    ⟨{}, "maze", false, [.plain {} (.call "home"), .plain {} (.call "maze")]⟩,
    ⟨{}, "cliff", false, [.plain {} (.call "sea")]⟩,
    ⟨{}, "road", false, [.plain {} (.output "dust")]⟩]

theorem graph_isSome_iff_intact_detours : ∃ scenes entry, detours.build {} {} = .ok scenes ∧
    detours.entryScene? = some entry ∧ (∀ s ∈ detours.scenes,
      ReflTransGen detours.Calls entry.name s.name → detours.Intact scenes s) ∧
    ∃ s ∈ detours.scenes, ¬detours.Intact scenes s := by
  have built : (match detours.build {} {} with
      | .error _ => false
      | .ok scenes =>
        match assemble detours scenes scenes.supply with
        | .error _ => false
        | .ok program => program.graph.isSome) = true := by decide +kernel
  split at built <;> rename_i scenes hb
  · cases built
  obtain ⟨program, ha, hiff⟩ := graph_isSome_iff_intact hb (by decide) (by decide)
  rw [ha] at built
  obtain ⟨entry, hentry, hi⟩ := hiff.1 built
  refine ⟨scenes, entry, hb, hentry, hi, ⟨{}, "cliff", false, [.plain {} (.call "sea")]⟩, ?_, ?_⟩
  · simp [detours]
  · intro intact
    have declared := intact.declared ⟨{}, "sea"⟩ (by decide)
    cases declared

/-- No story crashes the compilation, as long as no name contains the character that the keys of cycles
put between names. -/
theorem compiles (table : SymbolTable) (supply : Supply) (hd : (story.scenes.map Scene.name).Nodup)
    (hplain : ∀ s ∈ story.scenes, '\x00' ∉ s.name.toList) :
    ∃ scenes, story.build table supply = .ok scenes ∧
      ∃ program, assemble story scenes scenes.supply = .ok program := by
  obtain ⟨scenes, hb⟩ := SceneGraphs.buildFrom_total table story.scenes { supply }
  obtain ⟨program, ha, -⟩ := assemble_total hb hd (Story.plain_callGraph hplain)
  exact ⟨scenes, hb, program, ha⟩

theorem compiles_detours : (detours.scenes.map Scene.name).Nodup ∧
    ∃ scenes, detours.build {} {} = .ok scenes ∧
      ∃ program, assemble detours scenes scenes.supply = .ok program :=
  ⟨by decide, compiles {} {} (by decide) (by decide)⟩

/-- Two cycles whose names read the same with NUL characters between them. The first one found hides the
other, in which the entry scene calls itself. -/
def twins : Story where
  entry := "x\x00x\x00x"
  scenes := [
    ⟨{}, "x", false, [.plain {} (.call "x\x00x\x00x\x00x")]⟩,
    ⟨{}, "x\x00x\x00x\x00x", false, [.plain {} (.call "x")]⟩,
    ⟨{}, "x\x00x\x00x", false, [.plain {} (.call "x\x00x\x00x")]⟩]

theorem not_compiles_twins : (twins.scenes.map Scene.name).Nodup ∧
    ¬∃ scenes, twins.build {} {} = .ok scenes ∧
      ∃ program, assemble twins scenes scenes.supply = .ok program := by
  refine ⟨by decide, ?_⟩
  have failed : (match twins.build {} {} with
      | .error _ => false
      | .ok scenes =>
        match assemble twins scenes scenes.supply with
        | .error (.notExpanded callee caller) => callee == twins.entry && caller == twins.entry
        | _ => false) = true := by decide +kernel
  rintro ⟨scenes, hb, program, ha⟩
  rw [hb] at failed
  dsimp only at failed
  rw [ha] at failed
  cases failed

end Program

end StoryFlow
