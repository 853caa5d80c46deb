import StoryFlow.Proofs.Calls.Withholding
import StoryFlow.Proofs.Config.Declarations
import StoryFlow.Proofs.Flow.Order

/-! The form of the graphs of a bound story, those of its scenes and that of the program. Without its loop
edges such a graph is ordered, every vertex lies on a way from the start to the end, and each loop edge
goes back to a prompt that control has passed. -/

namespace StoryFlow

open StoryFlow.Flow
open StoryFlow.Flow.Graph
open Relation

variable {table : SymbolTable} {story : Story} {supply : Supply} {scenes : SceneGraphs} {g : Graph}

/-- Loop edges are the only edges that lead back, and every vertex takes part in the flow. -/
structure Flow.Graph.Regular (g : Graph) : Prop where
  start : ∀ e ∈ g.start, e.loop = false
  acyclic : ∀ id, ¬TransGen g.Forward id id
  ordered : ∃ order, g.topologicalOrder = .ok order
  reached : ∀ id, g.has id = true →
    ∃ e ∈ g.start, e.loop = false ∧ ReflTransGen g.Forward e.target id
  through : ∃ vs, g.Reaches vs sink
  leaves : ∀ id v es, g.node? id = some (v, es) → ∃ vs, g.Leads es vs sink
  loops : ∀ id v es e, g.node? id = some (v, es) → e ∈ es → e.loop = true →
    ∃ w ds, g.node? e.target = some (w, ds) ∧ w.LoopPrompt ∧ ∀ vs, g.Reaches vs id → w ∈ vs ++ [v]

theorem Flow.Graph.Formed.regular {lawful : Prop} (h : g.Formed lawful) (hl : lawful) (hg : g.Whole) :
    g.Regular where
  start := fun e he => h.looped.start he
  acyclic := h.looped.acyclic
  ordered := by
    obtain ⟨order, ho, -⟩ := topologicalOrder_ok hg.valid h.looped.acyclic
    exact ⟨order, ho⟩
  reached := by
    intro id hid
    obtain ⟨x, hx⟩ := has_iff.1 hid
    obtain ⟨e, he, hloop, -, hpath⟩ := ((h.live hl).reached id hid).forward hg.wf (hg.wf.real id x hx)
    exact ⟨e, he, hloop, hpath⟩
  through := (h.live hl).through.leads
  leaves := fun id v es hn => ((h.live hl).leaves id v es hn).leads
  loops := by
    intro id v es e hn he hloop
    rcases h.looped.loops (some id) e ⟨v, es, hn, he⟩ hloop with hout | ⟨k, hk, ⟨w, ds, hw, hprompt⟩, guards⟩
    · exact hout.elim
    · cases hk
      exact ⟨w, ds, hw, hprompt, fun vs hvs => guards.on_path hn hw hvs⟩

namespace Program

theorem formed_of_assemble {program : Program} (hb : story.build table supply = .ok scenes)
    (ha : assemble story scenes scenes.supply = .ok program) (hg : program.graph = some g) :
    g.Formed (∀ s ∈ story.scenes, Branching table (bodyNodes s.body)) := by
  obtain ⟨entry, x, -, hscenes, hfound⟩ := expandScenes_of_assemble ha hg
  exact expandScenes_formed hscenes (SceneGraphs.separate_build hb) (stocked_build hb _)
    (fun _ _ => SceneGraphs.formed hb) (by simp) _ (mem_of_graph? hfound)

end Program

theorem branching_of_bind {config : Config.StoryConfig} {path : String}
    (hbind : config.bind path = .ok (story, table))
    (hcases : ∀ area name cases, .stmt (.branchOn area name cases) ∈ story.nodes →
      table.declared? name = none → cases ≠ []) :
    ∀ s ∈ story.scenes, Branching table (bodyNodes s.body) := by
  intro s hs area name cases hm
  unfold Stmt.Branches
  split <;> rename_i hx
  · refine hcases area name cases ?_ hx
    exact List.mem_append_left _ (List.mem_flatMap.2 ⟨s, hs, List.mem_append_left _ hm⟩)
  · exact Config.optionNames_ne_nil_of_bind hbind hx

/-- Every graph of a bound story is regular. -/
theorem regular_of_bind {config : Config.StoryConfig} {path : String}
    (hbind : config.bind path = .ok (story, table))
    (hcases : ∀ area name cases, .stmt (.branchOn area name cases) ∈ story.nodes →
      table.declared? name = none → cases ≠ []) :
    (∀ s ∈ story.scenes, ∀ supply built g, s.build table supply = .ok built → built.graph = some g →
      g.Regular) ∧
    ∀ supply scenes program g, story.build table supply = .ok scenes →
      Program.assemble story scenes scenes.supply = .ok program → program.graph = some g →
      g.Regular := by
  have branching := branching_of_bind hbind hcases
  constructor
  · intro s hs supply built g hbuild hg
    obtain ⟨d, hd, ⟨hp, -, hbg, -⟩ | ⟨-, hbg, -⟩⟩ := Scene.build_cases hbuild
    · cases hg.symm.trans hbg
      have shaped := Scene.draft_shaped hd
      have formed : g.Formed (Scene.Lawful table s.name s.body) := ⟨shaped.looped, shaped.live⟩
      exact formed.regular ⟨hp, branching s hs⟩ (Scene.draft_renders hd).whole
    · cases hg.symm.trans hbg
  · intro supply scenes program g hb ha hg
    obtain ⟨entry, -, expanded⟩ := Program.expanded_of_assemble hb ha hg
    exact (Program.formed_of_assemble hb ha hg).regular branching expanded.whole

def TreeNode.branches (table : SymbolTable) : TreeNode → Bool
  | .stmt (.branchOn _ name cases) => (table.declared? name).isSome || !cases.isEmpty
  | _ => true

theorem cases_of_branches (h : story.nodes.all (TreeNode.branches table) = true) (area : TextArea)
    (name : String) (cases : List BranchCase) (hm : .stmt (.branchOn area name cases) ∈ story.nodes)
    (hno : table.declared? name = none) : cases ≠ [] := by
  have hnode := List.all_eq_true.1 h _ hm
  simpa [TreeNode.branches, hno] using hnode

/-- A loop whose way back begins with a call of a scene without statements, in a branch on a name that is
not declared. -/
def stroll : Config.StoryConfig where
  scenes := [
    some ⟨"home", true, "", [
      some (.menu "" .loopSwitch "Well?" [
        some ⟨"walk", true, "", [
          some (.branchOn "" "weather" [
            some ⟨some ["sun"], false, "", [some (.text "" .call (some "road"))]⟩,
            some ⟨none, true, "", [some (.text "" .output (some "rain"))]⟩]),
          some (.text "" .call (some "road"))]⟩,
        some ⟨"rest", false, "", []⟩])]⟩,
    some ⟨"road", false, "", []⟩]

theorem regular_of_bind_stroll : ∃ story table scenes program g,
    stroll.bind "tale" = .ok (story, table) ∧ story.build table {} = .ok scenes ∧
      Program.assemble story scenes scenes.supply = .ok program ∧ program.graph = some g ∧
      g.edges? 1 = some [⟨0, true⟩, ⟨3, false⟩] ∧ g.Regular := by
  have checked : (stroll.bind "tale").toOption.any
      (fun r => r.1.nodes.all (TreeNode.branches r.2)) = true := by decide +kernel
  have assembled : ((stroll.bind "tale").toOption.bind fun r => (r.1.build r.2 {}).toOption.bind fun scenes =>
      (Program.assemble r.1 scenes scenes.supply).toOption.bind fun program =>
        program.graph.bind fun g => g.edges? 1) = some [⟨0, true⟩, ⟨3, false⟩] := by decide +kernel
  obtain ⟨⟨story, table⟩, hbind, assembled⟩ := ok_of_toOption_bind assembled
  obtain ⟨scenes, hb, assembled⟩ := ok_of_toOption_bind assembled
  obtain ⟨program, ha, assembled⟩ := ok_of_toOption_bind assembled
  obtain ⟨g, hg, hedges⟩ := Option.bind_eq_some_iff.1 assembled
  refine ⟨story, table, scenes, program, g, hbind, hb, ha, hg, hedges, ?_⟩
  rw [hbind] at checked
  exact (regular_of_bind hbind (cases_of_branches checked)).2 {} scenes program g hb ha hg

end StoryFlow
