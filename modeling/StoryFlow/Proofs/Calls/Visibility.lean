import StoryFlow.Proofs.Calls.Form
import StoryFlow.Proofs.Calls.Provenance
import StoryFlow.Proofs.Flow.View

/-! The visible view loses nothing that can be seen. Along the complete paths of the view control passes
what can be seen along those of the graph, as long as every cycle of the graph has something to see. A
program graph is such a graph, because a cycle needs a loop edge and a loop edge leads to a prompt. -/

namespace StoryFlow

open StoryFlow.Flow
open StoryFlow.Flow.Graph
open Relation

namespace Flow.Graph

variable {g r : Graph} {operation : Nat}

/-- Along the complete paths of the one graph control passes what can be seen along those of the other
one, and it has no cycle without a loop edge unless the other one has. -/
structure Shows (r g : Graph) : Prop where
  reaches : ∀ us, r.Reaches us sink ↔ ∃ vs, g.Reaches vs sink ∧ vs.filter Vertex.visible = us
  acyclic : (∀ id, ¬TransGen g.Forward id id) → ∀ id, ¬TransGen r.Forward id id

theorem Viewable.shows_view (hg : g.Viewable) (operation : Nat) :
    ∃ r, removeInvisible operation g = .ok r ∧ r.Shows g := by
  obtain ⟨r, hr, hview⟩ := hg.view operation
  have outside : g.node? sink = none := by
    rw [node?_eq_none_iff]
    by_contra hs
    exact absurd (hg.real sink (by simpa using hs)) (by decide)
  exact ⟨r, hr, fun us => hview.leads_iff outside hview.start, hview.acyclic hg.real⟩

def Apparent (g : Graph) : Prop := ∀ id v, g.Holds id v → v.visible = v.stmt.any Stmt.visible

/-- Every cycle has a loop edge, which leads to a prompt, and prompts can be seen. -/
theorem Looped.clear (h : g.SelfLooped) (ha : g.Apparent) (id : VertexId) : ¬TransGen g.Hidden id id := by
  have forward : ∀ a b, g.Hidden a b → g.Forward a b := by
    rintro a b ⟨-, ⟨w, ds, hw, hunseen⟩, v, es, hn, e, he, rfl, hb⟩
    refine ⟨v, es, hn, e, he, ?_, rfl, hb⟩
    rw [← Bool.not_eq_true]
    intro hloop
    rcases h.loops _ e (EdgeFrom.node hn he) hloop with hback | ⟨-, -, ⟨w', ds', hw', area, prompt, options, hstmt⟩, -⟩
    · exact hback
    · cases hw.symm.trans hw'
      rw [ha _ w ⟨ds, hw⟩, hstmt] at hunseen
      cases hunseen
  exact fun hcycle => h.acyclic id (TransGen.mono forward id id hcycle)

end Flow.Graph

namespace Program

variable {table : SymbolTable} {story : Story} {supply : Supply} {scenes : SceneGraphs}
  {program : Program} {g : Graph}

theorem apparent_of_assemble (hb : story.build table supply = .ok scenes)
    (ha : assemble story scenes scenes.supply = .ok program) (hg : program.graph = some g) :
    g.Apparent := by
  obtain ⟨entry, x, copies, -, last, -, traced, -, -⟩ := traced_of_assemble hb ha hg
  intro id v hv
  have copied := (traced.copied _ last).copies
  obtain ⟨q, scene, w, ho, rfl⟩ := copied.onto id hv.has
  rw [hv.unique (copied.into _ _ _ ho)]
  obtain ⟨h, hh, hw⟩ := ho.held
  have made := Story.madeIn_of_build hb hh _ _ hw
  rw [made]
  rfl

theorem viewable_of_assemble (hb : story.build table supply = .ok scenes)
    (ha : assemble story scenes scenes.supply = .ok program) (hg : program.graph = some g) :
    g.Viewable := by
  obtain ⟨_, -, expanded⟩ := expanded_of_assemble hb ha hg
  refine ⟨expanded.whole.valid, fun id hid => ?_, ?_⟩
  · obtain ⟨x, hx⟩ := has_iff.1 hid
    exact expanded.whole.wf.real id x hx
  · exact (formed_of_assemble hb ha hg).looped.clear (apparent_of_assemble hb ha hg)

/-- The view of a valid graph whose cycles all have something to see shows what the graph does, and adds no
cycle. This holds of every program graph, and its view has no cycle without a loop edge. -/
theorem view_shows :
    (∀ (g : Graph) (operation : Nat), (∀ id, g.has id = true → 0 ≤ id) → g.problems = [] →
      (∀ id, ¬TransGen g.Hidden id id) → ∃ r, removeInvisible operation g = .ok r ∧ r.Shows g) ∧
    ∀ (table : SymbolTable) (story : Story) (supply : Supply) (scenes : SceneGraphs) (program : Program)
      (g : Graph), story.build table supply = .ok scenes →
      assemble story scenes scenes.supply = .ok program → program.graph = some g →
      ∀ operation, ∃ r, removeInvisible operation g = .ok r ∧ r.Shows g ∧
        ∀ id, ¬TransGen r.Forward id id := by
  refine ⟨fun g operation hreal hproblems hclear => ?_,
    fun table story supply scenes program g hb ha hg operation => ?_⟩
  · have viewable : g.Viewable := ⟨valid_of_problems hproblems, hreal, hclear⟩
    exact viewable.shows_view operation
  · obtain ⟨r, hr, hshows⟩ := (viewable_of_assemble hb ha hg).shows_view operation
    exact ⟨r, hr, hshows, hshows.acyclic (formed_of_assemble hb ha hg).looped.acyclic⟩

/-- What is set is not seen, neither in the loop nor in the scene that is called from it. -/
def vigil : Story where
  scenes := [
    ⟨{}, "home", true, [
      .menu {} .loopSwitch "Well?" [
        ⟨{}, "wait", true, [
          .ifElse {} [⟨"fog", [.plain {} (.assign "air" "damp"), .plain {} (.output "grey")]⟩] false [],
          .plain {} (.call "watch")]⟩,
        ⟨{}, "rest", false, []⟩],
      .plain {} (.call "watch")]⟩,
    ⟨{}, "watch", false, [
      .ifElse {} [⟨"fog", [.plain {} (.assign "air" "cold"), .plain {} (.output "horn")]⟩] false [],
      .plain {} (.output "calm")]⟩]

theorem view_shows_vigil : ∃ scenes program g r, vigil.build {} {} = .ok scenes ∧
    assemble vigil scenes scenes.supply = .ok program ∧ program.graph = some g ∧ g.size = 10 ∧
    g.problems = [] ∧ removeInvisible 0 g = .ok r ∧ r.size = 7 ∧ r.Shows g := by
  have viewed : (match vigil.build {} {} with
      | .error _ => none
      | .ok scenes =>
        match assemble vigil scenes scenes.supply with
        | .error _ => none
        | .ok program => program.graph.map fun g =>
          (g.size, g.problems.length, ((removeInvisible 0 g).map Graph.size).toOption)) =
        some (10, 0, some 7) := by decide +kernel
  split at viewed <;> rename_i scenes hb
  · cases viewed
  split at viewed <;> rename_i program ha
  · cases viewed
  obtain ⟨g, hg, heq⟩ := Option.map_eq_some_iff.1 viewed
  obtain ⟨hsize, hrest⟩ := Prod.mk.inj heq
  obtain ⟨hproblems, hview⟩ := Prod.mk.inj hrest
  have hproblems := List.length_eq_zero_iff.1 hproblems
  have viewable := viewable_of_assemble hb ha hg
  obtain ⟨r, hr, hshows⟩ := view_shows.1 g 0 viewable.real hproblems viewable.clear
  rw [hr] at hview
  refine ⟨scenes, program, g, r, hb, ha, hg, hsize, hproblems, hr, Option.some.inj hview, hshows⟩

end Program

end StoryFlow
