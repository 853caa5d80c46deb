import StoryFlow.Proofs.Calls.Cycles
import StoryFlow.Proofs.Calls.Inlining
import StoryFlow.Proofs.Scene.Building
import StoryFlow.Proofs.Scene.Shape

/-! Putting the program graph together. Replacing a call keeps the shape of a graph, and a call has no
edge to itself, so it can be replaced as soon as its scene is expanded. Since callees are expanded first,
this never fails for a story without cycles. -/

namespace StoryFlow

open StoryFlow.Flow
open StoryFlow.Flow.Graph
open Relation

namespace Flow.Graph

variable {b c d g r : Graph} {lawful : Prop} {operation : Nat} {p : VertexId} {v : Vertex}
  {es : List Edge}

/-- What the graph of a scene has in common with the graph of the program. -/
structure Formed (lawful : Prop) (g : Graph) : Prop where
  looped : g.SelfLooped
  live : lawful → g.Live

theorem Formed.copy {ρ : VertexId → VertexId} (h : g.Formed lawful) (hc : c.CopyOf g ρ)
    (hg : g.Whole) : c.Formed lawful :=
  ⟨h.looped.copy hc hg, fun hl => (h.live hl).copy hc⟩

theorem Formed.replace (h : g.Formed lawful) (hb : b.Formed lawful)
    (hr : Replaces operation g p b r v es c d) (hgw : g.Whole) (hbw : b.Whole) (hgb : g.Apart b)
    (hv : ¬v.LoopPrompt) : r.Formed lawful :=
  ⟨.replace hr hgw hbw hgb h.looped hb.looped hv,
    fun hl => .replace hr (h.live hl) (hb.live hl) hgw.wf hbw.wf hgb⟩

def Makes (g : Graph) (callee : String) : Prop :=
  ∃ id v es, g.node? id = some (v, es) ∧ v.callee? = some callee

end Flow.Graph

theorem Flow.Vertex.not_loopPrompt {v : Vertex} {callee : String} (h : v.callee? = some callee) :
    ¬v.LoopPrompt := by
  rintro ⟨area, prompt, options, hv⟩
  rw [Vertex.callee?, hv] at h
  cases h

theorem node?_of_vertex? {g : Graph} {p : VertexId} {callee : String}
    (h : (g.vertex? p).bind Vertex.callee? = some callee) :
    ∃ v es, g.node? p = some (v, es) ∧ v.callee? = some callee := by
  obtain ⟨v, hv, hc⟩ := Option.bind_eq_some_iff.1 h
  obtain ⟨e, he, rfl⟩ := Option.map_eq_some_iff.1 hv
  exact ⟨e.vertex, e.edges, by rw [node?, he]; rfl, hc⟩

namespace Program

variable {graphs : SceneGraphs} {x x' : Expansion} {lawful : Prop} {caller callee name : String}
  {p : VertexId} {ids : List VertexId} {g g' : Graph} {live : List Graph} {names : List String}

theorem expandCall_formed (h : expandCall caller callee p g x = .ok (g', x'))
    (hx : Stocked graphs x (g :: live)) (hg : Expanding graphs name (p :: ids) g)
    (hp : (g.vertex? p).bind Vertex.callee? = some callee) (hf : g.Formed lawful)
    (hs : ∀ q ∈ x.graphs, q.2.Formed lawful) :
    g'.Formed lawful ∧ x'.graphs = x.graphs ∧ ∀ other, g'.Makes other → g.Makes other := by
  obtain ⟨b, c, s₁, _, hb, hc, hr, hgraphs, -, -⟩ := expandCall_cases h
  have hm := mem_of_graph? hb
  have hbe := hx.expanded _ hm
  have supplied := supplied_ok hbe.whole hc
  obtain ⟨ρ, hcopy⟩ := supplied.copy
  have hce := hbe.copy hcopy
  have hgc := (supplied.apart hx hm).1 g List.mem_cons_self
  obtain ⟨v, es, c', d, hrep⟩ := replace_ok (perform_ok hr).1
  obtain ⟨w, ds, hn, hcall⟩ := node?_of_vertex? hp
  cases hn.symm.trans hrep.node
  refine ⟨?_, hgraphs, ?_⟩
  · exact hf.replace ((hs _ hm).copy hcopy hbe.whole) hrep hg.whole hce.whole hgc
      (Vertex.not_loopPrompt hcall)
  · rintro other ⟨id, u, fs, hu, hother⟩
    obtain ⟨-, ks, hu⟩ := call_kept hrep hce hu (by simp [hother])
    exact ⟨id, u, ks, hu, hother⟩

theorem expandCalls_formed (h : expandCalls caller ids g x = .ok (g', x'))
    (hx : Stocked graphs x (g :: live)) (hg : Expanding graphs name ids g) (hf : g.Formed lawful)
    (hs : ∀ q ∈ x.graphs, q.2.Formed lawful) : g'.Formed lawful ∧ x'.graphs = x.graphs := by
  induction ids generalizing g x with
  | nil =>
    cases h
    exact ⟨hf, rfl⟩
  | cons p ids ih =>
    unfold expandCalls at h
    split at h <;> rename_i hp
    · exact ih h hx (hg.skip hp) hf hs
    · obtain ⟨⟨g₁, x₁⟩, hcall, h₁⟩ := ok_of_bind_ok h
      obtain ⟨hg₁, hx₁⟩ := expandCall_ok hcall hx hg hp
      obtain ⟨hf₁, hgraphs, -⟩ := expandCall_formed hcall hx hg hp hf hs
      obtain ⟨hf', hgraphs'⟩ := ih h₁ hx₁ hg₁ hf₁ (hgraphs ▸ hs)
      exact ⟨hf', hgraphs'.trans hgraphs⟩

theorem ofFault_total {α : Type} {y : Except Fault α} (h : ∃ a, y = .ok a) :
    ∃ a, Defect.ofFault y = .ok a := by
  obtain ⟨a, rfl⟩ := h
  exact ⟨a, rfl⟩

theorem expandCall_total (hx : Stocked graphs x (g :: live)) (hg : Expanding graphs name (p :: ids) g)
    (hf : g.Formed lawful) (hp : (g.vertex? p).bind Vertex.callee? = some callee)
    (hb : ∃ b, x.graph? callee = some b) : ∃ r, expandCall caller callee p g x = .ok r := by
  obtain ⟨b, hb⟩ := hb
  have hm := mem_of_graph? hb
  have hw := (hx.expanded _ hm).whole
  obtain ⟨v, es, hn, hcall⟩ := node?_of_vertex? hp
  have noLoop := hf.looped.target_ne hg.whole.wf hn (Vertex.not_loopPrompt hcall)
  have fits : ∀ c s, Supplied x callee b c s →
      ∃ r, s.perform (fun operation => g.replace operation p c) = .ok r := by
    intro c s supplied
    obtain ⟨ρ, hcopy⟩ := supplied.copy
    have apart := (supplied.apart hx hm).1 g List.mem_cons_self
    exact perform_total (replace_total hn noLoop apart (hcopy.whole hw).wf)
  have supplied := fun c s => @supplied_ok x caller callee b c s hw
  unfold expandCall
  rw [hb]
  apply ofFault_total
  dsimp only
  split <;> rename_i hused
  · apply bind_total (perform_total (relabel_total (fun v => ⟨_, rfl⟩) hw))
    intro ⟨c, s⟩ hc
    apply bind_total (fits c s (supplied c s (by rw [if_pos hused]; exact hc)))
    intro r _
    exact ⟨_, rfl⟩
  · apply bind_total (perform_total (map_total (fun v => ⟨v.nested caller, rfl, rfl⟩) hw.wf))
    intro ⟨c, s⟩ hc
    apply bind_total (fits c s (supplied c s (by rw [if_neg hused]; exact hc)))
    intro r _
    exact ⟨_, rfl⟩

theorem expandCalls_total (hx : Stocked graphs x (g :: live)) (hg : Expanding graphs name ids g)
    (hf : g.Formed lawful) (hs : ∀ q ∈ x.graphs, q.2.Formed lawful)
    (hc : ∀ callee, g.Makes callee → ∃ b, x.graph? callee = some b) :
    ∃ r, expandCalls caller ids g x = .ok r := by
  induction ids generalizing g x with
  | nil => exact ⟨(g, x), rfl⟩
  | cons p ids ih =>
    unfold expandCalls
    split <;> rename_i hp
    · exact ih hx (hg.skip hp) hf hs hc
    · obtain ⟨v, es, hn, hcall⟩ := node?_of_vertex? hp
      apply bind_total (expandCall_total hx hg hf hp (hc _ ⟨p, v, es, hn, hcall⟩))
      intro ⟨g₁, x₁⟩ hcall
      obtain ⟨hg₁, hx₁⟩ := expandCall_ok hcall hx hg hp
      obtain ⟨hf₁, hgraphs, hmakes⟩ := expandCall_formed hcall hx hg hp hf hs
      refine ih hx₁ hg₁ hf₁ (hgraphs ▸ hs) fun callee hm => ?_
      rw [Expansion.graph?, hgraphs]
      exact hc callee (hmakes callee hm)

theorem expandScenes_formed (h : expandScenes graphs names x = .ok x') (hs : graphs.Separate)
    (hx : Stocked graphs x (names.filterMap graphs.graph?))
    (hg : ∀ name g, graphs.graph? name = some g → g.Formed lawful)
    (hf : ∀ q ∈ x.graphs, q.2.Formed lawful) : ∀ q ∈ x'.graphs, q.2.Formed lawful := by
  induction names generalizing x with
  | nil =>
    cases h
    exact hf
  | cons name rest ih =>
    unfold expandScenes at h
    split at h <;> rename_i g hfound
    · cases h
    obtain ⟨⟨g', x₁⟩, hcalls, h₁⟩ := ok_of_bind_ok h
    rw [List.filterMap_cons_some hfound] at hx
    have hstart := Expanding.start hfound (hs.whole _ (SceneGraphs.mem_of_graph? hfound) g rfl)
    obtain ⟨hg', hx₁⟩ := expandCalls_ok hcalls hx hstart
    obtain ⟨hf', hgraphs⟩ := expandCalls_formed hcalls hx hstart (hg name g hfound) hf
    exact ih h₁ (hx₁.store hg') (List.forall_mem_cons.2 ⟨hf', hgraphs ▸ hf⟩)

theorem Expansion.graph?_store {other : String} :
    (∃ b, ({ x with graphs := (name, g) :: x.graphs } : Expansion).graph? other = some b) ↔
      other = name ∨ ∃ b, x.graph? other = some b := by
  unfold Expansion.graph?
  by_cases hname : name = other
  · subst hname
    simp
  · rw [List.find?_cons_of_neg (by simpa using hname)]
    simp [Ne.symm hname]

/-- Scenes can be expanded in an order that has callees before callers. -/
theorem expandScenes_total (hs : graphs.Separate)
    (hx : Stocked graphs x (names.filterMap graphs.graph?))
    (hg : ∀ name g, graphs.graph? name = some g → g.Formed lawful)
    (hf : ∀ q ∈ x.graphs, q.2.Formed lawful) (hn : ∀ name ∈ names, ∃ g, graphs.graph? name = some g)
    (hc : ∀ l name r g, names = l ++ name :: r → graphs.graph? name = some g →
      ∀ callee, g.Makes callee → callee ∈ l ∨ ∃ b, x.graph? callee = some b) :
    ∃ x', expandScenes graphs names x = .ok x' ∧
      ∀ name, name ∈ names ∨ (∃ b, x.graph? name = some b) → ∃ b, x'.graph? name = some b := by
  induction names generalizing x with
  | nil => exact ⟨x, rfl, fun name h => h.resolve_left (by simp)⟩
  | cons name rest ih =>
    obtain ⟨⟨g, hfound⟩, hrest⟩ := List.forall_mem_cons.1 hn
    rw [List.filterMap_cons_some hfound] at hx
    have hstart := Expanding.start hfound (hs.whole _ (SceneGraphs.mem_of_graph? hfound) g rfl)
    have first : ∀ callee, g.Makes callee → ∃ b, x.graph? callee = some b := by
      intro callee hm
      exact (hc [] name rest g rfl hfound callee hm).resolve_left (by simp)
    obtain ⟨⟨g', x₁⟩, hcalls⟩ := expandCalls_total hx hstart (hg name g hfound) hf first
    obtain ⟨hg', hx₁⟩ := expandCalls_ok hcalls hx hstart
    obtain ⟨hf', hgraphs⟩ := expandCalls_formed hcalls hx hstart (hg name g hfound) hf
    have known : ∀ other, (∃ b, ({ x₁ with graphs := (name, g') :: x₁.graphs } : Expansion).graph? other
        = some b) ↔ other = name ∨ ∃ b, x.graph? other = some b := by
      intro other
      rw [Expansion.graph?_store]
      unfold Expansion.graph?
      rw [hgraphs]
    obtain ⟨x', hx', hall⟩ := ih (hx₁.store hg') (List.forall_mem_cons.2 ⟨hf', hgraphs ▸ hf⟩) hrest
      (by
        intro l other r h heq hh callee hm
        rw [known]
        rcases hc (name :: l) other r h (heq ▸ rfl) hh callee hm with hin | hin
        · rcases List.mem_cons.1 hin with rfl | hin
          · exact Or.inr (Or.inl rfl)
          · exact Or.inl hin
        · exact Or.inr (Or.inr hin))
    refine ⟨x', ?_, fun other hother => hall other ?_⟩
    · unfold expandScenes
      rw [hfound]
      dsimp only
      rw [hcalls]
      exact hx'
    · rw [known, List.mem_cons] at *
      tauto

end Program

end StoryFlow
