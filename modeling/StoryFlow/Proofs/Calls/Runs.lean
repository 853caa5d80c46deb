import StoryFlow.Proofs.Calls.Inlining

/-! Runs of a story are found in its program graph. What is left to do at any point of a run consists of
statements of the scenes that were called and are not done yet, innermost first; step by step, backwards
from the statement that the run comes to, this is traced to the entry scene with its calls unfolded. -/

namespace StoryFlow

open StoryFlow.Flow
open StoryFlow.Flow.Graph

variable {table : SymbolTable} {story : Story} {scenes : SceneGraphs} {u v : List Stmt} {t : Stmt}

structure Scene.Meant (table : SymbolTable) (s : Scene) (g : Graph) : Prop where
  words : g.words = bodyExecutions table s.statements
  passes : ∀ u t, Begins table s.statements u t → g.Passes u t

theorem Scene.meant_of_build {s : Scene} {supply : Supply} {built : Scene.Built}
    (h : s.build table supply = .ok built) (hp : built.problems = []) :
    ∃ g, built.graph = some g ∧ s.Meant table g := by
  obtain ⟨g, hd, ⟨hs, -, hg, -⟩ | ⟨hs, -, hb⟩⟩ := Scene.build_cases h
  · have hr := Scene.draft_renders hd
    exact ⟨g, hg, by rw [hr.words hs, Scene.bodyExecutions_statements], hr.passes hs⟩
  · exact absurd (hb.symm.trans hp) hs

namespace SceneGraphs

theorem graph?_of_mem {name : String} {g : Graph} (hd : (scenes.graphs.map Prod.fst).Nodup)
    (h : (name, some g) ∈ scenes.graphs) : scenes.graph? name = some g := by
  have one : scenes.graphs.reverse.Pairwise fun p q =>
      ¬((p.1 == name) = true ∧ (q.1 == name) = true) := by
    rw [List.pairwise_reverse]
    refine (List.pairwise_map.1 hd).imp fun {p q} hne hboth => hne ?_
    rw [eq_of_beq hboth.1, eq_of_beq hboth.2]
  rw [graph?, Scene.find?_eq_some_of_pairwise one (List.mem_reverse.2 h) (beq_self_eq_true name)]
  rfl

theorem meant_of_buildFrom {list : List Scene} {done : SceneGraphs}
    (h : buildFrom table done list = .ok scenes) (hp : scenes.problems = []) :
    done.problems = [] ∧ done.graphs ⊆ scenes.graphs ∧
      scenes.graphs.map Prod.fst = done.graphs.map Prod.fst ++ list.map Scene.name ∧
      ∀ s ∈ list, ∃ g, (s.name, some g) ∈ scenes.graphs ∧ s.Meant table g := by
  induction list generalizing done with
  | nil =>
    cases h
    exact ⟨hp, List.Subset.refl _, (List.append_nil _).symm, by simp⟩
  | cons s rest ih =>
    rw [buildFrom] at h
    obtain ⟨built, hb, h₁⟩ := ok_of_bind_ok h
    obtain ⟨hdone, hsub, hnames, hall⟩ := ih h₁
    obtain ⟨hdone, hown⟩ := List.append_eq_nil_iff.1 hdone
    obtain ⟨hold, hnew⟩ := List.append_subset.1 hsub
    obtain ⟨g, hg, hm⟩ := Scene.meant_of_build hb hown
    refine ⟨hdone, hold, by simpa using hnames, List.forall_mem_cons.2 ⟨⟨g, ?_, hm⟩, hall⟩⟩
    exact hg ▸ hnew (List.mem_singleton_self _)

theorem meant_of_build {supply : Supply} (h : story.build table supply = .ok scenes)
    (hp : scenes.problems = []) (hd : (story.scenes.map Scene.name).Nodup) :
    ∀ s ∈ story.scenes, ∃ g, scenes.graph? s.name = some g ∧ s.Meant table g := by
  obtain ⟨-, -, hnames, hall⟩ := meant_of_buildFrom h hp
  intro s hs
  obtain ⟨g, hg, hm⟩ := hall s hs
  refine ⟨g, graph?_of_mem ?_ hg, hm⟩
  rw [hnames]
  exact hd

end SceneGraphs

namespace Story

theorem arrivesIn_of_call {area : TextArea} {scene : Scene} {rest : List Stmt} {g : Graph}
    (hg : scenes.graph? scene.name = some g) (hm : scene.Meant table g)
    (ha : ArrivesIn scenes (Begins table (scene.statements ++ rest)) u t) :
    ArrivesIn scenes (Begins table (.plain area (.call scene.name) :: rest)) u t := by
  have inside : Arrives scenes scene.name u t →
      ArrivesIn scenes (Begins table (.plain area (.call scene.name) :: rest)) u t := by
    intro ha
    exact Or.inr ⟨[], _, scene.name, [], u, .here trivial, rfl, .nil, ha, rfl⟩
  have after : ∀ x y e s, x ∈ bodyExecutions table scene.statements → Begins table rest y s →
      Unfolds scenes (x ++ y) e → ∃ w, Begins table (.plain area (.call scene.name) :: rest) w s ∧
        Unfolds scenes w e := by
    intro x y e s hx hy he
    obtain ⟨e₁, e₂, rfl, he₁, he₂⟩ := unfolds_append.1 he
    rw [← hm.words] at hx
    exact ⟨[_] ++ y, .next rfl hy, .call rfl hg hx he₁ he₂⟩
  rcases ha with ⟨w, hb, ht, hu⟩ | ⟨w, c, callee, u₁, u₂, hb, ht, hu, ha, rfl⟩
  · rcases hb.of_append with hb | ⟨x, y, rfl, hx, hy⟩
    · exact inside (.here hg (hm.passes _ _ hb) ht hu)
    · obtain ⟨w, hw, hu⟩ := after x y u t hx hy hu
      exact Or.inl ⟨w, hw, ht, hu⟩
  · rcases hb.of_append with hb | ⟨x, y, rfl, hx, hy⟩
    · exact inside (.inside hg (hm.passes _ _ hb) ht hu ha)
    · obtain ⟨w, hw, hu⟩ := after x y u₁ c hx hy hu
      exact Or.inr ⟨w, c, callee, u₁, u₂, hw, ht, hu, ha, rfl⟩

theorem Step.arrivesIn {todo rest : List Stmt} (h : story.Step table todo v rest)
    (hm : ∀ s ∈ story.scenes, ∃ g, scenes.graph? s.name = some g ∧ s.Meant table g)
    (ha : ArrivesIn scenes (Begins table rest) u t) :
    ArrivesIn scenes (Begins table todo) (v ++ u) t := by
  rcases h.call_or with ⟨area, name, scene, more, rfl, hscene, rfl, rfl⟩ | hc
  · obtain ⟨hs, rfl⟩ := mem_of_scene? hscene
    obtain ⟨g, hg, hmeant⟩ := hm scene hs
    exact arrivesIn_of_call hg hmeant ha
  · have hv : ∀ s ∈ v, s.callee? = none := by
      intro s hs
      rcases h.carried with rfl | ⟨s', more, rfl, rfl, -, hs'⟩
      · cases hs
      · rwa [List.mem_singleton.1 hs]
    have hown : Unfolds scenes v v := (unfolds_iff_of_no_call hv).2 rfl
    rcases ha with ⟨w, hb, ht, hu⟩ | ⟨w, c, callee, u₁, u₂, hb, ht, hu, ha, rfl⟩
    · exact Or.inl ⟨v ++ w, hb.of_step h hc, ht, unfolds_append.2 ⟨v, u, rfl, hown, hu⟩⟩
    · refine Or.inr ⟨v ++ w, c, callee, v ++ u₁, u₂, hb.of_step h hc, ht, ?_, ha, ?_⟩
      · exact unfolds_append.2 ⟨v, u₁, rfl, hown, hu⟩
      · exact (List.append_assoc ..).symm

theorem Runs.arrivesIn {todo rest : List Stmt} (h : story.Runs table todo u (t :: rest))
    (hm : ∀ s ∈ story.scenes, ∃ g, scenes.graph? s.name = some g ∧ s.Meant table g)
    (hs : t.IsStep) (hc : t.callee? = none) : ArrivesIn scenes (Begins table todo) u t := by
  generalize hend : t :: rest = last at h
  induction h with
  | stop =>
    subst hend
    exact Or.inl ⟨[], .here hs, hc, .nil⟩
  | step hstep _ ih => exact hstep.arrivesIn hm (ih hend)

/-- Whatever the story comes to, control comes to it in the program graph after the same statements. -/
theorem Comes.passes {supply : Supply} {program : Program} {g : Graph}
    (h : story.Comes table u t) (hb : story.build table supply = .ok scenes)
    (hp : scenes.problems = []) (hd : (story.scenes.map Scene.name).Nodup)
    (ha : Program.assemble story scenes scenes.supply = .ok program)
    (hg : program.graph = some g) : g.Passes u t := by
  obtain ⟨entry, rest, hentry, hruns, hs, hc⟩ := h
  obtain ⟨entry', hentry', he⟩ := Program.expanded_of_assemble hb ha hg
  cases hentry.symm.trans hentry'
  have hm := SceneGraphs.meant_of_build hb hp hd
  obtain ⟨d, hd, hmeant⟩ := hm entry (mem_of_entryScene? hentry)
  have harrives := (hruns.arrivesIn hm hs hc).mono hmeant.passes
  exact he.passes u t ((arrives_iff hd).2 harrives)

end Story

end StoryFlow
