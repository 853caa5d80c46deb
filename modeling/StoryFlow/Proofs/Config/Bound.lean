import StoryFlow.Analysis
import StoryFlow.Proofs.Calls.Withholding
import StoryFlow.Proofs.Config.Scenes
import StoryFlow.Proofs.Flow.Totality

/-! What is known of every bound story. The stages behind the binding rely on it: the analysis can be
prepared, and it finds the scene in which the story begins. -/

namespace StoryFlow

variable {story : Story} {table : SymbolTable}

theorem SymbolTable.scene?_of_symbols (symbols : table.scenes = story.scenes.map Scene.symbol)
    (distinct : (story.scenes.map Scene.name).Nodup) {s : Scene} (hs : s ∈ story.scenes) :
    table.scene? s.name = some s.symbol := by
  have found : story.scenes.find? (·.name == s.name) = some s := Story.scene?_of_mem distinct hs
  rw [SymbolTable.scene?, symbols, List.find?_map]
  exact congrArg (Option.map Scene.symbol) found

namespace Analysis

theorem declareScenes_declared {seen : List String} {list : List Scene}
    (known : ∀ s ∈ list, table.scene? s.name = some s.symbol)
    (distinct : (list.map Scene.name).Nodup) (fresh : ∀ s ∈ list, s.name ∉ seen) :
    declareScenes seen table list = .ok table := by
  induction list generalizing seen with
  | nil => rfl
  | cons s rest ih =>
    rw [List.map_cons, List.nodup_cons] at distinct
    have first := known s List.mem_cons_self
    have unseen : seen.contains s.name = false := by
      simpa using fresh s List.mem_cons_self
    have later : ∀ x ∈ rest, x.name ∉ s.name :: seen := by
      intro x hx
      rw [List.mem_cons, not_or]
      refine ⟨fun heq => distinct.1 ?_, fresh x (List.mem_cons_of_mem _ hx)⟩
      exact List.mem_map.2 ⟨x, hx, heq⟩
    rw [declareScenes, unseen, first]
    simp only [Bool.false_eq_true, if_false, Scene.symbol, if_true]
    exact ih (fun x hx => known x (List.mem_cons_of_mem _ hx)) distinct.2 later

theorem prepare_declared (symbols : table.scenes = story.scenes.map Scene.symbol)
    (distinct : (story.scenes.map Scene.name).Nodup) :
    prepare story table [] = .ok { story, table := table.copy } := by
  have declared : declareScenes [] table.copy story.scenes = .ok table.copy := by
    apply declareScenes_declared
    · intro s hs
      have same : table.copy.scenes = story.scenes.map Scene.symbol := symbols
      exact SymbolTable.scene?_of_symbols same distinct hs
    · exact distinct
    · intro s _
      exact List.not_mem_nil
  have whole : Part.firstMissing Part.ofAnalysis [] = none := rfl
  simp only [prepare, whole, declared]
  rfl

end Analysis

theorem Story.entryScene?_isSome (entry : story.entry ≠ "" → ∃ s ∈ story.scenes, s.name = story.entry)
    (some : story.scenes ≠ []) : story.entryScene?.isSome = true := by
  unfold entryScene?
  by_cases hentry : story.entry = ""
  · rw [if_pos (by simp [hentry]), List.isSome_head?]
    exact some
  · obtain ⟨s, hs, hname⟩ := entry hentry
    rw [if_neg (by simp [hentry]), Story.scene?, List.find?_isSome]
    exact ⟨s, hs, by simp [hname]⟩

namespace Config

/-- The story and the table are well formed, and they are what the written story stands for. -/
structure WellBound (config : StoryConfig) (path : String) (story : Story) (table : SymbolTable) :
    Prop where
  scenes : BindsScenes path config.scenes story.scenes
  named : ∀ s ∈ story.scenes, s.name ≠ ""
  distinct : (story.scenes.map Scene.name).Nodup
  symbols : table.scenes = story.scenes.map Scene.symbol
  declared : Declares config table
  sound : table.Sound
  lawful : ∀ s ∈ story.scenes, ∀ node ∈ bodyNodes s.body, node.Lawful
  entry : story.entry = config.entry
  entered : story.entry ≠ "" → ∃ s ∈ story.scenes, s.name = story.entry

/-- What is bound is well formed; so an analysis of it can be prepared, and it has a scene to begin with
unless it has no scenes. -/
theorem wellBound_of_bind {config : StoryConfig} {path : String}
    (h : config.bind path = .ok (story, table)) :
    WellBound config path story table ∧
      Analysis.prepare story table [] = .ok { story, table := table.copy } ∧
      (story.scenes ≠ [] → story.entryScene?.isSome = true) := by
  obtain ⟨first, -, hscenes, hentry, hfound⟩ := bind_ok h
  obtain ⟨binds, -, each⟩ := bindScenes_ok hscenes
  have distinct := (scenes_of_bind h).2
  have symbols := symbols_of_bind h
  have entered : story.entry ≠ "" → ∃ s ∈ story.scenes, s.name = story.entry := by
    intro hne
    obtain ⟨s, hs⟩ := Option.isSome_iff_exists.1 (hfound hne)
    exact ⟨s, Story.mem_of_scene? hs⟩
  refine ⟨?_, Analysis.prepare_declared symbols distinct, Story.entryScene?_isSome entered⟩
  exact {
    scenes := binds
    named := fun s hs => (each s hs).1
    distinct := distinct
    symbols := symbols
    declared := declares_of_bind h
    sound := sound_of_bind h
    lawful := fun s hs => (each s hs).2
    entry := hentry
    entered := entered }

/-- A branch is inside an if, that is inside an option, and the story does not begin with its first
scene. -/
def harbor : StoryConfig where
  entry := "quay"
  outcomes := [some { name := "tide", options := some ["high", "low"], fallback := "low" }]
  spectrums := [some { name := "nerve", bands := [some { name := "steady" }] }]
  scenes := [
    some ⟨"deck", true, "2:1", [some (.text "" .weaken (some "nerve"))]⟩,
    some ⟨"quay", false, "", [
      some (.menu "4:1-9:3" .choose "Board?" [
        some ⟨"yes", false, "", [
          some (.ifElse "" [some ⟨"early", [
            some (.branchOn "" "tide" [
              some ⟨some ["high"], false, "", [some (.text "" .call (some "deck"))]⟩,
              some ⟨none, true, "", []⟩])]⟩]
            (some [some (.run "" ⟨"wait", none⟩)]))]⟩,
        some ⟨"no", false, "", []⟩])]⟩]

theorem wellBound_of_bind_harbor : ∃ story table,
    harbor.bind "tale" = .ok (story, table) ∧ story.entryScene?.map Scene.name = some "quay" ∧
      WellBound harbor "tale" story table ∧
      Analysis.prepare story table [] = .ok { story, table := table.copy } := by
  have bound : (harbor.bind "tale").toOption.bind (fun r => some (r.1.entryScene?.map Scene.name)) =
      some (some "quay") := by decide +kernel
  obtain ⟨⟨story, table⟩, hbind, hentry⟩ := ok_of_toOption_bind bound
  obtain ⟨well, prepared, -⟩ := wellBound_of_bind hbind
  exact ⟨story, table, hbind, Option.some.inj hentry, well, prepared⟩

end Config

end StoryFlow
