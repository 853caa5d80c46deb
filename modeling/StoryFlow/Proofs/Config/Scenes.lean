import StoryFlow.Proofs.Config.Bodies
import StoryFlow.Proofs.Config.Declarations
import StoryFlow.Proofs.Scene.Vertices

/-! The scenes of a bound story. Each is what a written scene stands for, no two of them have the same
name, and the table has a symbol for each and no other. -/

namespace StoryFlow

theorem cased_append {nodes nodes' : List TreeNode} :
    Cased (nodes ++ nodes') ↔ Cased nodes ∧ Cased nodes' := by
  constructor
  · exact fun h => ⟨h.mono (List.subset_append_left _ _), h.mono (List.subset_append_right _ _)⟩
  · rintro ⟨h, h'⟩ area name cases hm
    exact (List.mem_append.1 hm).elim (h area name cases) (h' area name cases)

theorem cased_of_lawful {nodes : List TreeNode} (h : ∀ node ∈ nodes, node.Lawful) : Cased nodes := by
  intro area name cases hm c hc
  rcases (h _ hm).2 c hc with ⟨hother, -⟩ | ⟨-, hnames⟩
  · exact Or.inl hother
  · exact Or.inr hnames

def Scene.symbol (s : Scene) : SceneSymbol := ⟨s.name, s.chapter⟩

namespace Config

theorem cased_plain {area : TextArea} {action : Action} : Cased (Stmt.plain area action).nodes :=
  cased_of_lawful lawful_plain

def Distinct (t : SymbolTable) : Prop := (t.scenes.map SceneSymbol.name).Nodup

theorem addScene_ok {table t : SymbolTable} {c : SceneSymbol} (ht : table.addScene c = .ok t) :
    t.scenes = table.scenes ++ [c] ∧ c.name ∉ table.scenes.map SceneSymbol.name := by
  unfold SymbolTable.addScene at ht
  split at ht <;> rename_i hfree
  · cases ht
  · cases ht
    refine ⟨rfl, fun hm => ?_⟩
    obtain ⟨d, hd, hn⟩ := List.mem_map.1 hm
    exact hfree (List.find?_isSome.2 ⟨d, hd, by simp [hn]⟩)

theorem Distinct.addScene {table t : SymbolTable} {c : SceneSymbol} (h : Distinct table)
    (ht : table.addScene c = .ok t) : Distinct t := by
  obtain ⟨hscenes, hfresh⟩ := addScene_ok ht
  unfold Distinct
  rw [hscenes, List.map_append, List.map_singleton, ← List.concat_eq_append]
  exact h.concat hfresh

theorem steady_scenes (P : List SceneSymbol → Prop) : Steady fun t => P t.scenes := by
  constructor
  · intro config o t t' _ ht h
    unfold SymbolTable.addOutcome at ht
    split at ht
    · cases ht
    · cases ht
      exact h
  · intro config s t t' _ ht h
    unfold SymbolTable.addSpectrum at ht
    split at ht
    · cases ht
    · cases ht
      exact h

theorem kept_distinct : Kept Distinct :=
  ⟨steady_scenes fun scenes => (scenes.map SceneSymbol.name).Nodup, fun ht h => h.addScene ht⟩

structure BindsScene (path : String) (c : SceneConfig) (s : Scene) : Prop where
  name : s.name = c.name
  chapter : s.chapter = c.chapter
  position : locate path c.place = .ok s.area
  body : BindsBody path c.body s.body

def BindsScenes (path : String) (list : List (Option SceneConfig)) (scenes : List Scene) : Prop :=
  List.Forall₂ (fun c s => ∃ x, c = some x ∧ BindsScene path x s) list scenes

theorem bindScenes_ok {path : String} {index : Nat} {table t : SymbolTable}
    {list : List (Option SceneConfig)} {scenes : List Scene}
    (h : bindScenes path index table list = .ok (scenes, t)) :
    BindsScenes path list scenes ∧ t.scenes = table.scenes ++ scenes.map Scene.symbol ∧
      ∀ s ∈ scenes, s.name ≠ "" ∧ ∀ node ∈ bodyNodes s.body, node.Lawful := by
  induction list generalizing table index scenes with
  | nil =>
    cases h
    exact ⟨.nil, by simp, by simp⟩
  | cons s rest ih =>
    rw [bindScenes] at h
    obtain ⟨c, hc, h₁⟩ := ok_of_bind_ok h
    dsimp only at h₁
    split at h₁ <;> rename_i hname
    · cases h₁
    · obtain ⟨next, hnext, h₂⟩ := ok_of_bind_ok h₁
      obtain ⟨area, harea, h₃⟩ := ok_of_bind_ok h₂
      obtain ⟨body, hbody, h₄⟩ := ok_of_bind_ok h₃
      obtain ⟨⟨others, last⟩, hothers, h₅⟩ := ok_of_bind_ok h₄
      cases h₅
      obtain ⟨binds, symbols, each⟩ := ih hothers
      obtain ⟨bindsBody, lawful⟩ := bindBody_ok c.body (inside_ok hbody)
      refine ⟨.cons ⟨c, element_ok hc, rfl, rfl, inside_ok harea, bindsBody⟩ binds, ?_, ?_⟩
      · rw [symbols, (addScene_ok (ofSymbols_ok hnext)).1, List.append_assoc]
        rfl
      · exact List.forall_mem_cons.2 ⟨⟨by simpa using hname, lawful⟩, each⟩

theorem symbols_of_bind {config : StoryConfig} {path : String} {story : Story} {table : SymbolTable}
    (h : config.bind path = .ok (story, table)) : table.scenes = story.scenes.map Scene.symbol := by
  obtain ⟨first, hfirst, hscenes, -⟩ := bind_ok h
  have none : first.scenes = [] := (steady_scenes (· = [])).bindSymbols rfl hfirst
  rw [(bindScenes_ok hscenes).2.1, none, List.nil_append]

theorem scenes_of_bind {config : StoryConfig} {path : String} {story : Story} {table : SymbolTable}
    (h : config.bind path = .ok (story, table)) :
    (∀ s ∈ story.scenes, Cased (bodyNodes s.body)) ∧ (story.scenes.map Scene.name).Nodup := by
  obtain ⟨first, -, hscenes, -⟩ := bind_ok h
  obtain ⟨-, -, each⟩ := bindScenes_ok hscenes
  refine ⟨fun s hs => cased_of_lawful (each s hs).2, ?_⟩
  have distinct : Distinct table := kept_distinct.bind List.nodup_nil h
  rw [Distinct, symbols_of_bind h, List.map_map] at distinct
  exact distinct

end Config

end StoryFlow
