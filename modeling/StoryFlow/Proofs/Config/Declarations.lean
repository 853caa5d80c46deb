import StoryFlow.Config.Binding
import StoryFlow.Proofs.Flow.Composition

/-! The declarations of a bound story. Every variable has a name of its own and different options to choose
from, among them its fallback, and no name is declared both as an outcome and as a spectrum. -/

namespace StoryFlow

variable {table t : SymbolTable} {name : String} {x : Variable}

namespace SymbolTable

def Disjoint (t : SymbolTable) : Prop := ∀ name, t.outcome? name = none ∨ t.spectrum? name = none

theorem declared?_eq_none : table.declared? name = none ↔
    table.outcome? name = none ∧ table.spectrum? name = none := by
  unfold declared?
  cases table.outcome? name <;> simp

theorem declared?_congr (ho : ∀ name, t.outcome? name = table.outcome? name)
    (hp : ∀ name, t.spectrum? name = table.spectrum? name) (name : String) :
    t.declared? name = table.declared? name := by
  rw [declared?, declared?, ho, hp]

theorem name_of_declared? (h : table.declared? name = some x) : x.name = name := by
  unfold declared? at h
  split at h <;> rename_i ho
  · cases h
    have hname := List.find?_some ho
    exact eq_of_beq hname
  · obtain ⟨p, hp, rfl⟩ := Option.map_eq_some_iff.1 h
    have hname := List.find?_some hp
    exact eq_of_beq hname

end SymbolTable

/-- The option that a variable falls back to. The empty one means that there is none. -/
def Variable.fallback : Variable → String
  | .outcome o => o.fallback
  | .spectrum s => s.fallback

/-- A variable has a name and different options to choose from, and its fallback is one of them. -/
structure Variable.Sound (x : Variable) : Prop where
  named : x.name ≠ ""
  offering : x.optionNames ≠ []
  distinct : x.optionNames.Nodup
  fallback : x.fallback ≠ "" → x.fallback ∈ x.optionNames

namespace SymbolTable

def declarations (t : SymbolTable) : List Variable :=
  t.outcomes.map .outcome ++ t.spectrums.map .spectrum

/-- The variables are sound, and no two of either kind have the same name. -/
structure Sound (t : SymbolTable) : Prop where
  each : ∀ x ∈ t.declarations, x.Sound
  distinct : (t.declarations.map Variable.name).Nodup

theorem mem_declarations_of_declared? (h : table.declared? name = some x) : x ∈ table.declarations := by
  unfold declared? at h
  split at h <;> rename_i ho
  · cases h
    exact List.mem_append_left _ (List.mem_map_of_mem (List.mem_of_find?_eq_some ho))
  · obtain ⟨p, hp, rfl⟩ := Option.map_eq_some_iff.1 h
    exact List.mem_append_right _ (List.mem_map_of_mem (List.mem_of_find?_eq_some hp))

theorem not_mem_names_of_declared? (h : table.declared? name = none) :
    name ∉ table.declarations.map Variable.name := by
  obtain ⟨ho, hp⟩ := declared?_eq_none.1 h
  rw [outcome?, List.find?_eq_none] at ho
  rw [spectrum?, List.find?_eq_none] at hp
  intro hm
  obtain ⟨x, hx, rfl⟩ := List.mem_map.1 hm
  rcases List.mem_append.1 hx with hx | hx
  · obtain ⟨o, hmem, rfl⟩ := List.mem_map.1 hx
    exact ho o hmem (by simp [Variable.name])
  · obtain ⟨p, hmem, rfl⟩ := List.mem_map.1 hx
    exact hp p hmem (by simp [Variable.name])

/-- A name that is both an outcome and a spectrum would come twice. -/
theorem Sound.disjoint (h : t.Sound) : t.Disjoint := by
  intro name
  by_contra hno
  obtain ⟨ho, hp⟩ := not_or.1 hno
  obtain ⟨o, ho⟩ := Option.ne_none_iff_exists'.1 ho
  obtain ⟨p, hp⟩ := Option.ne_none_iff_exists'.1 hp
  have distinct := h.distinct
  rw [declarations, List.map_append, List.nodup_append] at distinct
  have outcomeName := List.find?_some ho
  have spectrumName := List.find?_some hp
  refine distinct.2.2 o.name ?_ p.name ?_ ((eq_of_beq outcomeName).trans (eq_of_beq spectrumName).symm)
  · exact List.mem_map.2 ⟨_, List.mem_map_of_mem (List.mem_of_find?_eq_some ho), rfl⟩
  · exact List.mem_map.2 ⟨_, List.mem_map_of_mem (List.mem_of_find?_eq_some hp), rfl⟩

theorem Sound.declare (h : table.Sound) (hx : x.Sound) (hfree : table.declared? x.name = none)
    (hp : t.declarations.Perm (x :: table.declarations)) : t.Sound where
  each y hy := by
    rcases List.mem_cons.1 (hp.mem_iff.1 hy) with rfl | hy
    · exact hx
    · exact h.each y hy
  distinct := by
    rw [(hp.map Variable.name).nodup_iff, List.map_cons, List.nodup_cons]
    exact ⟨not_mem_names_of_declared? hfree, h.distinct⟩

theorem Sound.addOutcome {o : Outcome} (h : table.Sound) (ht : table.addOutcome o = .ok t)
    (ho : (Variable.outcome o).Sound) : t.Sound := by
  unfold SymbolTable.addOutcome at ht
  split at ht <;> rename_i hfree
  · cases ht
  · cases ht
    refine h.declare ho (Option.not_isSome_iff_eq_none.1 hfree) ?_
    rw [declarations, List.map_append, List.append_assoc]
    exact List.perm_middle

theorem Sound.addSpectrum {p : Spectrum} (h : table.Sound) (ht : table.addSpectrum p = .ok t)
    (hp : (Variable.spectrum p).Sound) : t.Sound := by
  unfold SymbolTable.addSpectrum at ht
  split at ht <;> rename_i hfree
  · cases ht
  · cases ht
    refine h.declare hp (Option.not_isSome_iff_eq_none.1 hfree) ?_
    rw [declarations, List.map_append, ← List.append_assoc]
    exact List.perm_append_singleton _ _

theorem Sound.addScene {c : SceneSymbol} (h : table.Sound) (ht : table.addScene c = .ok t) :
    t.Sound := by
  unfold SymbolTable.addScene at ht
  split at ht
  · cases ht
  · cases ht
    exact ⟨h.each, h.distinct⟩

end SymbolTable

namespace Config

theorem element_ok {α : Type} {o : Option α} {a : α} (h : element o = .ok a) : o = some a := by
  cases o with
  | none => cases h
  | some b =>
    cases h
    rfl

theorem ofSymbols_ok {α : Type} {r : Except SymbolError α} {a : α} (h : ofSymbols r = .ok a) :
    r = .ok a := by
  cases r with
  | error e => cases h
  | ok b =>
    cases h
    rfl

/-- What holds of a table and still holds after a variable was declared. Only outcomes and spectrums that
can be bound are declared. -/
structure Steady (P : SymbolTable → Prop) : Prop where
  outcome : ∀ {config : OutcomeConfig} {o : Outcome} {t t' : SymbolTable},
    bindOutcome config = .ok o → t.addOutcome o = .ok t' → P t → P t'
  spectrum : ∀ {config : SpectrumConfig} {s : Spectrum} {t t' : SymbolTable},
    bindSpectrum config = .ok s → t.addSpectrum s = .ok t' → P t → P t'

structure Kept (P : SymbolTable → Prop) : Prop extends Steady P where
  scene : ∀ {c : SceneSymbol} {t t' : SymbolTable}, t.addScene c = .ok t' → P t → P t'

section Run

variable {P : SymbolTable → Prop}

theorem Steady.bindOutcomes (hk : Steady P) {list : List (Option OutcomeConfig)} (h : P table)
    (ht : Config.bindOutcomes table list = .ok t) : P t := by
  induction list generalizing table with
  | nil =>
    cases ht
    exact h
  | cons o rest ih =>
    rw [Config.bindOutcomes] at ht
    obtain ⟨c, -, h₁⟩ := ok_of_bind_ok ht
    obtain ⟨outcome, hbound, h₂⟩ := ok_of_bind_ok h₁
    obtain ⟨next, hnext, h₃⟩ := ok_of_bind_ok h₂
    exact ih (hk.outcome hbound (ofSymbols_ok hnext) h) h₃

theorem Steady.bindSpectrums (hk : Steady P) {list : List (Option SpectrumConfig)} (h : P table)
    (ht : Config.bindSpectrums table list = .ok t) : P t := by
  induction list generalizing table with
  | nil =>
    cases ht
    exact h
  | cons s rest ih =>
    rw [Config.bindSpectrums] at ht
    obtain ⟨c, -, h₁⟩ := ok_of_bind_ok ht
    obtain ⟨spectrum, hbound, h₂⟩ := ok_of_bind_ok h₁
    obtain ⟨next, hnext, h₃⟩ := ok_of_bind_ok h₂
    exact ih (hk.spectrum hbound (ofSymbols_ok hnext) h) h₃

theorem kept_bindScenes (hk : ∀ {c : SceneSymbol} {t t' : SymbolTable}, t.addScene c = .ok t' → P t → P t')
    {path : String} {index : Nat} {list : List (Option SceneConfig)} {scenes : List Scene} (h : P table)
    (ht : Config.bindScenes path index table list = .ok (scenes, t)) : P t := by
  induction list generalizing table index scenes with
  | nil =>
    cases ht
    exact h
  | cons s rest ih =>
    rw [Config.bindScenes] at ht
    obtain ⟨c, -, h₁⟩ := ok_of_bind_ok ht
    dsimp only at h₁
    split at h₁
    · cases h₁
    · obtain ⟨next, hnext, h₂⟩ := ok_of_bind_ok h₁
      obtain ⟨area, -, h₃⟩ := ok_of_bind_ok h₂
      obtain ⟨body, -, h₄⟩ := ok_of_bind_ok h₃
      obtain ⟨⟨others, last⟩, hothers, h₅⟩ := ok_of_bind_ok h₄
      cases h₅
      exact ih (hk (ofSymbols_ok hnext) h) hothers

theorem Steady.bindSymbols (hk : Steady P) (empty : P .empty) {outcomes : List (Option OutcomeConfig)}
    {spectrums : List (Option SpectrumConfig)} (h : Config.bindSymbols outcomes spectrums = .ok t) :
    P t := by
  obtain ⟨first, hfirst, hlast⟩ := ok_of_bind_ok h
  exact hk.bindSpectrums (hk.bindOutcomes empty hfirst) hlast

theorem bind_ok {config : StoryConfig} {path : String} {story : Story}
    (h : config.bind path = .ok (story, t)) : ∃ table,
      Config.bindSymbols config.outcomes config.spectrums = .ok table ∧
      Config.bindScenes path 0 table config.scenes = .ok (story.scenes, t) ∧
      story.entry = config.entry ∧
      (story.entry ≠ "" → (story.scene? story.entry).isSome = true) := by
  unfold StoryConfig.bind at h
  obtain ⟨table, hsymbols, h₁⟩ := ok_of_bind_ok h
  obtain ⟨⟨scenes, last⟩, hscenes, h₂⟩ := ok_of_bind_ok h₁
  dsimp only at h₂
  split at h₂ <;> rename_i hentry
  · cases h₂
  · cases h₂
    refine ⟨table, hsymbols, hscenes, rfl, fun hne => ?_⟩
    rw [Option.isSome_iff_ne_none]
    simpa [hne] using hentry

theorem Kept.bind (hk : Kept P) (empty : P .empty) {config : StoryConfig} {path : String}
    {story : Story} (h : config.bind path = .ok (story, t)) : P t := by
  obtain ⟨table, hsymbols, hscenes, -⟩ := bind_ok h
  exact kept_bindScenes hk.scene (hk.bindSymbols empty hsymbols) hscenes

end Run

def OutcomeConfig.meant (c : OutcomeConfig) : Outcome := ⟨c.name, c.options.getD [], c.fallback⟩

theorem bindOutcome_ok {config : OutcomeConfig} {o : Outcome} (h : bindOutcome config = .ok o) :
    o = config.meant ∧ (Variable.outcome o).Sound := by
  unfold bindOutcome at h
  dsimp only at h
  split at h <;> rename_i hname
  · cases h
  split at h <;> rename_i hne
  · cases h
  split at h <;> rename_i hlength
  · cases h
  split at h <;> rename_i hfallback
  · cases h
  · cases h
    refine ⟨rfl, by simpa [Variable.name] using hname, by simpa [Variable.optionNames] using hne, ?_,
      fun hne => ?_⟩
    · refine Names.nodup_of_length_distinct ?_
      simpa [Variable.optionNames] using hlength
    · simp only [Bool.and_eq_true, Bool.not_eq_true', String.isEmpty_eq_false_iff, not_and,
        Bool.not_eq_false, List.contains_eq_mem, decide_eq_true_eq] at hfallback
      exact hfallback hne

def BindsBands (list : List (Option BandConfig)) (bands : List Band) : Prop :=
  List.Forall₂ (fun b band => ∃ x, b = some x ∧ band = ⟨x.name, x.threshold⟩) list bands

theorem bindBands_ok {spectrum : String} {below : Float} {names : List String}
    {list : List (Option BandConfig)} {bands : List Band} (hn : names.Nodup)
    (h : bindBands spectrum below names list = .ok bands) :
    BindsBands list bands ∧ (names ++ bands.map Band.name).Nodup := by
  induction list generalizing below names bands with
  | nil =>
    cases h
    exact ⟨.nil, by simpa using hn⟩
  | cons b rest ih =>
    rw [bindBands] at h
    obtain ⟨band, hband, h₁⟩ := ok_of_bind_ok h
    split at h₁ <;> rename_i hnew
    · cases h₁
    split at h₁
    · cases h₁
    obtain ⟨others, hothers, h₂⟩ := ok_of_bind_ok h₁
    cases h₂
    have grown : (names ++ [band.name]).Nodup := by
      rw [← List.concat_eq_append]
      exact hn.concat (by simpa using hnew)
    obtain ⟨binds, hnodup⟩ := ih grown hothers
    exact ⟨.cons ⟨band, element_ok hband, rfl⟩ binds, by simpa using hnodup⟩

structure BindsSpectrum (c : SpectrumConfig) (s : Spectrum) : Prop where
  name : s.name = c.name
  fallback : s.fallback = c.fallback
  bands : BindsBands c.bands s.bands

theorem bindSpectrum_ok {config : SpectrumConfig} {s : Spectrum} (h : bindSpectrum config = .ok s) :
    BindsSpectrum config s ∧ (Variable.spectrum s).Sound := by
  unfold bindSpectrum at h
  split at h <;> rename_i hname
  · cases h
  split at h <;> rename_i hne
  · cases h
  obtain ⟨bands, hbands, h₁⟩ := ok_of_bind_ok h
  split at h₁ <;> rename_i hfallback
  · cases h₁
  cases h₁
  obtain ⟨binds, hnodup⟩ := bindBands_ok List.nodup_nil hbands
  refine ⟨⟨rfl, rfl, binds⟩, by simpa [Variable.name] using hname, fun hno => hne ?_, hnodup,
    fun hne => ?_⟩
  · have hempty : bands = [] := List.map_eq_nil_iff.1 hno
    rw [hempty] at binds
    rw [List.forall₂_nil_right_iff.1 binds]
    rfl
  · simp only [Bool.and_eq_true, Bool.not_eq_true', String.isEmpty_eq_false_iff, not_and,
      Bool.not_eq_false, List.contains_eq_mem, decide_eq_true_eq] at hfallback
    exact hfallback hne

theorem sound_of_bind {config : StoryConfig} {path : String} {story : Story}
    (h : config.bind path = .ok (story, t)) : t.Sound := by
  have kept : Kept SymbolTable.Sound :=
    ⟨⟨fun hb ht hs => hs.addOutcome ht (bindOutcome_ok hb).2,
      fun hb ht hs => hs.addSpectrum ht (bindSpectrum_ok hb).2⟩, fun ht hs => hs.addScene ht⟩
  exact kept.bind ⟨by simp [SymbolTable.empty, SymbolTable.declarations], List.nodup_nil⟩ h

theorem bindOutcomes_ok {list : List (Option OutcomeConfig)}
    (h : Config.bindOutcomes table list = .ok t) : t.spectrums = table.spectrums ∧
      ∃ bound, t.outcomes = table.outcomes ++ bound ∧
        List.Forall₂ (fun c o => ∃ x, c = some x ∧ o = x.meant) list bound := by
  induction list generalizing table with
  | nil =>
    cases h
    exact ⟨rfl, [], (List.append_nil _).symm, .nil⟩
  | cons o rest ih =>
    rw [Config.bindOutcomes] at h
    obtain ⟨c, hc, h₁⟩ := ok_of_bind_ok h
    obtain ⟨outcome, hbound, h₂⟩ := ok_of_bind_ok h₁
    obtain ⟨next, hnext, h₃⟩ := ok_of_bind_ok h₂
    obtain ⟨spectrums, bound, outcomes, binds⟩ := ih h₃
    have declared := ofSymbols_ok hnext
    unfold SymbolTable.addOutcome at declared
    split at declared
    · cases declared
    · cases declared
      refine ⟨spectrums, outcome :: bound, ?_, .cons ⟨c, element_ok hc, (bindOutcome_ok hbound).1⟩ binds⟩
      rw [outcomes, List.append_assoc]
      rfl

theorem bindSpectrums_ok {list : List (Option SpectrumConfig)}
    (h : Config.bindSpectrums table list = .ok t) : t.outcomes = table.outcomes ∧
      ∃ bound, t.spectrums = table.spectrums ++ bound ∧
        List.Forall₂ (fun c s => ∃ x, c = some x ∧ BindsSpectrum x s) list bound := by
  induction list generalizing table with
  | nil =>
    cases h
    exact ⟨rfl, [], (List.append_nil _).symm, .nil⟩
  | cons s rest ih =>
    rw [Config.bindSpectrums] at h
    obtain ⟨c, hc, h₁⟩ := ok_of_bind_ok h
    obtain ⟨spectrum, hbound, h₂⟩ := ok_of_bind_ok h₁
    obtain ⟨next, hnext, h₃⟩ := ok_of_bind_ok h₂
    obtain ⟨outcomes, bound, spectrums, binds⟩ := ih h₃
    have declared := ofSymbols_ok hnext
    unfold SymbolTable.addSpectrum at declared
    split at declared
    · cases declared
    · cases declared
      refine ⟨outcomes, spectrum :: bound, ?_,
        .cons ⟨c, element_ok hc, (bindSpectrum_ok hbound).1⟩ binds⟩
      rw [spectrums, List.append_assoc]
      rfl

structure Declares (config : StoryConfig) (t : SymbolTable) : Prop where
  outcomes : List.Forall₂ (fun c o => ∃ x, c = some x ∧ o = x.meant) config.outcomes t.outcomes
  spectrums : List.Forall₂ (fun c s => ∃ x, c = some x ∧ BindsSpectrum x s) config.spectrums t.spectrums

theorem declares_of_bind {config : StoryConfig} {path : String} {story : Story}
    (h : config.bind path = .ok (story, t)) : Declares config t := by
  obtain ⟨table, hsymbols, hscenes, -⟩ := bind_ok h
  obtain ⟨first, hfirst, hlast⟩ := ok_of_bind_ok hsymbols
  obtain ⟨noSpectrums, outcomes, houtcomes, bindsOutcomes⟩ := bindOutcomes_ok hfirst
  obtain ⟨sameOutcomes, spectrums, hspectrums, bindsSpectrums⟩ := bindSpectrums_ok hlast
  have same : t.outcomes = table.outcomes ∧ t.spectrums = table.spectrums := by
    refine kept_bindScenes (P := fun t => t.outcomes = table.outcomes ∧ t.spectrums = table.spectrums)
      ?_ ⟨rfl, rfl⟩ hscenes
    intro c t t' ht hsame
    unfold SymbolTable.addScene at ht
    split at ht
    · cases ht
    · cases ht
      exact hsame
  constructor
  · rw [same.1, sameOutcomes, houtcomes]
    exact bindsOutcomes
  · rw [same.2, hspectrums, noSpectrums]
    exact bindsSpectrums

theorem disjoint_of_bind {config : StoryConfig} {path : String} {story : Story}
    (h : config.bind path = .ok (story, t)) : t.Disjoint :=
  (sound_of_bind h).disjoint

theorem optionNames_ne_nil_of_bind {config : StoryConfig} {path : String} {story : Story}
    (h : config.bind path = .ok (story, t)) (hx : t.declared? name = some x) : x.optionNames ≠ [] :=
  ((sound_of_bind h).each x (SymbolTable.mem_declarations_of_declared? hx)).offering

end Config

end StoryFlow
