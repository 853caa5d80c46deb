import StoryFlow.Analysis
import StoryFlow.Proofs.Assignment.Termination
import StoryFlow.Proofs.Assignment.Worklist
import StoryFlow.Proofs.Calls.Runs
import StoryFlow.Proofs.Config.Declarations
import StoryFlow.Proofs.Flow.Order
import StoryFlow.Proofs.Flow.Totality

/-! A result without problems is a promise about every execution. Whatever the story comes to is a vertex
of the program graph, the facts before the vertex are right for the statements that were carried out, and
the rules hold of the facts. -/

namespace StoryFlow

open StoryFlow.Flow
open StoryFlow.Flow.Graph

variable {g : Graph} {table : SymbolTable} {f : Facts} {u w : List Stmt} {v : Vertex} {s : Stmt}
  {name : String} {x : Variable}

section Promise

def Variable.SetBy : Variable → Stmt → Prop
  | .outcome o, .plain _ (.assign name _) => name = o.name
  | .spectrum p, .plain _ (.adjust name _) => name = p.name
  | _, _ => False

def Stmt.BranchesOn (name : String) : Stmt → Prop
  | .branchOn _ read _ => read = name
  | _ => False

def Stmt.NamesDeclared (table : SymbolTable) : Stmt → Prop
  | .branchOn _ name _ => ∃ x, table.declared? name = some x
  | .plain _ (.assign name option) => ∃ o, table.outcome? name = some o ∧ option ∈ o.options
  | .plain _ (.adjust name _) => ∃ p, table.spectrum? name = some p
  | _ => True

/-- An execution that breaks no rule. -/
structure SafeRun (table : SymbolTable) (w : List Stmt) : Prop where
  assigned : ∀ u s r name x, w = u ++ s :: r → s.BranchesOn name →
    table.declared? name = some x → x.hasFallback = false → ∃ t ∈ u, x.SetBy t
  once : ∀ u s m t r o, w = u ++ s :: (m ++ t :: r) → (Variable.outcome o).SetBy s →
    ¬(Variable.outcome o).SetBy t
  afterCheckpoint : ∀ u c m s r name o, w = u ++ c :: (m ++ s :: r) → c.IsCheckpoint →
    (∀ t ∈ m, ¬t.BranchesOn name) → s.BranchesOn name → table.declared? name = some (.outcome o) →
    (Variable.outcome o).hasFallback = false → ∃ t ∈ m, (Variable.outcome o).SetBy t
  declared : ∀ s ∈ w, s.NamesDeclared table

end Promise

section Rules

theorem Assignment.mem_readProblems {d : Diagnostic} : d ∈ readProblems table f v name ↔
    (table.declared? name = none ∧
      d = problem v .undeclared name (inTicks name ++ " is not declared")) ∨
    ∃ y, table.declared? name = some y ∧ y.hasFallback = false ∧
      ((name ∉ f.definite ∧ d = problem v .notDefinitelyAssigned name
          (inTicks name ++ " is not definitely assigned")) ∨
        (name ∈ f.definite ∧ y.kind = .outcome ∧ name ∉ f.segment ∧ d = problem v .outcomeLocked name
          (inTicks name ++ " is only assigned before a checkpoint"))) := by
  unfold readProblems
  cases hy : table.declared? name with
  | none => simp
  | some y =>
    cases hfall : y.hasFallback <;> by_cases hdef : name ∈ f.definite <;>
      by_cases hkind : y.kind = .outcome <;> by_cases hseg : name ∈ f.segment <;>
      simp [hdef, hkind, hseg, hfall]

theorem Assignment.mem_assignProblems {d : Diagnostic} {option : String} : d ∈ assignProblems table f v name option ↔
    (table.outcome? name = none ∧ d = misuse table v name .outcome) ∨
    ∃ o, table.outcome? name = some o ∧
      ((option ∉ o.options ∧ d = problem v .unknownOption name
          (option ++ " is not an option of " ++ inTicks name)) ∨
        (name ∈ f.locked ∧ d = problem v .outcomeLocked name
          (inTicks name ++ " is locked by a checkpoint")) ∨
        (name ∉ f.locked ∧ name ∈ f.possible ∧ d = problem v .maybeAssignedTwice name
          (inTicks name ++ " might be assigned more than once"))) := by
  unfold assignProblems
  cases ho : table.outcome? name with
  | none => simp
  | some o =>
    by_cases hoption : option ∈ o.options <;> by_cases hlock : name ∈ f.locked <;>
      by_cases hposs : name ∈ f.possible <;> simp [hoption, hlock, hposs]

theorem readProblems_eq_nil (h : Assignment.readProblems table f v name = []) :
    ∃ x, table.declared? name = some x ∧ (x.hasFallback = false →
      name ∈ f.definite ∧ (x.kind = .outcome → name ∈ f.segment)) := by
  have clear : ∀ d, d ∉ Assignment.readProblems table f v name := List.eq_nil_iff_forall_not_mem.1 h
  simp only [Assignment.mem_readProblems] at clear
  cases hd : table.declared? name with
  | none => exact absurd (Or.inl ⟨hd, rfl⟩) (clear _)
  | some x =>
    refine ⟨x, rfl, fun hx => ?_⟩
    have hdef : name ∈ f.definite := by
      by_contra hno
      exact clear _ (Or.inr ⟨x, hd, hx, Or.inl ⟨hno, rfl⟩⟩)
    refine ⟨hdef, fun hk => ?_⟩
    by_contra hseg
    exact clear _ (Or.inr ⟨x, hd, hx, Or.inr ⟨hdef, hk, hseg, rfl⟩⟩)

theorem assignProblems_eq_nil {option : String}
    (h : Assignment.assignProblems table f v name option = []) :
    ∃ o, table.outcome? name = some o ∧ option ∈ o.options ∧ name ∉ f.possible := by
  have clear : ∀ d, d ∉ Assignment.assignProblems table f v name option :=
    List.eq_nil_iff_forall_not_mem.1 h
  simp only [Assignment.mem_assignProblems] at clear
  cases ho : table.outcome? name with
  | none => exact absurd (Or.inl ⟨ho, rfl⟩) (clear _)
  | some o =>
    refine ⟨o, rfl, ?_, fun hp => ?_⟩
    · by_contra hno
      exact clear _ (Or.inr ⟨o, ho, Or.inl ⟨hno, rfl⟩⟩)
    · by_cases hl : name ∈ f.locked
      · exact clear _ (Or.inr ⟨o, ho, Or.inr (Or.inl ⟨hl, rfl⟩)⟩)
      · exact clear _ (Or.inr ⟨o, ho, Or.inr (Or.inr ⟨hl, hp, rfl⟩)⟩)

structure Permitted (table : SymbolTable) (u : List Stmt) (s : Stmt) : Prop where
  declared : s.NamesDeclared table
  read : ∀ name x, s.BranchesOn name → table.declared? name = some x → x.hasFallback = false →
    AssignedIn table u name ∧ (x.kind = .outcome → TouchedIn table u name)
  assigned : ∀ o, (Variable.outcome o).SetBy s → ¬AssignedIn table u o.name

theorem permitted_of_problemsAt (hv : v.stmt = some s)
    (hf : f.Below (Facts.ofHistory table u)) (hp : Assignment.problemsAt table f v = []) :
    Permitted table u s := by
  unfold Assignment.problemsAt at hp
  rw [hv] at hp
  cases s with
  | plain area action =>
    cases action with
    | assign name option =>
      obtain ⟨o, ho, hoption, hnot⟩ := assignProblems_eq_nil hp
      refine ⟨⟨o, ho, hoption⟩, fun _ _ hb => hb.elim, fun o' hset hin => hnot ?_⟩
      obtain rfl : name = o'.name := hset
      exact hf.possible ((Facts.mem_ofHistory table u _).2.1.2 hin)
    | adjust name positive =>
      refine ⟨?_, fun _ _ hb => hb.elim, fun _ hs => hs.elim⟩
      dsimp only at hp
      split at hp <;> rename_i hs
      · exact Option.isSome_iff_exists.1 hs
      · cases hp
    | _ => exact ⟨trivial, fun _ _ hb => hb.elim, fun _ hs => hs.elim⟩
  | branchOn area name cases =>
    obtain ⟨x, hx, hread⟩ := readProblems_eq_nil hp
    refine ⟨⟨x, hx⟩, fun name' x' hb hx' hfall => ?_, fun _ hs => hs.elim⟩
    obtain rfl : name = name' := hb
    cases hx.symm.trans hx'
    obtain ⟨hd, hk⟩ := hread hfall
    have exact := Facts.mem_ofHistory table u name
    exact ⟨exact.1.1 (hf.definite hd), fun hkind => exact.2.2.2.1 (hf.segment (hk hkind))⟩
  | menu => exact ⟨trivial, fun _ _ hb => hb.elim, fun _ hs => hs.elim⟩
  | ifElse => exact ⟨trivial, fun _ _ hb => hb.elim, fun _ hs => hs.elim⟩

theorem setBy_of_sets (hd : table.Disjoint) (hx : table.declared? name = some x)
    (hs : s.Sets table name) : x.SetBy s := by
  have hname := SymbolTable.name_of_declared? hx
  unfold SymbolTable.declared? at hx
  unfold Stmt.Sets at hs
  split at hs
  · obtain ⟨rfl, ho⟩ := hs
    split at hx <;> rename_i ho'
    · cases hx
      exact hname.symm
    · rw [ho'] at ho
      cases ho
  · obtain ⟨rfl, hp⟩ := hs
    split at hx <;> rename_i ho'
    · rcases hd name with h | h
      · rw [h] at ho'
        cases ho'
      · rw [h] at hp
        cases hp
    · obtain ⟨p, -, rfl⟩ := Option.map_eq_some_iff.1 hx
      exact hname.symm
  · cases hs

theorem sets_of_setBy {o : Outcome} (hn : s.NamesDeclared table)
    (hs : (Variable.outcome o).SetBy s) : s.Sets table o.name := by
  unfold Variable.SetBy at hs
  split at hs
  · rename_i heq
    cases heq
    obtain ⟨o', ho', -⟩ := hn
    exact ⟨hs.symm, by rw [ho']; rfl⟩
  · rename_i heq
    cases heq
  · cases hs

theorem branchesOn_of_consults (h : s.Consults table name) : s.BranchesOn name := by
  unfold Stmt.Consults at h
  split at h
  · exact h.1.symm
  · cases h

theorem safeRun_of_permitted (hd : table.Disjoint)
    (h : ∀ u s r, w = u ++ s :: r → Permitted table u s) : SafeRun table w where
  assigned := by
    intro u s r name x hw hb hx hfall
    obtain ⟨t, ht, hset⟩ := ((h u s r hw).read name x hb hx hfall).1
    exact ⟨t, ht, setBy_of_sets hd hx hset⟩
  once := by
    intro u s m t r o hw hs ht
    have hfirst := sets_of_setBy (h u s _ hw).declared hs
    refine (h (u ++ s :: m) t r (by simpa using hw)).assigned o ht ⟨s, ?_, hfirst⟩
    exact List.mem_append_right _ List.mem_cons_self
  afterCheckpoint := by
    intro u c m s r name o hw hc hm hb hx hfall
    have hp := h (u ++ c :: m) s r (by simpa using hw)
    obtain ⟨u', m', heq, hfree, t, ht, hset⟩ := (hp.read name _ hb hx hfall).2 rfl
    have hin := mem_of_append_eq heq hc hfree t ht
    rcases hset with hset | hset
    · exact ⟨t, hin, setBy_of_sets hd hx hset⟩
    · exact absurd (branchesOn_of_consults hset) (hm t hin)
  declared := by
    intro s hs
    obtain ⟨u, r, rfl⟩ := List.append_of_mem hs
    exact (h u s r rfl).declared

theorem SafeRun.of_tables {t : SymbolTable} (h : SafeRun t w)
    (ho : ∀ name, t.outcome? name = table.outcome? name)
    (hp : ∀ name, t.spectrum? name = table.spectrum? name) : SafeRun table w := by
  have hd := SymbolTable.declared?_congr ho hp
  refine ⟨?_, h.once, ?_, fun s hs => ?_⟩
  · intro u s r name x hw hb hx
    exact h.assigned u s r name x hw hb ((hd name).trans hx)
  · intro u c m s r name o hw hc hm hb hx
    exact h.afterCheckpoint u c m s r name o hw hc hm hb ((hd name).trans hx)
  · have hn := h.declared s hs
    unfold Stmt.NamesDeclared at hn ⊢
    simpa only [hd, ho, hp] using hn

end Rules

theorem Flow.Graph.Reads.filterMap_eq {vs : List Vertex} (h : Reads vs u) :
    vs.filterMap Vertex.stmt = u := by
  induction vs generalizing u with
  | nil => rw [reads_nil.1 h]; rfl
  | cons x vs ih =>
    obtain ⟨s, u, rfl, hs, hu⟩ := reads_cons.1 h
    rw [List.filterMap_cons_some hs, ih hu]

namespace Assignment

/-- Where the analysis found no problem, whatever control comes to is permitted. -/
theorem permitted_of_analyze {report : Report} (hg : g.Whole) (h : analyze g table = .ok report)
    (hp : report.problems = []) (hs : g.Passes u s) : Permitted table u s := by
  obtain ⟨⟨order, notes⟩, horder, h₁⟩ := ok_of_bind_ok (ofFault_ok h)
  obtain ⟨w, hsolve, h₂⟩ := ok_of_bind_ok h₁
  cases h₂
  have hall := (visitOrder_all hg.valid horder).2
  obtain ⟨stable, hq⟩ := (Worklist.stable_start hall).run hg.valid hsolve
  obtain ⟨id, v, es, hn, hv, vs, hl, hu⟩ := hs
  have hid : g.has id = true := has_iff.2 ⟨_, hn⟩
  have real : ∀ a, g.has a = true → 0 ≤ a := by
    intro a ha
    obtain ⟨y, hy⟩ := has_iff.1 ha
    exact hg.wf.real a y hy
  have below := stable.below_ofPath real hq hid hl
  obtain ⟨hbefore, -⟩ := stable.settled id v es hn (by rw [hq]; exact List.not_mem_nil)
  rw [Facts.ofPath, hu.filterMap_eq] at below
  refine permitted_of_problemsAt hv below ?_
  have hat := List.flatMap_eq_nil_iff.1 hp id ((hall id).2 hid)
  simp only [vertex?_of_node? hn, hbefore] at hat
  exact hat

end Assignment

namespace Analysis

theorem run_ok {a next : Analysis} {result : Result} (h : a.run = .ok (result, next))
    (hv : result.valid = true) : ∃ scenes program g report,
      a.story.build a.table a.supply = .ok scenes ∧ scenes.problems = [] ∧
      Program.assemble a.story scenes scenes.supply = .ok program ∧ program.graph = some g ∧
      Assignment.analyze g a.table = .ok report ∧ report.problems = [] := by
  unfold run at h
  obtain ⟨scenes, hb, h₁⟩ := ok_of_bind_ok h
  obtain ⟨program, ha, h₂⟩ := ok_of_bind_ok h₁
  dsimp only at h₂
  split at h₂ <;> rename_i hg
  · obtain ⟨⟨found, more⟩, -, h₃⟩ := ok_of_bind_ok h₂
    cases h₃
    cases hv
  · obtain ⟨⟨found, more⟩, hfound, h₃⟩ := ok_of_bind_ok h₂
    obtain ⟨report, hreport, h₄⟩ := ok_of_bind_ok hfound
    cases h₄
    cases h₃
    have hnone : scenes.problems ++ program.problems ++ report.problems = [] := by
      simpa [Result.valid] using hv
    simp only [List.append_eq_nil_iff] at hnone
    exact ⟨scenes, program, _, report, hb, hnone.1.1, ha, hg, hreport, hnone.2⟩

theorem declareScenes_ok {seen : List String} {t : SymbolTable} {list : List Scene}
    (h : declareScenes seen table list = .ok t) :
    t.outcomes = table.outcomes ∧ t.spectrums = table.spectrums ∧ (list.map Scene.name).Nodup ∧
      ∀ s ∈ list, s.name ∉ seen := by
  induction list generalizing seen table with
  | nil =>
    cases h
    exact ⟨rfl, rfl, .nil, by simp⟩
  | cons s rest ih =>
    unfold declareScenes at h
    split at h <;> rename_i hs
    · cases h
    have hnew : s.name ∉ seen := by simpa using hs
    have goal : ∀ table' : SymbolTable, table'.outcomes = table.outcomes →
        table'.spectrums = table.spectrums → declareScenes (s.name :: seen) table' rest = .ok t →
        t.outcomes = table.outcomes ∧ t.spectrums = table.spectrums ∧
          ((s :: rest).map Scene.name).Nodup ∧ ∀ s' ∈ s :: rest, s'.name ∉ seen := by
      intro table' ho hp hrest
      obtain ⟨ho', hp', hnodup, hseen⟩ := ih hrest
      refine ⟨ho'.trans ho, hp'.trans hp, List.nodup_cons.2 ⟨fun hm => ?_, hnodup⟩, ?_⟩
      · obtain ⟨s', hs', heq⟩ := List.mem_map.1 hm
        exact hseen s' hs' (heq ▸ List.mem_cons_self)
      · refine List.forall_mem_cons.2 ⟨hnew, fun s' hs' hin => ?_⟩
        exact hseen s' hs' (List.mem_cons_of_mem _ hin)
    split at h
    · refine goal _ ?_ ?_ h
      · rfl
      · rfl
    · split at h
      · exact goal table rfl rfl h
      · cases h

theorem prepare_ok {story : Story} {absent : List Part} {a : Analysis}
    (h : prepare story table absent = .ok a) :
    a.story = story ∧ (∀ name, a.table.outcome? name = table.outcome? name) ∧
      (∀ name, a.table.spectrum? name = table.spectrum? name) ∧
      (story.scenes.map Scene.name).Nodup := by
  unfold prepare at h
  split at h
  · cases h
  obtain ⟨t, ht, h₁⟩ := ok_of_bind_ok h
  cases h₁
  obtain ⟨ho, hp, hnodup, -⟩ := declareScenes_ok ht
  refine ⟨rfl, fun name => ?_, fun name => ?_, hnodup⟩
  · rw [SymbolTable.outcome?, ho]
    rfl
  · rw [SymbolTable.spectrum?, hp]
    rfl

theorem permitted_of_run {a next : Analysis} {result : Result} (h : a.run = .ok (result, next))
    (hv : result.valid = true) (hn : (a.story.scenes.map Scene.name).Nodup)
    (hc : a.story.Comes a.table u s) : Permitted a.table u s := by
  obtain ⟨scenes, program, g, report, hb, hp, ha, hg, hreport, hnone⟩ := run_ok h hv
  obtain ⟨entry, -, he⟩ := Program.expanded_of_assemble hb ha hg
  exact Assignment.permitted_of_analyze he.whole hreport hnone (hc.passes hb hp hn ha hg)

/-- Where a bound story is analysed with a valid result, every execution from the entry scene on is
safe. -/
theorem safeRun_of_valid {config : Config.StoryConfig} {path : String} {story : Story}
    {absent : List Part} {a next : Analysis} {supply : Supply} {result : Result}
    (hbind : config.bind path = .ok (story, table)) (ha : prepare story table absent = .ok a)
    (hrun : run { a with supply } = .ok (result, next)) (hv : result.valid = true)
    (hw : story.Executes table w) : SafeRun table w := by
  obtain ⟨rfl, ho, hp, hnames⟩ := prepare_ok ha
  have hd := SymbolTable.declared?_congr ho hp
  have disjoint : a.table.Disjoint := by
    intro name
    rw [ho, hp]
    exact Config.disjoint_of_bind hbind name
  have safe : SafeRun a.table w := by
    refine safeRun_of_permitted disjoint fun u s r heq => ?_
    exact permitted_of_run (a := { a with supply }) hrun hv hnames ((hw.comes heq).of_declared hd)
  exact safe.of_tables ho hp

/-- An outcome is assigned in a chapter, and a scene that is called in a loop branches on it. -/
def outing : Config.StoryConfig where
  outcomes := [some { name := "mood", options := some ["calm", "grim"] }]
  scenes := [
    some ⟨"home", true, "", [
      some (.assign "" (some ⟨"mood", "calm"⟩)),
      some (.menu "" .loopSwitch "Well?" [
        some ⟨"walk", true, "", [some (.text "" .output (some "on")), some (.text "" .call (some "road"))]⟩,
        some ⟨"rest", false, "", []⟩])]⟩,
    some ⟨"road", false, "", [
      some (.branchOn "" "mood" [
        some ⟨some ["calm"], false, "", [some (.text "" .output (some "dust"))]⟩,
        some ⟨none, true, "", []⟩])]⟩]

theorem safeRun_of_valid_outing : ∃ story table a result next w,
    outing.bind "tale" = .ok (story, table) ∧ prepare story table [] = .ok a ∧
      run { a with supply := {} } = .ok (result, next) ∧ result.valid = true ∧
      story.Executes table w ∧ (∃ s ∈ w, s.BranchesOn "mood") ∧ SafeRun table w := by
  have analysed : ((outing.bind "tale").toOption.bind fun r => (prepare r.1 r.2 []).toOption.bind fun a =>
      (run { a with supply := {} }).toOption.bind fun out => some out.1.valid) = some true := by
    decide +kernel
  obtain ⟨⟨story, table⟩, hbind, analysed⟩ := ok_of_toOption_bind analysed
  obtain ⟨a, ha, analysed⟩ := ok_of_toOption_bind analysed
  obtain ⟨⟨result, next⟩, hrun, analysed⟩ := ok_of_toOption_bind analysed
  have hvalid := Option.some.inj analysed
  have executed : ∃ w, story.Executes table w ∧ ∃ s ∈ w, s.BranchesOn "mood" := by
    cases hbind
    -- the opening, the assignment, the menu, the way to the called scene, and its branch
    refine ⟨_, Or.inr ⟨_, _, rfl, _, _, rfl, .step (.act rfl) (.step (.act rfl)
      (.step (.again List.mem_cons_self ⟨rfl, rfl⟩) (.step (.act rfl) (.step (.call rfl)
        (.stop _))))), ?_, ?_⟩, ?_⟩
    · trivial
    · rfl
    · exact ⟨_, List.mem_append_right _ List.mem_cons_self, rfl⟩
  obtain ⟨w, hw, hbranch⟩ := executed
  exact ⟨story, table, a, result, next, w, hbind, ha, hrun, hvalid, hw, hbranch,
    safeRun_of_valid hbind ha hrun hvalid hw⟩

end Analysis

end StoryFlow
