import StoryFlow.Proofs.Scene.Building
import StoryFlow.Proofs.Scene.Vertices

/-! What a branch on a declared variable has to cover. The reports on the options and on the catch-all are
listed one by one, whatever the cases are. When there are none, each declared option has one case, each case
has an option, and the edges of the branch lead into the bodies of the cases that own the declared options,
in the order of the declaration. -/

namespace StoryFlow

open StoryFlow.Flow
open StoryFlow.Flow.Graph

namespace Scene

section Reports

variable (scene : String) (area : TextArea) (name : String)

def unknownOption (option : String) : Diagnostic :=
  problem scene .unknownOption area [name, option] (option ++ " is not an option of " ++ name)

def duplicateOption (option : String) : Diagnostic :=
  problem scene .duplicateOption area [name, option]
    ("option " ++ option ++ " of " ++ name ++ " is named more than once")

def notExhaustive (left : List String) : Diagnostic :=
  problem scene .notExhaustive area (name :: left)
    ("branchon " ++ name ++ " does not handle: " ++ String.intercalate ", " left)

def redundantOther : Diagnostic :=
  problem scene .redundantOther area [name]
    ("branchon " ++ name ++ " names every option and has an other branch")

def duplicateOther : Diagnostic :=
  problem scene .duplicateOther area [name] ("branchon " ++ name ++ " has more than one other branch")

def otherNotLast : Diagnostic :=
  problem scene .otherNotLast area [name] ("the other branch of branchon " ++ name ++ " is not last")

def repeatedAfter (declared before written : List String) : List String :=
  (written.zipIdx.filter fun p =>
    declared.contains p.1 && (before ++ written.take p.2).contains p.1).map Prod.fst

def uncovered (declared : List String) (cases : List BranchCase) : List String :=
  declared.filter fun option => !cases.any fun c => !c.other && c.optionNames.contains option

/-- One report for each written option that is not declared, and one each time that a declared option is
written again. -/
def optionReports (declared written : List String) : List Diagnostic :=
  (written.filter fun option => !declared.contains option).map (unknownOption scene area name) ++
    (repeatedAfter declared [] written).map (duplicateOption scene area name)

def coverageReports (left : List String) (cases : List BranchCase) : List Diagnostic :=
  (if !cases.any (·.other) && !left.isEmpty then [notExhaustive scene area name left] else []) ++
    if cases.any (·.other) && left.isEmpty then [redundantOther scene area name] else []

def lateReports (cases : List BranchCase) : List Diagnostic :=
  match cases.findIdx? (·.other) with
  | some i => if i + 1 = cases.length then [] else [otherNotLast scene area name]
  | none => []

def otherReports (cases : List BranchCase) : List Diagnostic :=
  List.replicate (cases.countP (·.other) - 1) (duplicateOther scene area name) ++
    lateReports scene area name cases

def branchReports (declared : List String) (cases : List BranchCase) : List Diagnostic :=
  optionReports scene area name declared (writtenOptions cases) ++
    coverageReports scene area name (uncovered declared cases) cases ++ otherReports scene area name cases

end Reports

variable {scene : String} {area : TextArea} {name : String} {declared : List String}
  {cases : List BranchCase}

section Options

variable {before written : List String} {option : String}

theorem repeatedAfter_cons : repeatedAfter declared before (option :: written) =
    (if declared.contains option && before.contains option then [option] else []) ++
      repeatedAfter declared (before ++ [option]) written := by
  have later : ((option :: written).zipIdx.tail.filter fun p =>
      declared.contains p.1 && (before ++ (option :: written).take p.2).contains p.1).map Prod.fst =
      repeatedAfter declared (before ++ [option]) written := by
    rw [List.zipIdx_cons, List.tail_cons, List.zipIdx_succ, List.filter_map, List.map_map, repeatedAfter]
    simp only [Function.comp_def, List.take_succ_cons, List.append_assoc, List.singleton_append]
  rw [← later, repeatedAfter, List.zipIdx_cons, List.filter_cons, List.tail_cons]
  simp only [List.take_zero, List.append_nil]
  split <;> rfl

theorem optionNameProblems_perm {named : List String}
    (h : ∀ o ∈ declared, o ∈ named ↔ o ∈ before) :
    (optionNameProblems scene area name declared named written).Perm
      ((written.filter fun o => !declared.contains o).map (unknownOption scene area name) ++
        (repeatedAfter declared before written).map (duplicateOption scene area name)) := by
  induction written generalizing named before with
  | nil => exact .nil
  | cons option rest ih =>
    rw [repeatedAfter_cons, optionNameProblems, List.filter_cons]
    by_cases hd : option ∈ declared
    · have declares : declared.contains option = true := List.contains_iff_mem.2 hd
      by_cases hn : option ∈ named
      · have wrote : before.contains option = true := List.contains_iff_mem.2 ((h option hd).1 hn)
        have next := @ih (before ++ [option]) named fun o ho => by
          rw [List.mem_append, List.mem_singleton, h o ho]
          refine (or_iff_left_of_imp ?_).symm
          rintro rfl
          exact (h o ho).1 hn
        rw [declares, wrote, List.contains_iff_mem.2 hn]
        exact (next.cons _).trans List.perm_middle.symm
      · have wrote : ¬before.contains option = true := fun hw =>
          hn ((h option hd).2 (List.contains_iff_mem.1 hw))
        have next := @ih (before ++ [option]) (option :: named) fun o ho => by
          rw [List.mem_append, List.mem_singleton, List.mem_cons, h o ho, or_comm]
        rw [declares, Bool.eq_false_iff.2 wrote, Bool.eq_false_iff.2 (mt List.contains_iff_mem.1 hn)]
        exact next
    · have undeclared : declared.contains option = false :=
        Bool.eq_false_iff.2 (mt List.contains_iff_mem.1 hd)
      have next := @ih (before ++ [option]) named fun o ho => by
        rw [List.mem_append, List.mem_singleton, h o ho]
        refine (or_iff_left ?_).symm
        rintro rfl
        exact hd ho
      rw [undeclared]
      exact next.cons _

end Options

theorem without_writtenOptions : Names.without (writtenOptions cases) declared = uncovered declared cases := by
  refine List.filter_congr fun option _ => ?_
  rw [Bool.not_inj_iff, Bool.eq_iff_iff]
  simp [writtenOptions, and_assoc]

theorem coverageProblems_eq : coverageProblems scene area name declared cases =
    coverageReports scene area name (uncovered declared cases) cases := by
  unfold coverageProblems coverageReports
  rw [without_writtenOptions]
  dsimp only
  cases cases.any (·.other) <;> cases (uncovered declared cases).isEmpty <;> rfl

theorem caseProblems_perm_seen : (caseProblems scene area name true cases).Perm
    (cases.flatMap (fun c => endingProblems scene c.body) ++
      List.replicate (cases.countP (·.other)) (duplicateOther scene area name)) := by
  induction cases with
  | nil => exact .nil
  | cons c rest ih =>
    rw [caseProblems, List.flatMap_cons, List.append_assoc, List.append_assoc, Bool.true_or]
    refine List.Perm.append_left _ ?_
    by_cases hother : c.other = true
    · rw [if_pos hother, List.countP_cons_of_pos hother, List.replicate_succ]
      exact (ih.cons _).trans List.perm_middle.symm
    · rw [if_neg hother, List.countP_cons_of_neg hother]
      exact ih

theorem lateReports_cons_of_pos {c : BranchCase} (h : c.other = true) :
    lateReports scene area name (c :: cases) = otherProblems scene area name false cases.isEmpty := by
  rw [lateReports, List.findIdx?_cons, h]
  cases cases <;> rfl

theorem lateReports_cons_of_neg {c : BranchCase} (h : ¬c.other = true) :
    lateReports scene area name (c :: cases) = lateReports scene area name cases := by
  rw [lateReports, lateReports, List.findIdx?_cons, if_neg h]
  cases cases.findIdx? (·.other) with
  | none => rfl
  | some i => simp

theorem caseProblems_perm : (caseProblems scene area name false cases).Perm
    (cases.flatMap (fun c => endingProblems scene c.body) ++ otherReports scene area name cases) := by
  induction cases with
  | nil => exact .nil
  | cons c rest ih =>
    rw [caseProblems, List.flatMap_cons, List.append_assoc, List.append_assoc, Bool.false_or]
    refine List.Perm.append_left _ ?_
    unfold otherReports at ih ⊢
    by_cases hother : c.other = true
    · rw [if_pos hother, List.countP_cons_of_pos hother, lateReports_cons_of_pos hother, hother,
        Nat.add_sub_cancel, ← List.append_assoc]
      exact List.perm_append_comm.trans (caseProblems_perm_seen.append_right _)
    · rw [if_neg hother, List.countP_cons_of_neg hother, lateReports_cons_of_neg hother,
        Bool.eq_false_iff.2 hother]
      exact ih

variable {table : SymbolTable} {declaration : Variable}

theorem branchProblems_perm (hd : table.declared? name = some declaration) :
    (branchProblems table scene area name cases).Perm
      (optionReports scene area name declaration.optionNames (writtenOptions cases) ++
        coverageReports scene area name (uncovered declaration.optionNames cases) cases) := by
  unfold branchProblems
  rw [hd]
  dsimp only
  rw [coverageProblems_eq]
  exact (optionNameProblems_perm fun o _ => iff_of_false List.not_mem_nil List.not_mem_nil).append_right _

theorem problems_branchOn_perm (hd : table.declared? name = some declaration) :
    ((Stmt.branchOn area name cases).problems table scene).Perm
      (cases.flatMap (fun c => endingProblems scene c.body) ++ caseBodyProblems table scene cases ++
        branchReports scene area name declaration.optionNames cases) := by
  have first := @caseProblems_perm scene area name cases
  have options := @branchProblems_perm scene area name cases table declaration hd
  rw [Stmt.problems, branchReports, List.append_assoc, List.append_assoc]
  refine (first.append_right _).trans ?_
  rw [List.append_assoc]
  refine List.Perm.append_left _ (List.perm_append_comm.trans ?_)
  rw [List.append_assoc]
  exact (options.append_right _).append_left _

section Owners

variable {option : String} {bodies : List Graph}

theorem pairwise_of_countP_le_one {α : Type} {p : α → Bool} {l : List α} (h : l.countP p ≤ 1) :
    l.Pairwise fun a b => ¬(p a = true ∧ p b = true) := by
  induction l with
  | nil => exact .nil
  | cons a rest ih =>
    rw [List.countP_cons] at h
    refine List.pairwise_cons.2 ⟨fun b hb hboth => ?_, ih (by omega)⟩
    rw [if_pos hboth.1] at h
    exact List.countP_eq_zero.1 (by omega) b hb hboth.2

theorem index_unique {α : Type} {r : α → Prop} {l : List α} (h : l.Pairwise fun a b => ¬(r a ∧ r b))
    {i j : Nat} {a b : α} (ha : l[i]? = some a) (hb : l[j]? = some b) (hra : r a) (hrb : r b) : i = j := by
  obtain ⟨hi, rfl⟩ := List.getElem?_eq_some_iff.1 ha
  obtain ⟨hj, rfl⟩ := List.getElem?_eq_some_iff.1 hb
  rw [List.pairwise_iff_getElem] at h
  rcases Nat.lt_trichotomy i j with hlt | rfl | hlt
  · exact absurd ⟨hra, hrb⟩ (h i j hi hj hlt)
  · rfl
  · exact absurd ⟨hrb, hra⟩ (h j i hj hi hlt)

theorem owns_pairwise (hn : cases.Pairwise fun c d => ¬(c.Names option ∧ d.Names option))
    (ho : cases.Pairwise fun c d => ¬(c.other = true ∧ d.other = true)) :
    cases.Pairwise fun c d => ¬(BranchCase.Owns cases c option ∧ BranchCase.Owns cases d option) := by
  refine (hn.and ho).imp_of_mem fun {c d} hc hd hcd => ?_
  rintro ⟨hown | ⟨hother, hnone⟩, hown' | ⟨hother', hnone'⟩⟩
  · exact hcd.1 ⟨hown, hown'⟩
  · exact hnone' c hc hown
  · exact hnone d hd hown'
  · exact hcd.2 ⟨hother, hother'⟩

theorem exists_owner (h : (∃ c ∈ cases, c.Names option) ∨ ∃ c ∈ cases, c.other = true) :
    ∃ c ∈ cases, BranchCase.Owns cases c option := by
  by_cases hnamed : ∃ c ∈ cases, c.Names option
  · obtain ⟨c, hc, hname⟩ := hnamed
    exact ⟨c, hc, Or.inl hname⟩
  · obtain ⟨c, hc, hother⟩ := h.resolve_left hnamed
    exact ⟨c, hc, Or.inr ⟨hother, fun d hd hname => hnamed ⟨d, hd, hname⟩⟩⟩

/-- Every declared option has one case, and every case an option. -/
structure Covers (declared : List String) (cases : List BranchCase) : Prop where
  owned : ∀ option ∈ declared, ∃! i : Nat, ∃ c, cases[i]? = some c ∧ BranchCase.Owns cases c option
  used : ∀ c ∈ cases, ∃ option ∈ declared, BranchCase.Owns cases c option

/-- The bodies are parts of the graph, and the edges of the branch under the identity `n` lead into them by
option, in the order of the declaration: into the body of the case that owns the option. -/
structure LeadsByOption (g : Graph) (n : Nat) (v : Vertex) (declared : List String)
    (cases : List BranchCase) (bodies : List Graph) : Prop where
  parts : ∀ b ∈ bodies, ∀ id x, b.node? id = some x → g.node? id = some x
  edges : ∃ start : String → List Edge, g.node? n = some (v, declared.flatMap start) ∧
    ∀ option ∈ declared, ∃ (i : Nat) (c : BranchCase) (b : Graph), cases[i]? = some c ∧
      bodies[i]? = some b ∧ BranchCase.Owns cases c option ∧ start option = b.start

theorem rules_of_branchReports (hd : table.declared? name = some declaration)
    (h : branchReports scene area name declaration.optionNames cases = []) :
    branchProblems table scene area name cases = [] ∧
      (∀ option, cases.Pairwise fun c d => ¬(c.Names option ∧ d.Names option)) ∧
      cases.Pairwise fun c d => ¬(c.other = true ∧ d.other = true) := by
  obtain ⟨options, others⟩ := List.append_eq_nil_iff.1 h
  obtain ⟨others, -⟩ := List.append_eq_nil_iff.1 others
  have perm := @branchProblems_perm scene area name cases table declaration hd
  rw [options] at perm
  have none := perm.eq_nil
  refine ⟨none, fun option => ?_, pairwise_of_countP_le_one ?_⟩
  · unfold branchProblems at none
    simp only [hd, List.append_eq_nil_iff] at none
    exact names_pairwise_of_nodup (nodup_of_optionNameProblems none.1).1 option
  · exact Nat.sub_eq_zero_iff_le.1 ((List.replicate_eq_nil_iff _).1 others)

theorem covers_of_branchReports (hd : table.declared? name = some declaration)
    (hn : ∀ c ∈ cases, c.other = true ∨ c.optionNames ≠ [])
    (h : branchReports scene area name declaration.optionNames cases = []) :
    Covers declaration.optionNames cases := by
  obtain ⟨none, names, others⟩ := rules_of_branchReports hd h
  constructor
  · intro option ho
    have coverage : coverageProblems scene area name declaration.optionNames cases = [] := by
      unfold branchProblems at none
      simp only [hd, List.append_eq_nil_iff] at none
      exact none.2
    obtain ⟨c, hc, hown⟩ := exists_owner (names_or_other_of_coverage coverage ho)
    obtain ⟨i, hi⟩ := List.mem_iff_getElem?.1 hc
    refine ⟨i, ⟨c, hi, hown⟩, ?_⟩
    rintro j ⟨d, hj, hown'⟩
    exact index_unique (owns_pairwise (names option) others) hj hi hown' hown
  · intro c hc
    have entered := entered_of_cased none hc (hn c hc)
    unfold BranchCase.Entered at entered
    rwa [hd] at entered

/-- Under the rules the edges into the targets are those into the bodies of the owners. -/
theorem edges_of_owners (hl : cases.length = bodies.length)
    (hc : Covers declared cases)
    (hn : ∀ option, cases.Pairwise fun c d => ¬(c.Names option ∧ d.Names option))
    (ho : cases.Pairwise fun c d => ¬(c.other = true ∧ d.other = true)) :
    ∃ start : String → List Edge,
      (declared.filterMap (owner? (cases.zip bodies))).flatMap Graph.start = declared.flatMap start ∧
      ∀ option ∈ declared, ∃ (i : Nat) (c : BranchCase) (b : Graph), cases[i]? = some c ∧
        bodies[i]? = some b ∧ BranchCase.Owns cases c option ∧ start option = b.start := by
  refine ⟨fun option => (owner? (cases.zip bodies) option).toList.flatMap Graph.start, ?_, ?_⟩
  · rw [List.filterMap_eq_flatMap_toList, List.flatMap_assoc]
  · intro option hoption
    obtain ⟨i, ⟨c, hi, hown⟩, -⟩ := hc.owned option hoption
    obtain ⟨hlt, -⟩ := List.getElem?_eq_some_iff.1 hi
    have hb : bodies[i]? = some bodies[i] := List.getElem?_eq_getElem (hl ▸ hlt)
    have hz : (c, bodies[i]) ∈ cases.zip bodies :=
      List.mem_iff_getElem?.2 ⟨i, List.getElem?_zip_eq_some.2 ⟨hi, hb⟩⟩
    have owner := (owner?_eq_some_iff hl (hn option) ho).2 ⟨c, hz, hown⟩
    refine ⟨i, c, bodies[i], hi, hb, hown, ?_⟩
    dsimp only
    rw [owner, Option.toList_some, List.flatMap_singleton]

theorem leads_of_branchReports (hd : table.declared? name = some declaration)
    (hn : ∀ c ∈ cases, c.other = true ∨ c.optionNames ≠ [])
    (h : branchReports scene area name declaration.optionNames cases = []) (s : Supply) :
    ∃ g s' bodies t t', (Stmt.branchOn area name cases).graph table scene s = .ok (g, s') ∧
      caseGraphs table scene t cases = .ok (bodies, t') ∧ t.identities = s.identities + 1 ∧
      LeadsByOption g s.identities (.ofStmt s.identities (some (.branchOn area name cases)) scene)
        declaration.optionNames cases bodies := by
  obtain ⟨none, names, others⟩ := rules_of_branchReports hd h
  have covers := covers_of_branchReports hd hn h
  obtain ⟨⟨g, s'⟩, hg⟩ := builds table scene (.branchOn area name cases) s
  obtain ⟨g₀, bodies, t, t', hang, -, -, each, hbodies, ht, -, edges⟩ :=
    branchOn_hanging (fun c _ x _ => shapes table scene x) hg
  have targets : branchTargets table name cases bodies =
      declaration.optionNames.filterMap (owner? (cases.zip bodies)) := by
    rw [branchTargets, hd]
  refine ⟨g, s', bodies, t, t', hg, by rwa [caseGraphs_eq], ht, ?_, ?_⟩
  · intro b hb id x hx
    rw [← List.map_snd_zip each.length_eq.ge, List.mem_map] at hb
    obtain ⟨⟨c, b⟩, hz, rfl⟩ := hb
    obtain ⟨option, ho, hown⟩ := covers.used c (List.of_mem_zip hz).1
    have target : b ∈ branchTargets table name cases bodies := by
      rw [targets, List.mem_filterMap]
      exact ⟨option, ho, (owner?_eq_some_iff each.length_eq (names option) others).2 ⟨c, hz, hown⟩⟩
    have around := (hang.join.nodes id x).2 ⟨b, List.mem_cons_of_mem _ target, hx⟩
    rw [node?_around] at around
    split at around
    · cases around
    · exact around
  · obtain ⟨start, heq, owners⟩ := edges_of_owners each.length_eq covers names others
    refine ⟨start, ?_, owners⟩
    rw [← heq, ← targets, ← edges, hang.hub.node, edgesOf_of_node? hang.hub.node]

end Owners

/-- Whether a branch on a declared variable covers it. Apart from the bodies of its cases the reports are
exactly those on the options and the catch-all, in whatever order the covered options are collected. If
there are none, each declared option belongs to one case, each case has an option, and the edges of the
branch follow the declaration. -/
theorem branch_coverage (hd : table.declared? name = some declaration)
    (hn : ∀ c ∈ cases, c.other = true ∨ c.optionNames ≠ []) :
    ((Stmt.branchOn area name cases).problems table scene).Perm
        (cases.flatMap (fun c => endingProblems scene c.body) ++ caseBodyProblems table scene cases ++
          branchReports scene area name declaration.optionNames cases) ∧
      (∀ covered, (∀ o, o ∈ covered ↔ o ∈ declaration.optionNames ∧ ∃ c ∈ cases, c.Names o) →
        coverageProblems scene area name declaration.optionNames cases =
          coverageReports scene area name (Names.without covered declaration.optionNames) cases) ∧
      (branchReports scene area name declaration.optionNames cases = [] →
        Covers declaration.optionNames cases ∧
        ∀ s : Supply, ∃ g s' bodies t t',
          (Stmt.branchOn area name cases).graph table scene s = .ok (g, s') ∧
          caseGraphs table scene t cases = .ok (bodies, t') ∧ t.identities = s.identities + 1 ∧
          LeadsByOption g s.identities (.ofStmt s.identities (some (.branchOn area name cases)) scene)
            declaration.optionNames cases bodies) := by
  refine ⟨problems_branchOn_perm hd, fun covered hcovered => ?_, fun h => ?_⟩
  · have same : Names.without covered declaration.optionNames =
        uncovered declaration.optionNames cases := by
      refine List.filter_congr fun option ho => ?_
      rw [Bool.not_inj_iff, Bool.eq_iff_iff, List.contains_iff_mem, hcovered]
      simp [ho, BranchCase.Names]
    rw [coverageProblems_eq, same]
  · exact ⟨covers_of_branchReports hd hn h, leads_of_branchReports hd hn h⟩

/-- Two options share a case, and the catch-all, which does nothing, is for the third. -/
def shared : List BranchCase :=
  [⟨{}, some ["calm", "merry"], false, [.plain {} (.output "well")]⟩, ⟨{}, none, true, []⟩]

/-- An option twice, one that there is not, and two catch-alls, neither of them last. -/
def muddled : List BranchCase :=
  [⟨{}, some ["grim", "odd", "grim"], false, []⟩, ⟨{}, none, true, []⟩, ⟨{}, none, true, []⟩,
    ⟨{}, some ["calm"], false, []⟩]

theorem branch_coverage_moods : ∃ declaration, moods.declared? "mood" = some declaration ∧
    (∀ c ∈ shared, c.other = true ∨ c.optionNames ≠ []) ∧
    branchReports "home" {} "mood" declaration.optionNames shared = [] ∧
    Covers declaration.optionNames shared ∧
    ((Stmt.branchOn {} "mood" shared).graph moods "home" {}).toOption.map (fun r => r.1.edgesOf 0) =
      some [⟨1, false⟩, Edge.toSink, ⟨1, false⟩] ∧
    (∀ c ∈ muddled, c.other = true ∨ c.optionNames ≠ []) ∧
    ((Stmt.branchOn {} "mood" muddled).problems moods "home").Perm
      [unknownOption "home" {} "mood" "odd", duplicateOption "home" {} "mood" "grim",
        duplicateOther "home" {} "mood", otherNotLast "home" {} "mood"] := by
  have named : ∀ c ∈ shared, c.other = true ∨ c.optionNames ≠ [] := by
    simp [shared, BranchCase.optionNames]
  have named' : ∀ c ∈ muddled, c.other = true ∨ c.optionNames ≠ [] := by
    simp [muddled, BranchCase.optionNames]
  obtain ⟨-, -, covers⟩ := @branch_coverage "home" {} "mood" shared moods _ rfl named
  obtain ⟨perm, -, -⟩ := @branch_coverage "home" {} "mood" muddled moods _ rfl named'
  have clean : branchReports "home" {} "mood" ["calm", "grim", "merry"] shared = [] := by decide +kernel
  refine ⟨_, rfl, named, clean, (covers clean).1, by decide +kernel, named', perm.trans ?_⟩
  decide +kernel

end Scene

end StoryFlow
