import StoryFlow.Proofs.Assignment.Fixpoint
import StoryFlow.Proofs.Assignment.Safety
import StoryFlow.Proofs.Calls.Context

/-! What the rules find in a scene on its own, and what they find in the program. The statements of the scene
are carried out in the program too, with those of its callers before and those of its callees between. So
what may be assigned, what may be locked and what is definitely assigned remains so. A reading that was
locked on its own may be unlocked by a scene that is called, and a second assignment may come to be one
behind a checkpoint; nothing else is reported otherwise. -/

namespace StoryFlow

open StoryFlow.Flow
open StoryFlow.Flow.Graph
open Relation

variable {table : SymbolTable} {g h : Graph} {graphs : SceneGraphs} {w u before : List Stmt} {x : String}
  {f F : Facts} {v : Vertex} {id : VertexId}

section Histories

theorem Stmt.Sets.no_call {s : Stmt} (h : s.Sets table x) : s.callee? = none := by
  unfold Stmt.Sets at h
  split at h
  · rfl
  · rfl
  · cases h

theorem Stmt.IsCheckpoint.no_call {s : Stmt} (h : s.IsCheckpoint) : s.callee? = none := by
  unfold Stmt.IsCheckpoint at h
  split at h
  · rfl
  · cases h

theorem AssignedIn.unfolds (ha : AssignedIn table w x) (hu : Unfolds graphs w u) :
    AssignedIn table (before ++ u) x := by
  obtain ⟨s, hs, hset⟩ := ha
  exact ⟨s, List.mem_append_right _ (hu.keeps hs hset.no_call), hset⟩

theorem unfolds_checkpoint {c : Stmt} {a r : List Stmt} (hc : c.IsCheckpoint)
    (hu : Unfolds graphs (a ++ c :: r) u) : ∃ e e', u = e ++ c :: e' ∧ Unfolds graphs a e ∧
      Unfolds graphs r e' := by
  obtain ⟨e, e', rfl, he, he'⟩ := unfolds_append.1 hu
  cases he' with
  | keep _ hr => exact ⟨e, _, rfl, he, hr⟩
  | call hcall => cases hc.no_call.symm.trans hcall

theorem LockedIn.unfolds (hl : LockedIn table w x) (hu : Unfolds graphs w u) :
    LockedIn table (before ++ u) x := by
  obtain ⟨a, c, r, rfl, hc, ha⟩ := hl
  obtain ⟨e, e', rfl, he, -⟩ := unfolds_checkpoint hc hu
  exact ⟨before ++ e, c, e', (List.append_assoc ..).symm, hc, ha.unfolds he⟩

theorem not_touchedIn_unfolds (ha : AssignedIn table w x) (hn : ¬TouchedIn table w x)
    (hu : Unfolds graphs w u) (hcalls : ∀ r e t, r ⊆ w → Unfolds graphs r e → t ∈ e →
      t.Sets table x ∨ t.Consults table x → t ∈ r) : ¬TouchedIn table (before ++ u) x := by
  obtain ⟨a, c, r, rfl, hc, hr⟩ := exists_last_checkpoint ha hn
  obtain ⟨e, e', rfl, -, he'⟩ := unfolds_checkpoint hc hu
  rintro ⟨b, m, heq, hm, t, ht, htouch⟩
  rw [← List.append_assoc] at heq
  have hin := mem_of_append_eq heq hc hm t ht
  have sub : r ⊆ a ++ c :: r := fun s hs => List.mem_append_right _ (List.mem_cons_of_mem _ hs)
  obtain ⟨hsets, hconsults⟩ := hr t (hcalls r e' t sub he' hin htouch)
  exact htouch.elim hsets hconsults

end Histories

/-- The facts say of a set of sequences exactly what holds of each of them. -/
structure Facts.ExactFor (table : SymbolTable) (words : Language Stmt) (f : Facts) : Prop where
  definite : ∀ x, x ∈ f.definite ↔ ∀ w ∈ words, AssignedIn table w x
  possible : ∀ x, x ∈ f.possible ↔ ∃ w ∈ words, AssignedIn table w x
  locked : ∀ x, x ∈ f.locked ↔ ∃ w ∈ words, LockedIn table w x
  segment : ∀ x, x ∈ f.segment ↔ ∀ w ∈ words, TouchedIn table w x

theorem Facts.Exact.for_words (hf : f.Exact table fun p => g.Reaches p id) (hs : g.Stated) :
    f.ExactFor table (g.wordsTo id) := by
  have all : ∀ P : List Stmt → Prop, (∀ p, g.Reaches p id → P (p.filterMap Vertex.stmt)) ↔
      ∀ w ∈ g.wordsTo id, P w := by
    intro P
    constructor
    · rintro h w ⟨p, hp, hr⟩
      exact hr.filterMap_eq ▸ h p hp
    · exact fun h p hp => h _ ⟨p, hp, hs.reads hp⟩
  have some : ∀ P : List Stmt → Prop, (∃ p, g.Reaches p id ∧ P (p.filterMap Vertex.stmt)) ↔
      ∃ w ∈ g.wordsTo id, P w := by
    intro P
    constructor
    · rintro ⟨p, hp, h⟩
      exact ⟨_, ⟨p, hp, hs.reads hp⟩, h⟩
    · rintro ⟨w, ⟨p, hp, hr⟩, h⟩
      exact ⟨p, hp, hr.filterMap_eq.symm ▸ h⟩
  exact ⟨fun x => (hf.definite x).trans (all (AssignedIn table · x)),
    fun x => (hf.possible x).trans (some (AssignedIn table · x)),
    fun x => (hf.locked x).trans (some (LockedIn table · x)),
    fun x => (hf.segment x).trans (all (TouchedIn table · x))⟩

/-- The problem of an assignment behind a checkpoint, in place of that of a second assignment. -/
def Diagnostic.behindCheckpoint (d : Diagnostic) (x : String) : Diagnostic :=
  { d with kind := .outcomeLocked, message := Assignment.inTicks x ++ " is locked by a checkpoint" }

namespace Assignment

theorem analyze_regular (hr : g.Regular) (hw : g.Whole) (hs : g.Stated) (table : SymbolTable) :
    ∃ report, analyze g table = .ok report ∧ ∀ id, g.has id = true → ∃ f,
      report.before.get? id = some f ∧ f.ExactFor table (g.wordsTo id) := by
  have start : ∀ id, g.has id = true → Worklist.FromStart g id := by
    intro id hid
    obtain ⟨e, he, -, hpath⟩ := hr.reached id hid
    refine ⟨e, he, ?_, hpath⟩
    rcases hpath.cases_head with heq | ⟨a, ha, -⟩
    · obtain ⟨y, hy⟩ := has_iff.1 hid
      rw [heq]
      exact hw.wf.real id y hy
    · obtain ⟨v, es, hn, -⟩ := ha
      exact hw.wf.real _ _ hn
  obtain ⟨-, -, report, -, -, -, hreport, -, hexact⟩ := analyze_exact table
    (invalidity?_eq_none_iff.1 hw.invalidity?_eq_none) hr.acyclic start
  refine ⟨report, hreport, fun id hid => ?_⟩
  obtain ⟨f, hf, hx⟩ := hexact id hid
  exact ⟨f, hf, hx.for_words hs⟩

def Report.At (report : Report) (g : Graph) (table : SymbolTable) (id : VertexId) (v : Vertex)
    (d : Diagnostic) : Prop :=
  g.Holds id v ∧ d ∈ report.problems ∧ ∃ f, report.before.get? id = some f ∧ d ∈ problemsAt table f v

theorem mem_problems_iff {report : Report} {d : Diagnostic} (hg : g.Valid)
    (h : analyze g table = .ok report) : d ∈ report.problems ↔ ∃ id v, g.Holds id v ∧
      d ∈ problemsAt table ((report.before.get? id).getD {}) v := by
  obtain ⟨⟨order, notes⟩, horder, h₁⟩ := ok_of_bind_ok (ofFault_ok h)
  obtain ⟨w, -, h₂⟩ := ok_of_bind_ok h₁
  cases h₂
  have hall := (visitOrder_all hg horder).2
  rw [List.mem_flatMap]
  constructor
  · rintro ⟨id, hid, hd⟩
    obtain ⟨⟨v, es⟩, hn⟩ := has_iff.1 ((hall id).1 hid)
    rw [vertex?_of_node? hn] at hd
    exact ⟨id, v, ⟨es, hn⟩, hd⟩
  · rintro ⟨id, v, ⟨es, hn⟩, hd⟩
    refine ⟨id, (hall id).2 (has_iff.2 ⟨_, hn⟩), ?_⟩
    rw [vertex?_of_node? hn]
    exact hd

theorem no_call_of_problemsAt {d : Diagnostic} (hd : d ∈ problemsAt table f v) :
    v.callee? = none := by
  unfold problemsAt at hd
  rw [Vertex.callee?]
  split at hd <;> rename_i hv
  · rw [hv]; rfl
  · rw [hv]; rfl
  · rw [hv]; rfl
  · rw [hv]; rfl
  · rw [hv]; rfl
  · cases hd

/-- The facts of the same statement in a larger context: what may or must be so remains so. -/
structure Grows (f F : Facts) : Prop where
  definite : f.definite ⊆ F.definite
  possible : f.possible ⊆ F.possible
  locked : f.locked ⊆ F.locked

variable {d : Diagnostic} {name option : String} {c : Vertex}

theorem problem_chain {kind : DiagnosticKind} {message : String} (hs : c.stmt = v.stmt) :
    { problem v kind name message with chain := c.chain } = problem c kind name message := by
  rw [problem, problem, hs]

theorem misuse_chain {want : VarKind} (hs : c.stmt = v.stmt) :
    { misuse table v name want with chain := c.chain } = misuse table c name want := by
  unfold misuse
  split
  · exact problem_chain hs
  · exact problem_chain hs

theorem readProblems_grow (hs : c.stmt = v.stmt) (hf : Grows f F)
    (hd : d ∈ readProblems table f v name) (hk : d.kind ≠ .notDefinitelyAssigned)
    (hseg : d.kind = .outcomeLocked → name ∈ f.definite → name ∉ f.segment → name ∉ F.segment) :
    { d with chain := c.chain } ∈ readProblems table F c name := by
  rw [mem_readProblems] at hd ⊢
  rcases hd with ⟨hnone, rfl⟩ | ⟨y, hy, hfall, ⟨-, rfl⟩ | ⟨hdef, hkind, hno, rfl⟩⟩
  · exact Or.inl ⟨hnone, problem_chain hs⟩
  · exact absurd rfl hk
  · exact Or.inr ⟨y, hy, hfall, Or.inr ⟨hf.definite hdef, hkind, hseg rfl hdef hno, problem_chain hs⟩⟩

/-- A second assignment may be one behind a checkpoint in the larger context. -/
theorem assignProblems_grow (hs : c.stmt = v.stmt) (hf : Grows f F)
    (hd : d ∈ assignProblems table f v name option) :
    { d with chain := c.chain } ∈ assignProblems table F c name option ∨
      (d.kind = .maybeAssignedTwice ∧ ∃ x, d.names = [x] ∧ x ∈ F.locked ∧
        { d with chain := c.chain }.behindCheckpoint x ∈ assignProblems table F c name option) := by
  rw [mem_assignProblems] at hd
  rcases hd with ⟨hnone, rfl⟩ | ⟨o, ho, ⟨hoption, rfl⟩ | ⟨hlock, rfl⟩ | ⟨-, hposs, rfl⟩⟩
  · exact Or.inl (mem_assignProblems.2 (Or.inl ⟨hnone, misuse_chain hs⟩))
  · exact Or.inl (mem_assignProblems.2 (Or.inr ⟨o, ho, Or.inl ⟨hoption, problem_chain hs⟩⟩))
  · exact Or.inl (mem_assignProblems.2
      (Or.inr ⟨o, ho, Or.inr (Or.inl ⟨hf.locked hlock, problem_chain hs⟩)⟩))
  · by_cases hlock : name ∈ F.locked
    · refine Or.inr ⟨rfl, name, rfl, hlock,
        mem_assignProblems.2 (Or.inr ⟨o, ho, Or.inr (Or.inl ⟨hlock, ?_⟩)⟩)⟩
      rw [Diagnostic.behindCheckpoint, problem, problem, hs]
    · exact Or.inl (mem_assignProblems.2
        (Or.inr ⟨o, ho, Or.inr (Or.inr ⟨hlock, hf.possible hposs, problem_chain hs⟩)⟩))

theorem problemsAt_grow (hs : c.stmt = v.stmt) (hf : Grows f F) (hd : d ∈ problemsAt table f v)
    (hk : d.kind ≠ .notDefinitelyAssigned) (hseg : d.kind = .outcomeLocked → ∀ s name, v.stmt = some s →
      s.BranchesOn name → name ∈ f.definite → name ∉ f.segment → name ∉ F.segment) :
    { d with chain := c.chain } ∈ problemsAt table F c ∨
      (d.kind = .maybeAssignedTwice ∧ ∃ x, d.names = [x] ∧ x ∈ F.locked ∧
        { d with chain := c.chain }.behindCheckpoint x ∈ problemsAt table F c) := by
  unfold problemsAt at hd ⊢
  rw [hs]
  split at hd <;> rename_i hv
  · exact Or.inl (readProblems_grow hs hf hd hk fun hlocked => hseg hlocked _ _ hv rfl)
  · exact assignProblems_grow hs hf hd
  case h_6 => cases hd
  all_goals
    split at hd <;> rename_i hdeclared
    · cases hd
    · rw [if_neg hdeclared, List.mem_singleton.1 hd]
      exact Or.inl (List.mem_singleton.2 (misuse_chain hs))

end Assignment

section Program

variable {story : Story} {supply : Supply} {scenes : SceneGraphs} {program : Program}
  {config : Config.StoryConfig} {path scene : String} {entry : Scene}

/-- No scene that is called from the given one, directly or not, sets the variable or branches on it. -/
def Story.Undisturbed (story : Story) (table : SymbolTable) (scene x : String) : Prop :=
  ∀ t ∈ story.scenes, TransGen story.Calls scene t.name → ∀ s, .stmt s ∈ bodyNodes t.body →
    ¬s.Sets table x ∧ ¬s.Consults table x

theorem Story.Undisturbed.unfolds {t : Stmt} (hun : story.Undisturbed table scene x)
    (hd : (story.scenes.map Scene.name).Nodup) (hb : story.build table supply = .ok scenes)
    (hh : scenes.graph? scene = some h) (hw : w ∈ h.wordsTo id) {r e : List Stmt} (hr : r ⊆ w)
    (hu : Unfolds scenes r e) (ht : t ∈ e) (hx : t.Sets table x ∨ t.Consults table x) : t ∈ r := by
  have held : ∀ s ∈ r, ∃ k c, h.Holds k c ∧ c.stmt = some s :=
    fun s hs => holds_of_mem_wordsTo (SceneGraphs.whole_of_build hb hh).wf hw (hr hs)
  refine (hu.called hd hb hh held ht).resolve_right ?_
  rintro ⟨other, hother, hcalled, rfl | hbody⟩
  · exact hx.elim not_false not_false
  · obtain ⟨hsets, hconsults⟩ := hun other hother hcalled t hbody
    exact hx.elim hsets hconsults

namespace Assignment

/-- The problem is one at the vertex, or it was one of a second assignment, which in the program may come
behind a checkpoint, and is reported as that. -/
def Report.Retains (report : Report) (g : Graph) (table : SymbolTable) (id : VertexId) (v : Vertex)
    (d : Diagnostic) : Prop :=
  report.At g table id v d ∨ (d.kind = .maybeAssignedTwice ∧ ∃ x, d.names = [x] ∧
    (∃ w ∈ g.wordsTo id, LockedIn table w x) ∧ report.At g table id v (d.behindCheckpoint x))

section Embedding

variable {inner outer : Language Stmt} (he : Embeds scenes inner outer) (hf : f.ExactFor table inner)
  (hF : F.ExactFor table outer)

include he hf hF

theorem grows_of_embeds : Grows f F where
  definite := by
    intro x hx
    refine (hF.definite x).2 fun e hin => ?_
    obtain ⟨before, u, w, hw, hu, rfl⟩ := he.covered e hin
    exact ((hf.definite x).1 hx w hw).unfolds hu
  possible := by
    intro x hx
    obtain ⟨w, hw, hassigned⟩ := (hf.possible x).1 hx
    obtain ⟨before, u, hu, hin⟩ := he.within w hw
    exact (hF.possible x).2 ⟨before ++ u, hin, hassigned.unfolds hu⟩
  locked := by
    intro x hx
    obtain ⟨w, hw, hlocked⟩ := (hf.locked x).1 hx
    obtain ⟨before, u, hu, hin⟩ := he.within w hw
    exact (hF.locked x).2 ⟨before ++ u, hin, hlocked.unfolds hu⟩

theorem not_mem_segment_of_embeds (hcalls : ∀ w ∈ inner, ∀ r e t, r ⊆ w → Unfolds scenes r e → t ∈ e →
      t.Sets table x ∨ t.Consults table x → t ∈ r)
    (hdef : x ∈ f.definite) (hseg : x ∉ f.segment) : x ∉ F.segment := by
  rw [hf.segment] at hseg
  push Not at hseg
  obtain ⟨w, hw, hno⟩ := hseg
  obtain ⟨before, u, hu, hin⟩ := he.within w hw
  have untouched : ¬TouchedIn table (before ++ u) x :=
    not_touchedIn_unfolds ((hf.definite x).1 hdef w hw) hno hu (hcalls w hw)
  exact fun hall => untouched ((hF.segment x).1 hall _ hin)

end Embedding

/-- What the rules find in a scene on its own, other than a variable that is not definitely assigned, they
find in the program at every copy of the statement; a second assignment may be found behind a checkpoint
there. Where the scene reads a variable that is locked, the scenes that it calls have to leave the variable
alone. -/
theorem standalone_in_context (hbind : config.bind path = .ok (story, table))
    (hcases : ∀ area name cases, .stmt (.branchOn area name cases) ∈ story.nodes →
      table.declared? name = none → cases ≠ [])
    (hb : story.build table supply = .ok scenes)
    (ha : Program.assemble story scenes scenes.supply = .ok program) (hg : program.graph = some g)
    (hentry : story.entryScene? = some entry) (hreached : ReflTransGen story.Calls entry.name scene) :
    ∃ h own found, scenes.graph? scene = some h ∧ analyze h table = .ok own ∧
      analyze g table = .ok found ∧ (∃ calls, CallPath scenes entry.name calls scene) ∧
      ∀ d ∈ Analysis.standalone own.problems, ∃ id v, own.At h table id v d ∧
        ((d.kind = .outcomeLocked → ∀ s x, v.stmt = some s → s.BranchesOn x →
            story.Undisturbed table scene x) →
          ∀ calls, CallPath scenes entry.name calls scene → ∃ k,
            found.Retains g table k (v.copied calls scene k)
              { d with chain := chainAlong calls scene }) := by
  obtain ⟨entry', copy, hentry', copied, -, kept⟩ := Program.copied_of_assemble hbind hb ha hg
  cases hentry.symm.trans hentry'
  obtain ⟨_, -, expanded⟩ := Program.expanded_of_assemble hb ha hg
  obtain ⟨-, distinct⟩ := Config.scenes_of_bind hbind
  have branching := branching_of_bind hbind hcases
  obtain ⟨hsome, first, hfirst, -⟩ := kept scene hreached
  obtain ⟨h, hh⟩ := Option.isSome_iff_exists.1 hsome
  have whole := SceneGraphs.whole_of_build hb hh
  obtain ⟨own, hown, exactOwn⟩ := analyze_regular ((SceneGraphs.formed hb hh).regular branching whole)
    whole (SceneGraphs.stated hb hh) table
  obtain ⟨found, hfound, exactFound⟩ := analyze_regular
    ((Program.formed_of_assemble hb ha hg).regular branching expanded.whole) expanded.whole
    (copied.stated hb) table
  refine ⟨h, own, found, hh, hown, hfound, ⟨first, hfirst⟩, fun d hd => ?_⟩
  obtain ⟨hin, hkind⟩ := List.mem_filter.1 hd
  have hkind : d.kind ≠ .notDefinitelyAssigned := by simpa using hkind
  obtain ⟨id, v, hv, hat⟩ := (mem_problems_iff whole.valid hown).1 hin
  obtain ⟨f, hf, exactf⟩ := exactOwn id hv.has
  rw [hf, Option.getD_some] at hat
  refine ⟨id, v, ⟨hv, hin, f, hf, hat⟩, fun hun calls hcalls => ⟨copy (calls, id), ?_⟩⟩
  have occurs : Occurs scenes entry.name (calls, id) scene v :=
    ⟨hcalls, ⟨h, hh, hv⟩, no_call_of_problemsAt hat⟩
  have held := copied.copies.into _ _ _ occurs
  obtain ⟨F, hF, exactF⟩ := exactFound _ held.has
  have there : ∀ d' ∈ problemsAt table F (v.copied calls scene (copy (calls, id))),
      found.At g table (copy (calls, id)) (v.copied calls scene (copy (calls, id))) d' := by
    intro d' hd'
    refine ⟨held, (mem_problems_iff expanded.whole.valid hfound).2 ⟨_, _, held, ?_⟩, F, hF, hd'⟩
    rwa [hF, Option.getD_some]
  have embeds : Embeds scenes (h.wordsTo id) (g.wordsTo (copy (calls, id))) :=
    Program.embeds_of_reached hbind hcases hb ha hg hentry hreached hh copied occurs
  have same : (v.copied calls scene (copy (calls, id))).stmt = v.stmt := rfl
  rcases problemsAt_grow same (grows_of_embeds embeds exactf exactF) hat hkind
      (fun hlocked s x hs hbranch => not_mem_segment_of_embeds embeds exactf exactF
        fun w hw r e t hr => (hun hlocked s x hs hbranch).unfolds distinct hb hh hw hr)
    with hsame | ⟨htwice, x, hx, hlocked, hother⟩
  · exact Or.inl (there _ hsame)
  · exact Or.inr ⟨htwice, x, hx, (exactF.locked x).1 hlocked, there _ hother⟩

/-- A promise that is sealed by a checkpoint is read again, after a scene that has nothing to do with it. -/
def sealing : Config.StoryConfig where
  outcomes := [some { name := "word", options := some ["kept", "broken"] }]
  scenes := [
    some ⟨"home", true, "", [some (.text "" .call (some "oath"))]⟩,
    some ⟨"oath", false, "", [
      some (.assign "5:3" (some ⟨"word", "kept"⟩)),
      some (.text "" .checkpoint none),
      some (.text "" .call (some "rest")),
      some (.branchOn "8:3" "word" [some ⟨none, true, "", []⟩])]⟩,
    some ⟨"rest", false, "", [some (.text "" .output (some "night"))]⟩]

def isOutput : TreeNode → Bool
  | .stmt (.plain _ (.output _)) => true
  | _ => false

theorem standalone_in_context_sealing : ∃ story table scenes program g h own found,
    sealing.bind "tale" = .ok (story, table) ∧ story.build table {} = .ok scenes ∧
      Program.assemble story scenes scenes.supply = .ok program ∧ program.graph = some g ∧
      scenes.graph? "oath" = some h ∧ analyze h table = .ok own ∧ analyze g table = .ok found ∧
      (Analysis.standalone own.problems).map Diagnostic.kind = [.outcomeLocked] ∧
      ∀ d ∈ Analysis.standalone own.problems,
        ∃ calls k v, found.Retains g table k v { d with chain := chainAlong calls "oath" } := by
  have declared : (sealing.bind "tale").toOption.any
      (fun r => r.1.nodes.all (TreeNode.branches r.2)) = true := by decide +kernel
  have untouched : (sealing.bind "tale").toOption.any
      (fun r => r.1.scenes.all fun s => s.name != "rest" || (bodyNodes s.body).all isOutput) = true := by
    decide +kernel
  have called : (sealing.bind "tale").toOption.map
      (fun r => (r.1.entryScene?.map Scene.name, ["home", "oath", "rest"].map r.1.callGraph.callees)) =
        some (some "home", [["oath"], ["rest"], []]) := by decide +kernel
  have analysed : ((sealing.bind "tale").toOption.bind fun r => (r.1.build r.2 {}).toOption.bind fun scenes =>
      (Program.assemble r.1 scenes scenes.supply).toOption.bind fun program => program.graph.bind fun _ =>
        (scenes.graph? "oath").bind fun h => (analyze h r.2).toOption.bind fun own =>
          some ((Analysis.standalone own.problems).map Diagnostic.kind)) = some [.outcomeLocked] := by
    decide +kernel
  obtain ⟨⟨story, table⟩, hbind, analysed⟩ := ok_of_toOption_bind analysed
  obtain ⟨scenes, hb, analysed⟩ := ok_of_toOption_bind analysed
  obtain ⟨program, ha, analysed⟩ := ok_of_toOption_bind analysed
  obtain ⟨g, hg, hscene⟩ := Option.bind_eq_some_iff.1 analysed
  rw [hbind] at declared untouched called
  obtain ⟨hname, hcallees⟩ := Prod.mk.inj (Option.some.inj called)
  obtain ⟨entry, hentry, hname⟩ := Option.map_eq_some_iff.1 hname
  simp only [List.map_cons, List.map_nil, List.cons.injEq, and_true] at hcallees
  obtain ⟨hhome, hoath, hrest⟩ := hcallees
  have reached : ReflTransGen story.Calls entry.name "oath" := by
    rw [hname, ← Story.callGraph_calls]
    refine .single ?_
    rw [CallGraph.Calls, hhome]
    exact List.mem_cons_self
  have only : ∀ b, TransGen story.Calls "oath" b → b = "rest" := by
    rw [← Story.callGraph_calls]
    intro b hb
    induction hb with
    | single h =>
      rw [CallGraph.Calls, hoath] at h
      exact List.mem_singleton.1 h
    | tail _ h ih =>
      rw [ih, CallGraph.Calls, hrest] at h
      cases h
  have undisturbed : ∀ x, story.Undisturbed table "oath" x := by
    intro x t ht hcalls s hs
    have hall := List.all_eq_true.1 untouched t ht
    rw [only _ hcalls] at hall
    have hnode := List.all_eq_true.1 (by simpa using hall) _ hs
    unfold isOutput at hnode
    split at hnode <;> rename_i heq
    · cases heq
      exact ⟨not_false, not_false⟩
    · cases hnode
  obtain ⟨h, own, found, hh, hown, hfound, ⟨calls, hcalls⟩, hall⟩ :=
    standalone_in_context hbind (cases_of_branches declared) hb ha hg hentry reached
  rw [hh, Option.bind_some, hown] at hscene
  refine ⟨story, table, scenes, program, g, h, own, found, hbind, hb, ha, hg, hh, hown, hfound,
    Option.some.inj hscene, fun d hd => ?_⟩
  obtain ⟨id, v, -, hcopies⟩ := hall d hd
  obtain ⟨k, hretains⟩ := hcopies (fun _ _ x _ _ => undisturbed x) calls hcalls
  exact ⟨calls, k, _, hretains⟩

/-- What is sealed by a checkpoint is read by a scene that is called, and read again afterwards. -/
def reminder : Config.StoryConfig where
  outcomes := [some { name := "word", options := some ["kept", "broken"] }]
  scenes := [
    some ⟨"home", true, "", [
      some (.assign "5:3" (some ⟨"word", "kept"⟩)),
      some (.text "" .checkpoint none),
      some (.text "" .call (some "bell")),
      some (.branchOn "8:3" "word" [some ⟨none, true, "", []⟩])]⟩,
    some ⟨"bell", false, "", [some (.branchOn "12:3" "word" [some ⟨none, true, "", []⟩])]⟩]

/-- On its own the scene reads a variable that is locked. The scene that it calls reads the variable first,
and for the program only that reading is of a variable that is locked. -/
theorem not_standalone_in_context_reminder : ∃ story table scenes program g h own found,
    reminder.bind "tale" = .ok (story, table) ∧ story.build table {} = .ok scenes ∧
      Program.assemble story scenes scenes.supply = .ok program ∧ program.graph = some g ∧
      story.entryScene?.map Scene.name = some "home" ∧ scenes.graph? "home" = some h ∧
      analyze h table = .ok own ∧ analyze g table = .ok found ∧
      ¬∀ d ∈ Analysis.standalone own.problems,
        ∃ d' ∈ found.problems, d'.kind = d.kind ∧ d'.names = d.names ∧ d'.area = d.area := by
  have analysed : ((reminder.bind "tale").toOption.bind fun r => (r.1.build r.2 {}).toOption.bind fun scenes =>
      (Program.assemble r.1 scenes scenes.supply).toOption.bind fun program => program.graph.bind fun g =>
        (scenes.graph? "home").bind fun h => (analyze h r.2).toOption.bind fun own =>
          (analyze g r.2).toOption.bind fun found => some (r.1.entryScene?.map Scene.name,
            decide (∀ d ∈ Analysis.standalone own.problems, ∃ d' ∈ found.problems,
              d'.kind = d.kind ∧ d'.names = d.names ∧ d'.area = d.area))) = some (some "home", false) := by
    decide +kernel
  obtain ⟨⟨story, table⟩, hbind, analysed⟩ := ok_of_toOption_bind analysed
  obtain ⟨scenes, hb, analysed⟩ := ok_of_toOption_bind analysed
  obtain ⟨program, ha, analysed⟩ := ok_of_toOption_bind analysed
  obtain ⟨g, hg, analysed⟩ := Option.bind_eq_some_iff.1 analysed
  obtain ⟨h, hh, analysed⟩ := Option.bind_eq_some_iff.1 analysed
  obtain ⟨own, hown, analysed⟩ := ok_of_toOption_bind analysed
  obtain ⟨found, hfound, analysed⟩ := ok_of_toOption_bind analysed
  obtain ⟨hentry, hfails⟩ := Prod.mk.inj (Option.some.inj analysed)
  exact ⟨story, table, scenes, program, g, h, own, found, hbind, hb, ha, hg, hentry, hh, hown, hfound,
    of_decide_eq_false hfails⟩

end Assignment

end Program

end StoryFlow
