import StoryFlow.Proofs.Scene.Shape

/-! The vertices of the graph of a scene. Each of them is made from a statement of the scene, and every
call of a scene that keeps the rules has one: under the rules every case of a branch owns an option, so
no body is left out. -/

namespace StoryFlow

open StoryFlow.Flow
open StoryFlow.Flow.Graph

/-- Every case names an option, unless it is the catch-all. -/
def Cased (nodes : List TreeNode) : Prop :=
  ∀ area name cases, .stmt (.branchOn area name cases) ∈ nodes →
    ∀ c ∈ cases, c.other = true ∨ c.optionNames ≠ []

theorem Cased.mono {nodes nodes' : List TreeNode} (h : Cased nodes) (hs : nodes' ⊆ nodes) :
    Cased nodes' :=
  fun area name cases hm => h area name cases (hs hm)

section Nodes

variable {x : Stmt}

theorem exists_of_mem_optionNodes {options : List MenuOption} (h : .stmt x ∈ optionNodes options) :
    ∃ o ∈ options, .stmt x ∈ bodyNodes o.body := by
  induction options with
  | nil => simp [optionNodes] at h
  | cons o rest ih =>
    obtain ⟨area, label, loop, body⟩ := o
    rw [optionNodes, List.mem_append, List.mem_cons] at h
    rcases h with h | h | h
    · exact ⟨_, List.mem_cons_self, h⟩
    · cases h
    · obtain ⟨o, ho, hx⟩ := ih h
      exact ⟨o, List.mem_cons_of_mem _ ho, hx⟩

theorem exists_of_mem_caseNodes {cases : List BranchCase} (h : .stmt x ∈ caseNodes cases) :
    ∃ c ∈ cases, .stmt x ∈ bodyNodes c.body := by
  induction cases with
  | nil => simp [caseNodes] at h
  | cons c rest ih =>
    obtain ⟨area, options, other, body⟩ := c
    rw [caseNodes, List.mem_append, List.mem_cons] at h
    rcases h with h | h | h
    · exact ⟨_, List.mem_cons_self, h⟩
    · cases h
    · obtain ⟨c, hc, hx⟩ := ih h
      exact ⟨c, List.mem_cons_of_mem _ hc, hx⟩

theorem exists_of_mem_branchNodes {branches : List IfBranch} (h : .stmt x ∈ branchNodes branches) :
    ∃ b ∈ branches, .stmt x ∈ bodyNodes b.body := by
  induction branches with
  | nil => simp [branchNodes] at h
  | cons b rest ih =>
    obtain ⟨condition, body⟩ := b
    rw [branchNodes, List.mem_append, List.mem_cons] at h
    rcases h with h | h | h
    · exact ⟨_, List.mem_cons_self, h⟩
    · cases h
    · obtain ⟨b, hb, hx⟩ := ih h
      exact ⟨b, List.mem_cons_of_mem _ hb, hx⟩

end Nodes

namespace Flow.Graph

variable {a b g : Graph} {id : VertexId} {v w : Vertex} {parts : List Graph} {operation : Nat}

def Holds (g : Graph) (id : VertexId) (v : Vertex) : Prop := ∃ es, g.node? id = some (v, es)

theorem Holds.unique (h : g.Holds id v) (h' : g.Holds id w) : v = w := by
  obtain ⟨es, hn⟩ := h
  obtain ⟨ds, hn'⟩ := h'
  cases hn.symm.trans hn'
  rfl

theorem Holds.has (h : g.Holds id v) : g.has id = true := by
  obtain ⟨es, hn⟩ := h
  exact has_iff.2 ⟨_, hn⟩

theorem not_holds_of_isEmpty (h : g.isEmpty = true) : ¬g.Holds id v := by
  rintro ⟨es, hn⟩
  rw [node?_of_isEmpty h] at hn
  cases hn

theorem holds_rewire (mark : Mark) (repl : List Edge) (hg : g.WellFormed) :
    (rewire mark g repl).Holds id v ↔ g.Holds id v := by
  simp only [Holds, node?_rewire hg, Option.map_eq_some_iff, Prod.exists, Prod.mk.injEq]
  constructor
  · rintro ⟨es, w, ds, hn, rfl, -⟩
    exact ⟨ds, hn⟩
  · rintro ⟨es, hn⟩
    exact ⟨_, v, es, hn, rfl, rfl⟩

theorem holds_append (h : append operation a b = .ok g) (ha : a.WellFormed) (hab : a.Apart b) :
    g.Holds id v ↔ a.Holds id v ∨ b.Holds id v := by
  rcases append_cases h with ⟨hempty, rfl⟩ | ⟨hempty, rfl⟩ | ⟨r, rfl, -, hn, -⟩
  · simp [not_holds_of_isEmpty hempty]
  · simp [not_holds_of_isEmpty hempty]
  · rw [← holds_rewire ⟨operation, false⟩ b.start ha]
    simp only [Holds, hn, Option.or_eq_some_iff]
    constructor
    · rintro ⟨es, hb | ⟨-, ha⟩⟩
      · exact Or.inr ⟨es, hb⟩
      · exact Or.inl ⟨es, ha⟩
    · rintro (⟨es, hes⟩ | ⟨es, hes⟩)
      · have hin : a.has id = true := (has_rewire ha id).symm.trans (has_iff.2 ⟨_, hes⟩)
        exact ⟨es, Or.inr ⟨node?_eq_none_iff.2 (hab id hin), hes⟩⟩
      · exact ⟨es, Or.inl hes⟩

theorem JoinOf.holds (h : g.JoinOf parts) : g.Holds id v ↔ ∃ b ∈ parts, b.Holds id v := by
  simp only [Holds, h.nodes]
  constructor
  · rintro ⟨es, b, hb, hn⟩; exact ⟨b, hb, es, hn⟩
  · rintro ⟨b, hb, es, hn⟩; exact ⟨es, b, hb, hn⟩

theorem Hanging.holds {n hi : Nat} (h : g.Hanging n hi v parts) :
    g.Holds id w ↔ (id = n ∧ w = v) ∨ ∃ b ∈ parts, b.Holds id w := by
  rw [← h.join.holds]
  simp only [Holds, node?_around]
  by_cases hid : id = n
  · subst hid
    simp [h.hub.node, eq_comm]
  · simp [hid]

def MadeIn (g : Graph) (scene : String) : Prop := ∀ id v, g.Holds id v → v = .ofStmt id v.stmt scene

def Serves (g : Graph) (nodes : List TreeNode) : Prop :=
  ∀ area callee, .stmt (.plain area (.call callee)) ∈ nodes →
    ∃ id v, g.Holds id v ∧ v.callee? = some callee

end Flow.Graph

namespace Scene

variable {table : SymbolTable} {scene : String}

/-- The graph of the statement has vertices of the scene only, and under the rules one for every
call. -/
def Shelters (table : SymbolTable) (scene : String) (x : Stmt) : Prop :=
  ∀ s g s', x.graph table scene s = .ok (g, s') → g.MadeIn scene ∧
    (x.problems table scene = [] → Cased x.nodes → g.Serves x.nodes)

theorem bodyGraph_shelters {body : List Stmt} {g g' : Graph} {s s' : Supply} {lo : Nat} {p : Prop}
    {l : Language Stmt} {β : List Stmt → Stmt → Prop} (hb : ∀ x ∈ body, Shelters table scene x)
    (hr : g.Renders lo s.identities p l β) (hg : g.MadeIn scene)
    (h : bodyGraph table scene g s body = .ok (g', s')) :
    (∀ id v, g.Holds id v → g'.Holds id v) ∧ g'.MadeIn scene ∧
      (bodyProblems table scene body = [] → Cased (bodyNodes body) → g'.Serves (bodyNodes body)) := by
  induction body generalizing g s p l β with
  | nil =>
    rw [bodyGraph] at h
    cases h
    exact ⟨fun _ _ hv => hv, hg, fun _ _ _ _ hm => absurd hm (by simp [bodyNodes])⟩
  | cons x rest ih =>
    rw [bodyGraph] at h
    obtain ⟨⟨b, s₁⟩, hx, h₁⟩ := ok_of_bind_ok h
    obtain ⟨⟨g₁, s₂⟩, ha, h₂⟩ := ok_of_bind_ok h₁
    obtain ⟨ha, hs⟩ := perform_ok ha
    obtain ⟨hfirst, hrest⟩ := List.forall_mem_cons.1 hb
    have hrx := rendered table scene x s b s₁ hx
    have apart := hr.taken.apart hrx.taken
    have hr₁ := hr.append hrx apart ⟨le_rfl, hr.le⟩ ⟨hrx.le, le_rfl⟩ ha
    rw [← hs] at hr₁
    obtain ⟨made, serves⟩ := hfirst s b s₁ hx
    have holds := fun id v => @holds_append g b g₁ id v _ ha hr.whole.wf apart
    have hg₁ : g₁.MadeIn scene := fun id v hv => ((holds id v).1 hv).elim (hg id v) (made id v)
    obtain ⟨keeps, made', serves'⟩ := ih hrest hr₁ hg₁ h₂
    refine ⟨fun id v hv => keeps id v ((holds id v).2 (Or.inl hv)), made', fun hp hc => ?_⟩
    rw [bodyProblems, List.append_eq_nil_iff] at hp
    rw [bodyNodes] at hc ⊢
    intro area callee hm
    rcases List.mem_append.1 hm with hm | hm
    · obtain ⟨id, v, hv, hcall⟩ :=
        serves hp.1 (hc.mono (List.subset_append_left _ _)) area callee hm
      exact ⟨id, v, keeps id v ((holds id v).2 (Or.inr hv)), hcall⟩
    · exact serves' hp.2 (hc.mono (List.subset_append_right _ _)) area callee hm

theorem BodyPart.shelters {body : List Stmt} {b : Graph} (h : BodyPart table scene body b)
    (hb : ∀ x ∈ body, Shelters table scene x) : b.MadeIn scene ∧
      (bodyProblems table scene body = [] → Cased (bodyNodes body) → b.Serves (bodyNodes body)) := by
  obtain ⟨s, s', hbuilt⟩ := h.built
  have empty : Graph.empty.MadeIn scene := fun id v hv => absurd hv (not_holds_of_isEmpty isEmpty_empty)
  exact (bodyGraph_shelters hb (renders_empty _) empty hbuilt).2

theorem plain_holds {area : TextArea} {action : Action} {s s' : Supply} {g : Graph} {id : VertexId}
    {w : Vertex} (h : (Stmt.plain area action).graph table scene s = .ok (g, s')) :
    g.Holds id w ↔ id = s.identities ∧
      w = .ofStmt s.identities (some (.plain area action)) scene := by
  rw [Stmt.graph] at h
  obtain ⟨hang, none, -⟩ := single_hanging (perform_ok h).1 rfl (by simp)
  rw [hang.holds]
  refine or_iff_left ?_
  rintro ⟨b, hb, es, hn⟩
  rw [List.mem_singleton.1 hb, none] at hn
  cases hn

theorem plain_shelters (area : TextArea) (action : Action) :
    Shelters table scene (.plain area action) := by
  intro s g s' h
  refine ⟨fun id v hv => ?_, fun _ _ area' callee hm => ?_⟩
  · obtain ⟨rfl, rfl⟩ := (plain_holds h).1 hv
    rfl
  · simp only [Stmt.nodes, List.mem_singleton, TreeNode.stmt.injEq] at hm
    refine ⟨_, _, (plain_holds h).2 ⟨rfl, rfl⟩, ?_⟩
    rw [← hm]
    rfl

section Menu

variable {kind : MenuKind} {n : Nat}

theorem OptionPart.shelters {o : MenuOption} {b : Graph} (h : OptionPart table scene kind n o b)
    (hb : ∀ x ∈ o.body, Shelters table scene x) : b.MadeIn scene ∧
      (bodyProblems table scene o.body = [] → Cased (bodyNodes o.body) →
        b.Serves (bodyNodes o.body)) := by
  obtain ⟨c, operation, hc, rfl⟩ := h
  obtain ⟨made, serves⟩ := hc.shelters hb
  split
  · have holds := fun id v => @holds_rewire c id v ⟨operation, false⟩ [⟨n, true⟩] hc.whole.wf
    refine ⟨fun id v hv => made id v ((holds id v).1 hv), fun hp hcased area callee hm => ?_⟩
    obtain ⟨id, v, hv, hcall⟩ := serves hp hcased area callee hm
    exact ⟨id, v, (holds id v).2 hv, hcall⟩
  · exact ⟨made, serves⟩

theorem menu_shelters (area : TextArea) (prompt : String) (options : List MenuOption)
    (hb : ∀ o ∈ options, ∀ x ∈ o.body, Shelters table scene x) :
    Shelters table scene (.menu area kind prompt options) := by
  intro s g s' h
  obtain ⟨g₀, parts, hang, none, -, each⟩ := menu_hanging (fun o _ x _ => shapes table scene x) h
  refine ⟨fun id v hv => ?_, fun hp hc area' callee hm => ?_⟩
  · rcases hang.holds.1 hv with ⟨rfl, rfl⟩ | ⟨b, hm, hv⟩
    · rfl
    · rcases List.mem_cons.1 hm with rfl | hm
      · obtain ⟨es, hn⟩ := hv
        cases (none id).symm.trans hn
      · obtain ⟨o, ho, hpart⟩ := exists_left_of_forall₂ each b hm
        exact (hpart.shelters (hb o ho)).1 id v hv
  · rw [Stmt.nodes] at hm hc
    have hm := (List.mem_append.1 hm).resolve_right (by simp)
    obtain ⟨o, ho, hm⟩ := exists_of_mem_optionNodes hm
    obtain ⟨b, hbm, hpart⟩ := exists_right_of_forall₂ each o ho
    obtain ⟨id, v, hv, hcall⟩ := (hpart.shelters (hb o ho)).2
      (optionProblems_eq_nil (menu_lawful hp).2 o ho)
      (hc.mono fun x hx => List.mem_append_left _ (bodyNodes_subset_optionNodes o ho hx)) area' callee hm
    exact ⟨id, v, hang.holds.2 (Or.inr ⟨b, List.mem_cons_of_mem _ hbm, hv⟩), hcall⟩

end Menu

section Branch

theorem declared_of_optionNameProblems {area : TextArea} {name : String}
    {declared named options : List String}
    (h : optionNameProblems scene area name declared named options = []) :
    ∀ option ∈ options, option ∈ declared := by
  induction options generalizing named with
  | nil => simp
  | cons option rest ih =>
    unfold optionNameProblems at h
    split at h <;> rename_i hd
    · cases h
    · have hin : option ∈ declared := by simpa using hd
      split at h
      · cases h
      · exact List.forall_mem_cons.2 ⟨hin, ih h⟩

theorem entered_of_cased {area : TextArea} {name : String} {cases : List BranchCase} {c : BranchCase}
    (hp : branchProblems table scene area name cases = []) (hc : c ∈ cases)
    (hn : c.other = true ∨ c.optionNames ≠ []) : BranchCase.Entered table name cases c := by
  unfold BranchCase.Entered
  unfold branchProblems at hp
  cases hd : table.declared? name with
  | none => trivial
  | some x =>
    simp only [hd, List.append_eq_nil_iff] at hp ⊢
    obtain ⟨names, coverage⟩ := hp
    by_cases hother : c.other = true
    · -- the catch-all is of use
      unfold coverageProblems at coverage
      dsimp only at coverage
      rw [if_pos (List.any_eq_true.2 ⟨c, hc, hother⟩)] at coverage
      split at coverage <;> rename_i hleft
      · cases coverage
      · obtain ⟨option, ho⟩ := List.exists_mem_of_ne_nil _ fun h => hleft (List.isEmpty_iff.2 h)
        obtain ⟨hdeclared, hunwritten⟩ := Names.mem_without.1 ho
        refine ⟨option, hdeclared, Or.inr ⟨hother, fun d hd hnames => hunwritten ?_⟩⟩
        exact List.mem_flatMap.2 ⟨d, List.mem_filter.2 ⟨hd, by simp [hnames.1]⟩, hnames.2⟩
    · rw [Bool.not_eq_true] at hother
      obtain ⟨option, ho⟩ := List.exists_mem_of_ne_nil _ (hn.resolve_left (by simp [hother]))
      refine ⟨option, declared_of_optionNameProblems names option ?_, Or.inl ⟨hother, ho⟩⟩
      exact List.mem_flatMap.2 ⟨c, List.mem_filter.2 ⟨hc, by simp [hother]⟩, ho⟩

theorem mem_branchTargets_of_cased {area : TextArea} {name : String} {cases : List BranchCase}
    {bs : List Graph} (hl : cases.length = bs.length)
    (hc : caseProblems scene area name false cases = [])
    (hb : branchProblems table scene area name cases = [])
    (hn : ∀ c ∈ cases, c.other = true ∨ c.optionNames ≠ []) :
    ∀ b, b ∈ branchTargets table name cases bs ↔ b ∈ bs := by
  refine fun b => ⟨mem_of_mem_branchTargets, fun hm => (mem_branchTargets hl hc hb).2 ?_⟩
  rw [← List.map_snd_zip hl.ge, List.mem_map] at hm
  obtain ⟨⟨c, b⟩, hz, rfl⟩ := hm
  have hcm := (List.of_mem_zip hz).1
  exact ⟨c, hz, entered_of_cased hb hcm (hn c hcm)⟩

theorem branchOn_shelters (area : TextArea) (name : String) (cases : List BranchCase)
    (hb : ∀ c ∈ cases, ∀ x ∈ c.body, Shelters table scene x) :
    Shelters table scene (.branchOn area name cases) := by
  intro s g s' h
  obtain ⟨g₀, bs, t, t', hang, none, -, bodies, -⟩ :=
    branchOn_hanging (fun c _ x _ => shapes table scene x) h
  refine ⟨fun id v hv => ?_, fun hp hc area' callee hm => ?_⟩
  · rcases hang.holds.1 hv with ⟨rfl, rfl⟩ | ⟨b, hm, hv⟩
    · rfl
    · rcases List.mem_cons.1 hm with rfl | hm
      · obtain ⟨es, hn⟩ := hv
        cases (none id).symm.trans hn
      · obtain ⟨c, hcm, hpart⟩ := exists_left_of_forall₂ bodies b (mem_of_mem_branchTargets hm)
        exact (hpart.shelters (hb c hcm)).1 id v hv
  · rw [Stmt.problems] at hp
    simp only [List.append_eq_nil_iff] at hp
    obtain ⟨⟨hcases, hbodies⟩, hbranch⟩ := hp
    have named := hc area name cases (by simp [Stmt.nodes])
    rw [Stmt.nodes] at hm hc
    have hm := (List.mem_append.1 hm).resolve_right (by simp)
    obtain ⟨c, hcm, hm⟩ := exists_of_mem_caseNodes hm
    obtain ⟨b, hbm, hpart⟩ := exists_right_of_forall₂ bodies c hcm
    obtain ⟨id, v, hv, hcall⟩ := (hpart.shelters (hb c hcm)).2 (caseBodyProblems_eq_nil hbodies c hcm)
      (hc.mono fun x hx => List.mem_append_left _ (bodyNodes_subset_caseNodes c hcm hx)) area' callee hm
    have target := (mem_branchTargets_of_cased bodies.length_eq hcases hbranch named b).2 hbm
    exact ⟨id, v, hang.holds.2 (Or.inr ⟨b, List.mem_cons_of_mem _ target, hv⟩), hcall⟩

theorem ifElse_shelters (area : TextArea) (branches : List IfBranch) (hasElse : Bool)
    (elseBody : List Stmt) (hb : ∀ b ∈ branches, ∀ x ∈ b.body, Shelters table scene x)
    (he : ∀ x ∈ elseBody, Shelters table scene x) :
    Shelters table scene (.ifElse area branches hasElse elseBody) := by
  intro s g s' h
  obtain ⟨bs, last, t, join, -, bodies, part, -⟩ :=
    ifElse_join (fun b _ x _ => shapes table scene x) (fun x _ => shapes table scene x) h
  refine ⟨fun id v hv => ?_, fun hp hc area' callee hm => ?_⟩
  · obtain ⟨b, hm, hv⟩ := join.holds.1 hv
    rcases List.mem_append.1 hm with hm | hm
    · obtain ⟨c, hcm, hpart⟩ := exists_left_of_forall₂ bodies b hm
      exact (hpart.shelters (hb c hcm)).1 id v hv
    · rw [List.mem_singleton.1 hm] at hv
      exact (part.shelters he).1 id v hv
  · rw [Stmt.problems, List.append_eq_nil_iff] at hp
    rw [Stmt.nodes] at hm hc
    have hm := (List.mem_append.1 hm).resolve_right (by simp)
    rcases List.mem_append.1 hm with hm | hm
    · obtain ⟨c, hcm, hm⟩ := exists_of_mem_branchNodes hm
      obtain ⟨b, hbm, hpart⟩ := exists_right_of_forall₂ bodies c hcm
      have sub := hc.mono fun x hx => List.mem_append_left _
        (List.mem_append_left _ (bodyNodes_subset_branchNodes c hcm hx))
      obtain ⟨id, v, hv, hcall⟩ :=
        (hpart.shelters (hb c hcm)).2 (branchBodyProblems_eq_nil hp.1 c hcm) sub area' callee hm
      exact ⟨id, v, join.holds.2 ⟨b, List.mem_append_left _ hbm, hv⟩, hcall⟩
    · have sub := hc.mono fun x hx => List.mem_append_left _ (List.mem_append_right _ hx)
      obtain ⟨id, v, hv, hcall⟩ := (part.shelters he).2 hp.2 sub area' callee hm
      exact ⟨id, v, join.holds.2 ⟨last, by simp, hv⟩, hcall⟩

end Branch

theorem shelters (table : SymbolTable) (scene : String) : ∀ x, Shelters table scene x :=
  Hereditary.stmt ⟨plain_shelters, fun area _ => menu_shelters area, branchOn_shelters, ifElse_shelters⟩

/-- The vertices of the graph of a scene are made in the scene, and under the rules every call of the
scene has one. -/
theorem draft_shelters {s : Scene} {supply supply' : Supply} {g : Graph}
    (h : s.draft table supply = .ok (g, supply')) : g.MadeIn s.name ∧
      (s.problems table = [] → Cased (bodyNodes s.body) → g.Serves (bodyNodes s.body)) := by
  obtain ⟨b, t, hbody, hcases⟩ := draft_cases h
  have hrb := body_renders (fun x _ => rendered table s.name x) hbody
  have part : BodyPart table s.name s.body b :=
    ⟨⟨_, _, hbody⟩, hrb.whole, body_shaped (fun x _ => shapes table s.name x) hbody⟩
  have hb := part.shelters fun x _ => shelters table s.name x
  rcases hcases with ⟨-, rfl, rfl⟩ | ⟨-, first, t', operation, hfirst, happend, -⟩
  · exact hb
  · have hrf := rendered table s.name _ _ _ _ hfirst
    obtain ⟨made, -⟩ := shelters table s.name _ _ _ _ hfirst
    have holds := fun id v => @holds_append first b g id v _ happend hrf.whole.wf
      (hrb.taken.apart hrf.taken).symm
    refine ⟨fun id v hv => ((holds id v).1 hv).elim (made id v) (hb.1 id v), fun hp hc area callee hm => ?_⟩
    obtain ⟨id, v, hv, hcall⟩ := hb.2 hp hc area callee hm
    exact ⟨id, v, (holds id v).2 (Or.inr hv), hcall⟩

end Scene

end StoryFlow
