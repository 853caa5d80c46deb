import StoryFlow.Proofs.Config.Scenes
import StoryFlow.Proofs.Flow.Renumbering

/-! The order of the vertices of a scene. Identities are given out in source order, a statement before the
statements inside of it, and under the rules every one of them ends up in the graph exactly once: a body
that several options lead to is attached more than once, but it stays one body. So the graph and the walk
over the tree see the same calls in the same order. -/

namespace StoryFlow

open StoryFlow.Flow
open StoryFlow.Flow.Graph

mutual

/-- The statements that get a vertex, all but the ifs, in source order. -/
def Stmt.occurrences : Stmt → List Stmt
  | .plain area action => [.plain area action]
  | .menu area kind prompt options => .menu area kind prompt options :: optionOccurrences options
  | .branchOn area name cases => .branchOn area name cases :: caseOccurrences cases
  | .ifElse _ branches _ elseBody => branchOccurrences branches ++ bodyOccurrences elseBody

def bodyOccurrences : List Stmt → List Stmt
  | [] => []
  | x :: rest => x.occurrences ++ bodyOccurrences rest

def optionOccurrences : List MenuOption → List Stmt
  | [] => []
  | ⟨_, _, _, body⟩ :: rest => bodyOccurrences body ++ optionOccurrences rest

def caseOccurrences : List BranchCase → List Stmt
  | [] => []
  | ⟨_, _, _, body⟩ :: rest => bodyOccurrences body ++ caseOccurrences rest

def branchOccurrences : List IfBranch → List Stmt
  | [] => []
  | ⟨_, body⟩ :: rest => bodyOccurrences body ++ branchOccurrences rest

end

/-- The opening checkpoint of a chapter is numbered behind everything in its body. -/
def Scene.occurrences (s : Scene) : List Stmt :=
  bodyOccurrences s.body ++ if s.chapter then [s.opening] else []

def Flow.Vertex.call? (v : Vertex) : Option CallStmt := v.stmt.bind fun x => (TreeNode.stmt x).call?

def TreeNode.numbered? : TreeNode → Option Stmt
  | .stmt (.ifElse _ _ _ _) => none
  | .stmt x => some x
  | _ => none

section Tree

theorem caseOccurrences_eq (cases : List BranchCase) :
    caseOccurrences cases = (cases.map BranchCase.body).flatMap bodyOccurrences := by
  induction cases with
  | nil => rfl
  | cons c rest ih =>
    obtain ⟨area, options, other, body⟩ := c
    rw [caseOccurrences, ih, List.map_cons, List.flatMap_cons]

theorem branchOccurrences_eq (branches : List IfBranch) :
    branchOccurrences branches = (branches.map IfBranch.body).flatMap bodyOccurrences := by
  induction branches with
  | nil => rfl
  | cons b rest ih =>
    obtain ⟨condition, body⟩ := b
    rw [branchOccurrences, ih, List.map_cons, List.flatMap_cons]

/-- What the two orders of the tree have in common: parents come first in the one and last in the other. -/
structure Rearranges (xs : List Stmt) (nodes : List TreeNode) : Prop where
  perm : xs.Perm (nodes.filterMap TreeNode.numbered?)
  calls : xs.filterMap (fun x => (TreeNode.stmt x).call?) = nodes.filterMap TreeNode.call?

variable {xs ys : List Stmt} {nodes nodes' : List TreeNode} {node : TreeNode} {x : Stmt}

theorem rearranges_nil : Rearranges [] [] := ⟨.nil, rfl⟩

theorem Rearranges.append (h : Rearranges xs nodes) (h' : Rearranges ys nodes') :
    Rearranges (xs ++ ys) (nodes ++ nodes') := by
  constructor
  · rw [List.filterMap_append]
    exact h.perm.append h'.perm
  · rw [List.filterMap_append, List.filterMap_append, h.calls, h'.calls]

theorem Rearranges.snoc (h : Rearranges xs nodes) (hnode : node.numbered? = none) (hcall : node.call? = none) :
    Rearranges xs (nodes ++ [node]) := by
  constructor
  · rw [List.filterMap_append, List.filterMap_cons_none hnode]
    simpa using h.perm
  · rw [List.filterMap_append, List.filterMap_cons_none hcall, h.calls]
    simp

theorem Rearranges.cons (h : Rearranges xs nodes) (hx : (TreeNode.stmt x).numbered? = some x)
    (hcall : (TreeNode.stmt x).call? = none) : Rearranges (x :: xs) (nodes ++ [.stmt x]) := by
  constructor
  · rw [List.filterMap_append, List.filterMap_cons_some hx]
    exact (h.perm.cons x).trans (List.perm_append_singleton x _).symm
  · have front : (x :: xs).filterMap (fun x => (TreeNode.stmt x).call?) =
        xs.filterMap fun x => (TreeNode.stmt x).call? := List.filterMap_cons_none hcall
    rw [front, List.filterMap_append, List.filterMap_cons_none hcall, h.calls]
    simp

mutual

theorem rearranges_stmt : ∀ x : Stmt, Rearranges x.occurrences x.nodes
  | .plain area action => ⟨.refl _, rfl⟩
  | .menu area kind prompt options => by
    rw [Stmt.occurrences, Stmt.nodes]
    exact (rearranges_options options).cons rfl rfl
  | .branchOn area name cases => by
    rw [Stmt.occurrences, Stmt.nodes]
    exact (rearranges_cases cases).cons rfl rfl
  | .ifElse area branches hasElse elseBody => by
    rw [Stmt.occurrences, Stmt.nodes]
    exact ((rearranges_branches branches).append (rearranges_body elseBody)).snoc rfl rfl

theorem rearranges_body : ∀ body : List Stmt, Rearranges (bodyOccurrences body) (bodyNodes body)
  | [] => rearranges_nil
  | x :: rest => by
    rw [bodyOccurrences, bodyNodes]
    exact (rearranges_stmt x).append (rearranges_body rest)

theorem rearranges_options : ∀ options : List MenuOption,
    Rearranges (optionOccurrences options) (optionNodes options)
  | [] => rearranges_nil
  | ⟨area, label, loop, body⟩ :: rest => by
    rw [optionOccurrences, optionNodes, List.append_cons]
    exact ((rearranges_body body).snoc rfl rfl).append (rearranges_options rest)

theorem rearranges_cases : ∀ cases : List BranchCase, Rearranges (caseOccurrences cases) (caseNodes cases)
  | [] => rearranges_nil
  | ⟨area, options, other, body⟩ :: rest => by
    rw [caseOccurrences, caseNodes, List.append_cons]
    exact ((rearranges_body body).snoc rfl rfl).append (rearranges_cases rest)

theorem rearranges_branches : ∀ branches : List IfBranch,
    Rearranges (branchOccurrences branches) (branchNodes branches)
  | [] => rearranges_nil
  | ⟨condition, body⟩ :: rest => by
    rw [branchOccurrences, branchNodes, List.append_cons]
    exact ((rearranges_body body).snoc rfl rfl).append (rearranges_branches rest)

end

end Tree

namespace Scene

variable {scene : String} {first : Nat} {xs ys : List Stmt} {x : Stmt}

def numbered (scene : String) (first : Nat) (xs : List Stmt) : List Vertex :=
  (xs.zipIdx first).map fun p => .ofStmt p.2 (some p.1) scene

theorem numbered_nil : numbered scene first [] = [] := rfl

theorem numbered_cons : numbered scene first (x :: xs) =
    .ofStmt first (some x) scene :: numbered scene (first + 1) xs := rfl

theorem numbered_append : numbered scene first (xs ++ ys) =
    numbered scene first xs ++ numbered scene (first + xs.length) ys := by
  rw [numbered, List.zipIdx_append, List.map_append]
  rfl

theorem ids_numbered : (numbered scene first xs).map Vertex.id =
    (List.range' first xs.length).map Int.ofNat := by
  rw [numbered, List.map_map, ← List.zipIdx_map_snd first xs, List.map_map]
  rfl

theorem increasing_numbered : ((numbered scene first xs).map Vertex.id).Pairwise (· < ·) := by
  rw [ids_numbered, List.pairwise_map]
  exact (List.pairwise_lt_range' 1 Nat.one_pos).imp Int.ofNat_lt.2

theorem calls_numbered : (numbered scene first xs).filterMap Vertex.call? =
    xs.filterMap fun x => (TreeNode.stmt x).call? := by
  rw [numbered, List.filterMap_map]
  conv_rhs => rw [← List.zipIdx_map_fst first xs, List.filterMap_map]
  rfl

theorem calls_occurrences (s : Scene) :
    s.occurrences.filterMap (fun x => (TreeNode.stmt x).call?) = s.calls := by
  have quiet : (if s.chapter then [s.opening] else []).filterMap
      (fun x => (TreeNode.stmt x).call?) = [] := by
    split <;> rfl
  rw [occurrences, List.filterMap_append, quiet, List.append_nil, (rearranges_body s.body).calls]
  rfl

end Scene

namespace Flow.Graph

variable {a b g : Graph} {bs cs parts : List Graph} {vs ws : List Vertex} {v : Vertex}

def Lists (bs : List Graph) (vs : List Vertex) : Prop :=
  ∀ id v, (∃ b ∈ bs, b.Holds id v) ↔ v ∈ vs ∧ v.id = id

theorem lists_nil : Lists [] [] := by
  simp [Lists]

theorem Lists.append (h : Lists bs vs) (h' : Lists cs ws) : Lists (bs ++ cs) (vs ++ ws) := by
  intro id v
  rw [List.mem_append, or_and_right, ← h id v, ← h' id v]
  simp only [List.mem_append, or_and_right, exists_or]

theorem Lists.congr (h : Lists bs vs)
    (hc : ∀ id v, (∃ c ∈ cs, c.Holds id v) ↔ ∃ b ∈ bs, b.Holds id v) : Lists cs vs :=
  fun id v => (hc id v).trans (h id v)

theorem lists_of_no_node (hn : ∀ id, b.node? id = none) : Lists [b] [] := by
  intro id v
  simp [Holds, hn]

theorem Lists.loopTo {operation : Nat} {n : VertexId} (h : Lists [b] vs) (hb : b.WellFormed) :
    Lists [b.loopTo operation n] vs := by
  refine h.congr fun id v => ?_
  simp only [List.mem_singleton, exists_eq_left]
  exact holds_rewire ⟨operation, false⟩ [⟨n, true⟩] hb

theorem Lists.follow {operation : Nat} (ha : Lists [a] vs) (hb : Lists [b] ws)
    (h : a.append operation b = .ok g) (hw : a.WellFormed) (hab : a.Apart b) : Lists [g] (vs ++ ws) := by
  refine (ha.append hb).congr fun id v => ?_
  simp [holds_append h hw hab]

theorem Lists.join (h : Lists parts vs) (hj : g.JoinOf parts) : Lists [g] vs := by
  refine h.congr fun id v => ?_
  simp [hj.holds]

theorem Lists.hang {n hi : Nat} (h : Lists parts vs) (hh : g.Hanging n hi v parts) (hv : v.id = n) :
    Lists [g] (v :: vs) := by
  intro id w
  simp only [List.mem_singleton, exists_eq_left]
  rw [hh.holds, h id w, List.mem_cons, or_and_right]
  refine or_congr_left ?_
  rw [and_comm]
  exact and_congr_right fun hw => by rw [hw, hv, eq_comm]

theorem Lists.attach {n hi hi' : Nat} (h : Lists [a] vs) (hb : Lists [b] ws)
    (ha : a.Hanging n hi v parts) (hg : g.Hanging n hi' v (parts ++ [b])) : Lists [g] (vs ++ ws) := by
  refine (h.append hb).congr fun id w => ?_
  simp [hg.holds, ha.holds, or_and_right, exists_or, or_assoc]

/-- A list in the order of the identities is all there is to say about the vertices. -/
theorem vertices_eq_of_lists (h : Lists [g] vs) (hg : g.WellFormed)
    (hv : (vs.map Vertex.id).Pairwise (· < ·)) : g.ids = vs.map Vertex.id ∧ g.vertices = vs := by
  have own : ∀ p ∈ g.nodes.entries, p.2.vertex.id = p.1 := by
    intro p hp
    have hget := IdMap.get?_eq_some_iff.2 hp
    exact hg.own p.1 p.2.vertex p.2.edges (by rw [node?, hget]; rfl)
  have ids : g.ids = g.vertices.map Vertex.id := by
    rw [ids, IdMap.keys, vertices, List.map_map]
    exact List.map_congr_left fun p hp => (own p hp).symm
  have increasing : g.vertices.Pairwise fun v w => v.id < w.id := by
    rw [← List.pairwise_map, ← ids]
    exact g.nodes.increasing_keys
  have same : ∀ v, v ∈ g.vertices ↔ v ∈ vs := by
    intro v
    have holds : v ∈ g.vertices ↔ g.Holds v.id v := by
      rw [vertices, List.mem_map]
      constructor
      · rintro ⟨p, hp, rfl⟩
        rw [own p hp]
        exact ⟨p.2.edges, by rw [node?, IdMap.get?_eq_some_iff.2 hp]; rfl⟩
      · rintro ⟨es, hn⟩
        rw [node?, Option.map_eq_some_iff] at hn
        obtain ⟨e, he, heq⟩ := hn
        exact ⟨(v.id, e), IdMap.get?_eq_some_iff.1 he, congrArg Prod.fst heq⟩
    rw [holds]
    simpa using h v.id v
  have all : g.vertices = vs :=
    increasing.eq_of_mem_iff (List.pairwise_map.1 hv) fun {v} => same v
  exact ⟨all ▸ ids, all⟩

end Flow.Graph

namespace Scene

variable {table : SymbolTable} {scene : String}

/-- The statement takes as many identities as it has vertices, and if it keeps the rules its graph has all
of them. -/
def Numbers (table : SymbolTable) (scene : String) (x : Stmt) : Prop :=
  ∀ s g s', x.graph table scene s = .ok (g, s') →
    s'.identities = s.identities + x.occurrences.length ∧
      (x.problems table scene = [] → Cased x.nodes →
        Lists [g] (numbered scene s.identities x.occurrences))

theorem bodyGraph_numbers {body : List Stmt} {g g' : Graph} {s s' : Supply} {lo : Nat} {p : Prop}
    {l : Language Stmt} {β : List Stmt → Stmt → Prop} (hb : ∀ x ∈ body, Numbers table scene x)
    (hr : g.Renders lo s.identities p l β) (h : bodyGraph table scene g s body = .ok (g', s')) :
    s'.identities = s.identities + (bodyOccurrences body).length ∧
      (bodyProblems table scene body = [] → Cased (bodyNodes body) → ∀ vs, Lists [g] vs →
        Lists [g'] (vs ++ numbered scene s.identities (bodyOccurrences body))) := by
  induction body generalizing g s p l β with
  | nil =>
    rw [bodyGraph] at h
    cases h
    exact ⟨rfl, fun _ _ vs hvs => by rwa [bodyOccurrences, numbered_nil, List.append_nil]⟩
  | cons x rest ih =>
    rw [bodyGraph] at h
    obtain ⟨⟨b, s₁⟩, hx, h₁⟩ := ok_of_bind_ok h
    obtain ⟨⟨g₁, s₂⟩, ha, h₂⟩ := ok_of_bind_ok h₁
    obtain ⟨ha, hs⟩ := perform_ok ha
    obtain ⟨hfirst, hrest⟩ := List.forall_mem_cons.1 hb
    have hrx := rendered table scene x s b s₁ hx
    have apart := hr.taken.apart hrx.taken
    have hr₁ := hr.append hrx apart ⟨le_rfl, hr.le⟩ ⟨hrx.le, le_rfl⟩ ha
    rw [← hs] at hr₁
    obtain ⟨count, lists⟩ := hfirst s b s₁ hx
    obtain ⟨count', lists'⟩ := ih hrest hr₁ h₂
    have hs : s₂.identities = s₁.identities := hs
    rw [bodyOccurrences, List.length_append]
    refine ⟨by omega, fun hp hc vs hvs => ?_⟩
    rw [bodyProblems, List.append_eq_nil_iff] at hp
    rw [bodyNodes, cased_append] at hc
    have next := lists' hp.2 hc.2 _ (hvs.follow (lists hp.1 hc.1) ha hr.whole.wf apart)
    rwa [hs, count, List.append_assoc, ← numbered_append] at next

theorem body_numbers {body : List Stmt} {b : Graph} {s s' : Supply}
    (hb : ∀ x ∈ body, Numbers table scene x) (h : bodyGraph table scene .empty s body = .ok (b, s')) :
    s'.identities = s.identities + (bodyOccurrences body).length ∧
      (bodyProblems table scene body = [] → Cased (bodyNodes body) →
        Lists [b] (numbered scene s.identities (bodyOccurrences body))) := by
  obtain ⟨count, lists⟩ := bodyGraph_numbers hb (renders_empty _) h
  exact ⟨count, fun hp hc => lists hp hc [] (lists_of_no_node (node?_of_isEmpty isEmpty_empty))⟩

theorem bodyGraphs_numbers {bodies : List (List Stmt)} {bs : List Graph} {s s' : Supply}
    (hb : ∀ body ∈ bodies, ∀ x ∈ body, Numbers table scene x)
    (h : bodyGraphs table scene s bodies = .ok (bs, s')) :
    s'.identities = s.identities + (bodies.flatMap bodyOccurrences).length ∧
      ((∀ body ∈ bodies, bodyProblems table scene body = [] ∧ Cased (bodyNodes body)) →
        Lists bs (numbered scene s.identities (bodies.flatMap bodyOccurrences))) := by
  induction bodies generalizing s bs with
  | nil =>
    cases h
    exact ⟨rfl, fun _ => lists_nil⟩
  | cons body rest ih =>
    rw [bodyGraphs] at h
    obtain ⟨⟨b, s₁⟩, hbody, h₁⟩ := ok_of_bind_ok h
    obtain ⟨⟨others, s₂⟩, hrest, h₂⟩ := ok_of_bind_ok h₁
    cases h₂
    obtain ⟨hfirst, hlater⟩ := List.forall_mem_cons.1 hb
    obtain ⟨count, lists⟩ := body_numbers hfirst hbody
    obtain ⟨count', lists'⟩ := ih hlater hrest
    rw [List.flatMap_cons, List.length_append]
    refine ⟨by omega, fun hp => ?_⟩
    obtain ⟨⟨hp, hc⟩, hlater⟩ := List.forall_mem_cons.1 hp
    rw [numbered_append, ← count]
    exact (lists hp hc).append (lists' hlater)

theorem plain_numbers (area : TextArea) (action : Action) : Numbers table scene (.plain area action) := by
  intro s g s' h
  refine ⟨?_, fun _ _ id v => ?_⟩
  · rw [Stmt.graph] at h
    exact (perform_ok h).2
  · simp only [List.mem_singleton, exists_eq_left, plain_holds h]
    rw [Stmt.occurrences, numbered_cons, List.mem_cons]
    constructor
    · rintro ⟨rfl, rfl⟩
      exact ⟨Or.inl rfl, rfl⟩
    · rintro ⟨rfl | hm, rfl⟩
      · exact ⟨rfl, rfl⟩
      · cases hm

theorem optionGraphs_numbers {kind : MenuKind} {n : Nat} {options : List MenuOption} {g g' : Graph}
    {v : Vertex} {s s' : Supply} {parts : List Graph}
    (hb : ∀ o ∈ options, ∀ x ∈ o.body, Numbers table scene x) (hn : n < s.identities)
    (hg : g.Hanging n s.identities v parts)
    (h : optionGraphs table scene kind n g s options = .ok (g', s')) :
    s'.identities = s.identities + (optionOccurrences options).length ∧
      ∀ area, optionProblems table scene area kind options = [] → Cased (optionNodes options) →
        ∀ vs, Lists [g] vs →
          Lists [g'] (vs ++ numbered scene s.identities (optionOccurrences options)) := by
  induction options generalizing g s parts with
  | nil =>
    rw [optionGraphs] at h
    cases h
    exact ⟨rfl, fun _ _ _ vs hvs => by rwa [optionOccurrences, numbered_nil, List.append_nil]⟩
  | cons o rest ih =>
    obtain ⟨area', label, loop, body⟩ := o
    rw [optionGraphs] at h
    obtain ⟨⟨c, s₁⟩, hbody, h₁⟩ := ok_of_bind_ok h
    obtain ⟨⟨b, s₂⟩, hloop, h₂⟩ := ok_of_bind_ok h₁
    obtain ⟨⟨g₁, s₃⟩, hattach, h₃⟩ := ok_of_bind_ok h₂
    obtain ⟨hloop, hs₂⟩ := perform_ok hloop
    obtain ⟨hattach, hs₃⟩ := perform_ok hattach
    cases hloop
    have hs : s₃.identities = s₁.identities := hs₃.trans hs₂
    obtain ⟨hfirst, hrest⟩ := List.forall_mem_cons.1 hb
    have hfirst : ∀ x ∈ body, Numbers table scene x := hfirst
    obtain ⟨count, lists⟩ := body_numbers hfirst hbody
    obtain ⟨part, hg₁⟩ := option_hanging (fun x _ => shapes table scene x) hn hg hbody hattach
    obtain ⟨count', lists'⟩ := ih hrest (by omega) (hs ▸ hg₁) h₃
    rw [optionOccurrences, List.length_append]
    refine ⟨by omega, fun area hp hc vs hvs => ?_⟩
    simp only [optionProblems, List.append_eq_nil_iff] at hp
    rw [optionNodes, List.append_cons, cased_append, cased_append] at hc
    -- a way back to the prompt does not change the vertices
    have own : Lists [if loop && kind == .loopSwitch then c.loopTo s₁.operations n else c]
        (numbered scene s.identities (bodyOccurrences body)) := by
      have straight := lists hp.1.1.2 hc.1.1
      split
      · exact straight.loopTo part.whole.wf
      · exact straight
    have next := lists' area hp.2 hc.2 _ (hvs.attach own hg hg₁)
    rwa [hs, count, List.append_assoc, ← numbered_append] at next

theorem menu_numbers (area : TextArea) (kind : MenuKind) (prompt : String) (options : List MenuOption)
    (hb : ∀ o ∈ options, ∀ x ∈ o.body, Numbers table scene x) :
    Numbers table scene (.menu area kind prompt options) := by
  intro s g s' h
  obtain ⟨g₀, t, hs, hang, none, -, h⟩ := menu_cases h
  obtain ⟨count, lists⟩ := optionGraphs_numbers hb (by omega) (hs ▸ hang) h
  rw [Stmt.occurrences, List.length_cons]
  refine ⟨by omega, fun hp hc => ?_⟩
  rw [Stmt.nodes, cased_append] at hc
  have prompt := (lists_of_no_node none).hang hang rfl
  have all := lists area (menu_lawful hp).2 hc.1 _ prompt
  rwa [hs] at all

theorem branchOn_numbers (area : TextArea) (name : String) (cases : List BranchCase)
    (hb : ∀ c ∈ cases, ∀ x ∈ c.body, Numbers table scene x) :
    Numbers table scene (.branchOn area name cases) := by
  intro s g s' h
  obtain ⟨g₀, bs, t, t', hang, none, -, bodies, hbs, hs, hs', -⟩ :=
    branchOn_hanging (fun c _ x _ => shapes table scene x) h
  obtain ⟨count, lists⟩ := bodyGraphs_numbers (by simpa using hb) hbs
  rw [Stmt.occurrences, List.length_cons, caseOccurrences_eq]
  refine ⟨by omega, fun hp hc => ?_⟩
  rw [Stmt.problems] at hp
  simp only [List.append_eq_nil_iff] at hp
  obtain ⟨⟨hcases, hbodies⟩, hbranch⟩ := hp
  have named := hc area name cases (by simp [Stmt.nodes])
  rw [Stmt.nodes, cased_append] at hc
  have kept : ∀ body ∈ cases.map BranchCase.body,
      bodyProblems table scene body = [] ∧ Cased (bodyNodes body) := by
    rw [List.forall_mem_map]
    exact fun c hcm => ⟨caseBodyProblems_eq_nil hbodies c hcm,
      hc.1.mono (bodyNodes_subset_caseNodes c hcm)⟩
  have targets : Lists (branchTargets table name cases bs) _ :=
    (lists kept).congr fun id v => by
      simp only [mem_branchTargets_of_cased bodies.length_eq hcases hbranch named]
  rw [numbered_cons, ← hs]
  exact ((lists_of_no_node none).append targets).hang hang rfl

theorem ifElse_numbers (area : TextArea) (branches : List IfBranch) (hasElse : Bool)
    (elseBody : List Stmt) (hb : ∀ b ∈ branches, ∀ x ∈ b.body, Numbers table scene x)
    (he : ∀ x ∈ elseBody, Numbers table scene x) :
    Numbers table scene (.ifElse area branches hasElse elseBody) := by
  intro s g s' h
  obtain ⟨bs, last, t, join, -, -, -, hbs, t', hlast, hs⟩ :=
    ifElse_join (fun b _ x _ => shapes table scene x) (fun x _ => shapes table scene x) h
  obtain ⟨count, lists⟩ := bodyGraphs_numbers (by simpa using hb) hbs
  obtain ⟨count', lists'⟩ := body_numbers he hlast
  rw [Stmt.occurrences, List.length_append, branchOccurrences_eq]
  refine ⟨by omega, fun hp hc => ?_⟩
  rw [Stmt.problems, List.append_eq_nil_iff] at hp
  rw [Stmt.nodes, cased_append, cased_append] at hc
  have kept : ∀ body ∈ branches.map IfBranch.body,
      bodyProblems table scene body = [] ∧ Cased (bodyNodes body) := by
    rw [List.forall_mem_map]
    exact fun b hbm => ⟨branchBodyProblems_eq_nil hp.1 b hbm,
      hc.1.1.mono (bodyNodes_subset_branchNodes b hbm)⟩
  rw [numbered_append, ← count]
  exact ((lists kept).append (lists' hp.2 hc.1.2)).join join

theorem numbers (table : SymbolTable) (scene : String) : ∀ x, Numbers table scene x :=
  Hereditary.stmt ⟨plain_numbers, menu_numbers, branchOn_numbers, ifElse_numbers⟩

theorem draft_numbers {s : Scene} {supply supply' : Supply} {g : Graph}
    (h : s.draft table supply = .ok (g, supply')) (hp : s.problems table = [])
    (hc : Cased (bodyNodes s.body)) :
    Lists [g] (numbered s.name supply.identities s.occurrences) := by
  obtain ⟨b, t, hbody, hcases⟩ := draft_cases h
  obtain ⟨count, lists⟩ := body_numbers (fun x _ => numbers table s.name x) hbody
  have body := lists hp hc
  unfold occurrences
  rcases hcases with ⟨hchapter, rfl, rfl⟩ | ⟨hchapter, first, t', operation, hfirst, happend, -⟩
  · rw [if_neg hchapter, List.append_nil]
    exact body
  · have hrb := body_renders (fun x _ => rendered table s.name x) hbody
    have hrf := rendered table s.name _ _ _ _ hfirst
    have checkpoint := (numbers table s.name _ _ _ _ hfirst).2 rfl Config.cased_plain
    have both := checkpoint.follow body happend hrf.whole.wf (hrb.taken.apart hrf.taken).symm
    rw [if_pos hchapter, numbered_append, ← count]
    intro id v
    rw [both id v, List.mem_append, List.mem_append, or_comm]
    rfl

variable {config : Config.StoryConfig} {path : String} {story : Story} {symbols : SymbolTable}
  {supply : Supply} {s : Scene} {built : Built} {g : Graph}

/-- The vertices of the graph of a scene, in the order of their identities, are the statements of the scene
in source order, without the ifs and with the opening checkpoint of a chapter behind them. -/
theorem vertices_in_source_order (hbind : config.bind path = .ok (story, symbols))
    (hs : s ∈ story.scenes) (hb : s.build table supply = .ok built) (hg : built.graph = some g) :
    g.vertices = numbered s.name supply.identities s.occurrences ∧
      g.ids = (List.range' supply.identities s.occurrences.length).map Int.ofNat ∧
      (bodyOccurrences s.body).Perm ((bodyNodes s.body).filterMap TreeNode.numbered?) ∧
      g.vertices.filterMap Vertex.call? = s.calls := by
  obtain ⟨d, hd, ⟨hp, -, hbg, -⟩ | ⟨-, hbg, -⟩⟩ := build_cases hb
  · cases hbg.symm.trans hg
    have lists := draft_numbers hd hp ((Config.scenes_of_bind hbind).1 s hs)
    obtain ⟨ids, vertices⟩ :=
      vertices_eq_of_lists lists (draft_renders hd).whole.wf increasing_numbered
    refine ⟨vertices, ids.trans ids_numbered, (rearranges_body s.body).perm, ?_⟩
    rw [vertices, calls_numbered, calls_occurrences]
  · cases hbg.symm.trans hg

/-- A chapter with a prompt, a case that two options lead to, and an if that has no vertex. -/
def ferry : Config.StoryConfig where
  outcomes := [some { name := "weather", options := some ["sun", "fog", "rain"] }]
  scenes := [
    some ⟨"home", true, "", [
      some (.text "" .call (some "inn")),
      some (.menu "" .switch "Well?" [
        some ⟨"look", false, "", [some (.text "" .output (some "mist")), some (.text "" .call (some "inn"))]⟩,
        some ⟨"wait", false, "", [
          some (.branchOn "" "weather" [
            some ⟨some ["sun", "fog"], false, "", [some (.text "" .call (some "road"))]⟩,
            some ⟨none, true, "", [some (.text "" .call (some "inn"))]⟩])]⟩]),
      some (.ifElse "" [some ⟨"late", [some (.text "" .call (some "road"))]⟩] none)]⟩,
    some ⟨"inn", false, "", []⟩,
    some ⟨"road", false, "", []⟩]

theorem vertices_in_source_order_ferry : ∃ story table s built g,
    ferry.bind "tale" = .ok (story, table) ∧ s ∈ story.scenes ∧ s.build table {} = .ok built ∧
      built.graph = some g ∧ g.ids = [0, 1, 2, 3, 4, 5, 6, 7, 8] ∧
      s.calls.map CallStmt.scene = ["inn", "inn", "road", "inn", "road"] ∧
      g.vertices = numbered s.name 0 s.occurrences ∧ g.vertices.filterMap Vertex.call? = s.calls := by
  have drawn : ((ferry.bind "tale").toOption.bind fun r => r.1.scenes.head?.bind fun s =>
      (s.build r.2 {}).toOption.bind fun built => built.graph.bind fun g =>
        some (g.ids, s.calls.map CallStmt.scene)) =
      some ([0, 1, 2, 3, 4, 5, 6, 7, 8], ["inn", "inn", "road", "inn", "road"]) := by decide +kernel
  obtain ⟨⟨story, table⟩, hbind, drawn⟩ := ok_of_toOption_bind drawn
  obtain ⟨s, hs, drawn⟩ := Option.bind_eq_some_iff.1 drawn
  obtain ⟨built, hb, drawn⟩ := ok_of_toOption_bind drawn
  obtain ⟨g, hg, drawn⟩ := Option.bind_eq_some_iff.1 drawn
  obtain ⟨hids, hcalls⟩ := Prod.mk.inj (Option.some.inj drawn)
  have hm := List.mem_of_head? hs
  obtain ⟨vertices, -, -, calls⟩ := vertices_in_source_order hbind hm hb hg
  exact ⟨story, table, s, built, g, hbind, hm, hb, hg, hids, hcalls, vertices, calls⟩

end Scene

end StoryFlow
