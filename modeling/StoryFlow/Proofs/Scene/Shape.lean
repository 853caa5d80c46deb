import StoryFlow.Proofs.Flow.Choice
import StoryFlow.Proofs.Scene.Meaning
import StoryFlow.Story.Walk

/-! The shape of the graph of a scene. Whatever the scene, loop edges are the only edges that lead back,
and each of them returns to a prompt on the way to it. If the scene keeps the rules and every branch has
somewhere to go, every vertex is reached without loop edges and control gets out from everywhere. The
statements of the vertices are statements of the tree. -/

namespace StoryFlow

open StoryFlow.Flow
open StoryFlow.Flow.Graph

def Stmt.Branches (table : SymbolTable) (name : String) (cases : List BranchCase) : Prop :=
  match table.declared? name with
  | none => cases ≠ []
  | some declaration => declaration.optionNames ≠ []

def Branching (table : SymbolTable) (nodes : List TreeNode) : Prop :=
  ∀ area name cases, .stmt (.branchOn area name cases) ∈ nodes → Stmt.Branches table name cases

theorem Branching.mono {table : SymbolTable} {nodes nodes' : List TreeNode}
    (h : Branching table nodes) (hs : nodes' ⊆ nodes) : Branching table nodes' :=
  fun area name cases hm => h area name cases (hs hm)

section Nodes

theorem bodyNodes_subset_optionNodes {options : List MenuOption} :
    ∀ o ∈ options, bodyNodes o.body ⊆ optionNodes options := by
  induction options with
  | nil => simp
  | cons o rest ih =>
    obtain ⟨area, label, loop, body⟩ := o
    rw [optionNodes]
    refine List.forall_mem_cons.2 ⟨fun x hx => List.mem_append_left _ hx, fun o ho x hx => ?_⟩
    exact List.mem_append_right _ (List.mem_cons_of_mem _ (ih o ho hx))

theorem bodyNodes_subset_caseNodes {cases : List BranchCase} :
    ∀ c ∈ cases, bodyNodes c.body ⊆ caseNodes cases := by
  induction cases with
  | nil => simp
  | cons c rest ih =>
    obtain ⟨area, options, other, body⟩ := c
    rw [caseNodes]
    refine List.forall_mem_cons.2 ⟨fun x hx => List.mem_append_left _ hx, fun c hc x hx => ?_⟩
    exact List.mem_append_right _ (List.mem_cons_of_mem _ (ih c hc hx))

theorem bodyNodes_subset_branchNodes {branches : List IfBranch} :
    ∀ b ∈ branches, bodyNodes b.body ⊆ branchNodes branches := by
  induction branches with
  | nil => simp
  | cons b rest ih =>
    obtain ⟨condition, body⟩ := b
    rw [branchNodes]
    refine List.forall_mem_cons.2 ⟨fun x hx => List.mem_append_left _ hx, fun b hb x hx => ?_⟩
    exact List.mem_append_right _ (List.mem_cons_of_mem _ (ih b hb hx))

end Nodes

namespace Flow.Graph

variable {a b g r : Graph} {p q : Prop} {nodes nodes' : List TreeNode} {operation : Nat}

def Carries (g : Graph) (nodes : List TreeNode) : Prop :=
  ∀ id v es, g.node? id = some (v, es) → ∃ s, v.stmt = some s ∧ .stmt s ∈ nodes

theorem Carries.mono (h : g.Carries nodes) (hs : nodes ⊆ nodes') : g.Carries nodes' := by
  intro id v es hn
  obtain ⟨s, hv, hm⟩ := h id v es hn
  exact ⟨s, hv, hs hm⟩

theorem Carries.rewire {mark : Mark} {repl : List Edge} (h : g.Carries nodes) (hg : g.WellFormed) :
    (rewire mark g repl).Carries nodes := by
  intro id v es hn
  rw [node?_rewire hg, Option.map_eq_some_iff] at hn
  obtain ⟨⟨w, ds⟩, hn, heq⟩ := hn
  cases heq
  exact h id w ds hn

theorem Carries.append (h : append operation a b = .ok g) (ha : a.Carries nodes)
    (hb : b.Carries nodes) (hw : a.WellFormed) : g.Carries nodes := by
  rcases append_cases h with ⟨_, rfl⟩ | ⟨_, rfl⟩ | ⟨_, rfl, -, hn, -⟩
  · exact hb
  · exact ha
  · intro id v es hx
    rw [hn, Option.or_eq_some_iff] at hx
    rcases hx with hx | ⟨-, hx⟩
    · exact hb id v es hx
    · exact ha.rewire hw id v es hx

theorem Carries.join {parts : List Graph} (h : r.JoinOf parts) (hb : ∀ b ∈ parts, b.Carries nodes) :
    r.Carries nodes := by
  intro id v es hn
  obtain ⟨b, hm, hn⟩ := (h.nodes id _).1 hn
  exact hb b hm id v es hn

/-- The graph has the shape of a graph of the nodes, and is live if it is lawful. -/
structure Shaped (g : Graph) (lawful : Prop) (nodes : List TreeNode) : Prop where
  looped : g.SelfLooped
  live : lawful → g.Live
  carries : g.Carries nodes

theorem Shaped.imp (h : g.Shaped p nodes) (hp : q → p) (hs : nodes ⊆ nodes') : g.Shaped q nodes' :=
  ⟨h.looped, fun hq => h.live (hp hq), h.carries.mono hs⟩

theorem shaped_of_isEmpty (h : g.isEmpty = true) : g.Shaped p nodes := by
  refine ⟨looped_of_no_node (node?_of_isEmpty h) ?_ (fun _ _ => id), fun _ => live_of_isEmpty h,
    fun id v es hn => ?_⟩
  · rw [start_of_isEmpty h]
    simp [Edge.toSink]
  · rw [node?_of_isEmpty h] at hn
    cases hn

theorem Shaped.append (h : append operation a b = .ok g) (ha : a.Shaped p nodes)
    (hb : b.Shaped q nodes') (haw : a.Whole) (hbw : b.Whole) (hab : a.Apart b) :
    g.Shaped (p ∧ q) (nodes ++ nodes') := by
  refine ⟨.append h ha.looped hb.looped haw hbw hab, fun hpq => ?_, ?_⟩
  · exact .append h (ha.live hpq.1) (hb.live hpq.2) haw.wf hab
  · exact .append h (ha.carries.mono (List.subset_append_left _ _))
      (hb.carries.mono (List.subset_append_right _ _)) haw.wf

/-- What may hang on the vertex `n`. -/
structure Piece (b : Graph) (n hi : Nat) : Prop where
  closed : b.Closed fun id => id = sink ∨ id = (n : Int)
  taken : b.TakenIn (n + 1) hi
  looped : b.Looped (· = (n : Int))

theorem Piece.away {n hi : Nat} (h : b.Piece n hi) {id : VertexId} (hid : id = sink ∨ id = (n : Int)) :
    b.has id = false := by
  rw [← Bool.not_eq_true]
  intro hin
  have hlo := (h.taken id hin).1
  rcases hid with rfl | rfl
  · exact absurd hlo (by simp only [sink]; omega)
  · exact absurd hlo (by omega)

theorem Piece.mono {n hi hi' : Nat} (h : b.Piece n hi) (hh : hi ≤ hi') : b.Piece n hi' :=
  ⟨h.closed, h.taken.mono le_rfl hh, h.looped⟩

theorem Whole.piece {n hi : Nat} (hb : b.Whole) (hl : b.SelfLooped) (ht : b.TakenIn (n + 1) hi) :
    b.Piece n hi := by
  refine ⟨hb.closed.mono fun _ => Or.inl, ht, fun src e he hle => ?_, fun src e he hn => ?_, hl.acyclic⟩
  · exact Or.inr ((hl.loops src e he hle).resolve_left fun hf => hf)
  · rcases hb.closed.edgeFrom he with hin | hout
    · have hlo := (ht _ hin).1
      rw [hn] at hlo
      exact absurd hlo (by omega)
    · exact absurd (hn.symm.trans hout) (natCast_ne_sink n)

theorem Whole.piece_loopTo {n hi : Nat} (hb : b.Whole) (hl : b.SelfLooped) (ht : b.TakenIn (n + 1) hi) :
    (b.loopTo operation n).Piece n hi := by
  have away : b.has n = false := (hb.piece hl ht).away (Or.inr rfl)
  refine ⟨Closed.mono (.loopTo hb) fun _ => Or.inr, fun id hid => ?_, hl.loopTo hb away⟩
  rw [has_loopTo hb.wf] at hid
  exact ht id hid

structure Hanging (g : Graph) (n hi : Nat) (v : Vertex) (parts : List Graph) : Prop where
  hub : g.Hub n v
  join : (g.around n).JoinOf parts
  piece : ∀ b ∈ parts, b.Piece n hi
  apart : ∀ b ∈ parts, ∀ c ∈ parts, b = c ∨ b.Apart c

namespace Hanging

variable {n hi hi' : Nat} {v : Vertex} {parts : List Graph}

theorem attach (h : g.Hanging n hi v parts) (hw : b.WellFormed) (hb : b.Piece n hi') (hh : hi ≤ hi')
    (hp : ∀ q ∈ parts, q = b ∨ q.Apart b) (hr : attach operation g n b = .ok r) :
    r.Hanging n hi' v (parts ++ [b]) := by
  have agree : ∀ q ∈ parts, q.Agree b := by
    intro q hq
    rcases hp q hq with rfl | hp
    · intro id x y hx hy
      exact Option.some.inj (hx.symm.trans hy)
    · exact hp.agree
  obtain ⟨hub, -, -, -⟩ := h.hub.attach hw hb.closed (h.join.agree agree) hr
  refine ⟨hub, h.hub.joinOf_attach h.join agree hr, fun c hc => ?_, fun c hc d hd => ?_⟩
  · rcases List.mem_append.1 hc with hc | hc
    · exact (h.piece c hc).mono hh
    · exact List.mem_singleton.1 hc ▸ hb
  · rcases List.mem_append.1 hc with hc | hc
    · rcases List.mem_append.1 hd with hd | hd
      · exact h.apart c hc d hd
      · exact List.mem_singleton.1 hd ▸ hp c hc
    · rcases List.mem_append.1 hd with hd | hd
      · rw [List.mem_singleton.1 hc]
        exact (hp d hd).imp Eq.symm Apart.symm
      · exact Or.inl ((List.mem_singleton.1 hc).trans (List.mem_singleton.1 hd).symm)

theorem looped (h : g.Hanging n hi v parts)
    (hv : v.LoopPrompt ∨ ∀ b ∈ parts, b.Closed (· = sink)) : g.SelfLooped := by
  refine Looped.hub h.hub ?_ (hv.imp_right fun hc src e he ht => ?_)
  · exact Looped.join h.join (fun b hb => (h.piece b hb).looped) (fun b hb => (h.piece b hb).closed)
      (fun b hb id hid => (h.piece b hb).away hid) h.apart
  · obtain ⟨b, hb, he⟩ := h.join.edgeFrom he
    rcases (hc b hb).edgeFrom he with hin | hout
    · rw [ht, (h.piece b hb).away (Or.inr rfl)] at hin
      cases hin
    · exact natCast_ne_sink n (ht.symm.trans hout)

theorem carries (h : g.Hanging n hi v parts) {s : Stmt} (hv : v.stmt = some s)
    (hs : .stmt s ∈ nodes) (hc : ∀ b ∈ parts, b.Carries nodes) : g.Carries nodes := by
  intro id w es hn
  by_cases hid : id = n
  · cases (hid ▸ hn).symm.trans h.hub.node
    exact ⟨s, hv, hs⟩
  · refine Carries.join h.join hc id w es ?_
    rw [node?_around, if_neg hid, hn]

end Hanging

/-- What a part has to bring along to hang on the vertex `n`. -/
structure Suits (b : Graph) (n : Nat) (v : Vertex) (lawful : Prop) (nodes : List TreeNode) : Prop where
  closed : v.LoopPrompt ∨ b.Closed (· = sink)
  led : lawful → b.Led n
  carries : b.Carries nodes

theorem Hanging.shaped {n hi : Nat} {v : Vertex} {parts : List Graph} (h : g.Hanging n hi v parts)
    {s : Stmt} (hv : v.stmt = some s) (hs : .stmt s ∈ nodes) (hp : ∀ b ∈ parts, b.Suits n v p nodes)
    (ht : p → ∃ b ∈ parts, b.Way false b.start sink) : g.Shaped p nodes where
  looped := by
    apply h.looped
    by_cases hprompt : v.LoopPrompt
    · exact Or.inl hprompt
    · exact Or.inr fun b hb => (hp b hb).closed.resolve_left hprompt
  live := fun hl => h.hub.live h.join (fun b hb => (hp b hb).led hl) (ht hl)
  carries := h.carries hv hs fun b hb => (hp b hb).carries

/-- A part without vertices leads nowhere but out. -/
theorem suits_of_no_node {n : Nat} {v : Vertex} (hn : ∀ id, b.node? id = none)
    (hs : ∀ e ∈ b.start, e = Edge.toSink) : b.Suits n v p nodes := by
  refine ⟨Or.inr ⟨fun e he => Or.inr ?_, fun id w es hx => ?_⟩, fun _ => ⟨fun id hid => ?_,
    fun id w es hx => ?_⟩, fun id w es hx => ?_⟩
  · rw [hs e he]
    rfl
  · cases (hn id).symm.trans hx
  · rw [node?_eq_none_iff.1 (hn id)] at hid
    cases hid
  · cases (hn id).symm.trans hx
  · cases (hn id).symm.trans hx

theorem Shaped.suits {n : Nat} {v : Vertex} (h : b.Shaped p nodes) (hb : b.Whole) :
    b.Suits n v p nodes :=
  ⟨Or.inr hb.closed, fun hp => (h.live hp).led _, h.carries⟩

theorem Shaped.suits_loopTo {n : Nat} {v : Vertex} (h : b.Shaped p nodes) (hb : b.Whole)
    (hv : v.LoopPrompt) : (b.loopTo operation n).Suits n v p nodes :=
  ⟨Or.inl hv, fun hp => (h.live hp).led_loopTo hb.wf operation _, h.carries.rewire hb.wf⟩

end Flow.Graph

section Pairing

universe u v

theorem exists_left_of_forall₂ {α : Type u} {β : Type v} {R : α → β → Prop} {l : List α} {l' : List β}
    (h : List.Forall₂ R l l') : ∀ b ∈ l', ∃ a ∈ l, R a b := by
  induction h with
  | nil => simp
  | cons hab _ ih =>
    refine List.forall_mem_cons.2 ⟨⟨_, List.mem_cons_self, hab⟩, fun b hb => ?_⟩
    obtain ⟨a, ha, hab⟩ := ih b hb
    exact ⟨a, List.mem_cons_of_mem _ ha, hab⟩

theorem exists_right_of_forall₂ {α : Type u} {β : Type v} {R : α → β → Prop} {l : List α} {l' : List β}
    (h : List.Forall₂ R l l') : ∀ a ∈ l, ∃ b ∈ l', R a b :=
  exists_left_of_forall₂ h.flip

end Pairing

namespace Scene

variable {table : SymbolTable} {scene : String}

def Shapes (table : SymbolTable) (scene : String) (x : Stmt) : Prop :=
  ∀ s g s', x.graph table scene s = .ok (g, s') →
    g.Shaped (x.problems table scene = [] ∧ Branching table x.nodes) x.nodes

/-- The body keeps the rules, and its branches lead somewhere. -/
def Lawful (table : SymbolTable) (scene : String) (body : List Stmt) : Prop :=
  bodyProblems table scene body = [] ∧ Branching table (bodyNodes body)

theorem bodyGraph_shaped {body : List Stmt} {g g' : Graph} {s s' : Supply} {lo : Nat} {p q : Prop}
    {l : Language Stmt} {β : List Stmt → Stmt → Prop} {nodes : List TreeNode}
    (hb : ∀ x ∈ body, Shapes table scene x) (hr : g.Renders lo s.identities p l β)
    (hg : g.Shaped q nodes) (h : bodyGraph table scene g s body = .ok (g', s')) :
    g'.Shaped (q ∧ Lawful table scene body) (nodes ++ bodyNodes body) := by
  induction body generalizing g s p q l β nodes with
  | nil =>
    rw [bodyGraph] at h
    cases h
    exact hg.imp And.left (List.subset_append_left _ _)
  | cons x rest ih =>
    rw [bodyGraph] at h
    obtain ⟨⟨b, s₁⟩, hx, h₁⟩ := ok_of_bind_ok h
    obtain ⟨⟨g₁, s₂⟩, ha, h₂⟩ := ok_of_bind_ok h₁
    obtain ⟨ha, hs⟩ := perform_ok ha
    have hrx := rendered table scene x s b s₁ hx
    have apart := hr.taken.apart hrx.taken
    have hr₁ := hr.append hrx apart ⟨le_rfl, hr.le⟩ ⟨hrx.le, le_rfl⟩ ha
    rw [← hs] at hr₁
    have hg₁ := Shaped.append ha hg (hb x List.mem_cons_self s b s₁ hx) hr.whole hrx.whole apart
    refine (ih (fun y hy => hb y (List.mem_cons_of_mem _ hy)) hr₁ hg₁ h₂).imp ?_ ?_
    · intro hq
      obtain ⟨hq, hp, hbr⟩ := hq
      rw [bodyProblems, List.append_eq_nil_iff] at hp
      rw [bodyNodes] at hbr
      exact ⟨⟨hq, hp.1, hbr.mono (List.subset_append_left _ _)⟩, hp.2,
        hbr.mono (List.subset_append_right _ _)⟩
    · rw [bodyNodes, List.append_assoc]
      exact List.Subset.refl _

theorem body_shaped {body : List Stmt} {g : Graph} {s s' : Supply}
    (hb : ∀ x ∈ body, Shapes table scene x)
    (h : bodyGraph table scene .empty s body = .ok (g, s')) :
    g.Shaped (Lawful table scene body) (bodyNodes body) := by
  have empty : Graph.empty.Shaped True [] := shaped_of_isEmpty isEmpty_empty
  exact (bodyGraph_shaped hb (renders_empty _) empty h).imp (fun hl => ⟨trivial, hl⟩) (List.Subset.refl _)

structure BodyPart (table : SymbolTable) (scene : String) (body : List Stmt) (b : Graph) : Prop where
  built : ∃ s s', bodyGraph table scene .empty s body = .ok (b, s')
  whole : b.Whole
  shaped : b.Shaped (Lawful table scene body) (bodyNodes body)

theorem single_hanging {operation n : Nat} {v : Vertex} {es : List Edge} {g : Graph}
    (h : Graph.single operation v es = .ok g) (hv : v.id = n) (he : ∀ e ∈ es, e = Edge.toSink) :
    g.Hanging n (n + 1) v [g.around n] ∧ (∀ id, (g.around n).node? id = none) ∧
      (g.around n).start = es := by
  obtain ⟨hub, -, -, -⟩ := single_hub h hv fun e hm => by rw [he e hm]; rfl
  obtain ⟨-, hn, -⟩ := single_ok h
  rw [hv] at hn
  have none : ∀ id, (g.around n).node? id = none := by
    intro id
    rw [node?_around, hn]
    split <;> rfl
  have start : (g.around n).start = es := edgesOf_of_node? (by rw [hn, if_pos rfl])
  refine ⟨⟨hub, ?_, ?_, ?_⟩, none, start⟩
  · refine ⟨fun e hm => ⟨_, List.mem_singleton_self _, hm⟩, fun b hb e hm => ?_, by simp⟩
    rw [List.mem_singleton.1 hb] at hm
    exact ⟨e, hm, rfl, fun hl => hl⟩
  · intro b hb
    rw [List.mem_singleton.1 hb]
    refine ⟨hub.closed, fun id hid => ?_, looped_of_no_node none ?_ ?_⟩
    · rw [node?_eq_none_iff.1 (none id)] at hid
      cases hid
    · intro e hm
      rw [he e (start ▸ hm)]
      rfl
    · intro e hm hb
      rw [he e (start ▸ hm)] at hb
      exact natCast_ne_sink n hb.symm
  · intro b hb c hc
    exact Or.inl ((List.mem_singleton.1 hb).trans (List.mem_singleton.1 hc).symm)

theorem plain_shapes (area : TextArea) (action : Action) : Shapes table scene (.plain area action) := by
  intro s g s' h
  rw [Stmt.graph] at h
  obtain ⟨h, -⟩ := perform_ok h
  obtain ⟨hang, none, start⟩ := single_hanging h rfl (by simp)
  refine hang.shaped rfl (by simp [Stmt.nodes]) ?_ fun _ => ⟨_, List.mem_singleton_self _, ?_⟩
  · simpa using suits_of_no_node none (by simp [start])
  · rw [start]
    exact .here (e := Edge.toSink) (List.mem_singleton_self _) (by simp [Edge.Open, Edge.toSink])

section Menu

variable {kind : MenuKind} {n : Nat}

/-- The graph that an option hangs on the prompt: that of its body, led back to the prompt if it
loops. -/
def OptionPart (table : SymbolTable) (scene : String) (kind : MenuKind) (n : Nat) (o : MenuOption)
    (b : Graph) : Prop :=
  ∃ c operation, BodyPart table scene o.body c ∧
    b = if o.loop && kind == .loopSwitch then c.loopTo operation n else c

theorem option_hanging {loop : Bool} {body : List Stmt} {g r c : Graph} {v : Vertex} {s s' : Supply}
    {parts : List Graph} {op₁ op₂ : Nat} (hb : ∀ x ∈ body, Shapes table scene x)
    (hn : n < s.identities) (hg : g.Hanging n s.identities v parts)
    (hbody : bodyGraph table scene .empty s body = .ok (c, s'))
    (h : g.attach op₂ n (if loop && kind == .loopSwitch then c.loopTo op₁ n else c) = .ok r) :
    BodyPart table scene body c ∧ r.Hanging n s'.identities v
      (parts ++ [if loop && kind == .loopSwitch then c.loopTo op₁ n else c]) := by
  have hr := body_renders (fun x _ => rendered table scene x) hbody
  have hc := body_shaped hb hbody
  have taken : c.TakenIn (n + 1) s'.identities := hr.taken.mono hn le_rfl
  -- looped or not, the option has the identities taken for its body
  have part : ∀ b, b = (if loop && kind == .loopSwitch then c.loopTo op₁ n else c) →
      b.WellFormed ∧ b.Piece n s'.identities ∧ b.TakenIn s.identities s'.identities := by
    rintro b rfl
    split
    · refine ⟨hr.whole.wf.loopTo, hr.whole.piece_loopTo hc.looped taken, fun id hid => ?_⟩
      rw [has_loopTo hr.whole.wf] at hid
      exact hr.taken id hid
    · exact ⟨hr.whole.wf, hr.whole.piece hc.looped taken, hr.taken⟩
  obtain ⟨wf, piece, own⟩ := part _ rfl
  exact ⟨⟨⟨s, s', hbody⟩, hr.whole, hc⟩,
    hg.attach wf piece hr.le (fun q hq => Or.inr ((hg.piece q hq).taken.apart own)) h⟩

theorem optionGraphs_hanging {options : List MenuOption} {g g' : Graph} {v : Vertex} {s s' : Supply}
    {parts : List Graph} (hb : ∀ o ∈ options, ∀ x ∈ o.body, Shapes table scene x)
    (hn : n < s.identities) (hg : g.Hanging n s.identities v parts)
    (h : optionGraphs table scene kind n g s options = .ok (g', s')) :
    ∃ parts', g'.Hanging n s'.identities v (parts ++ parts') ∧
      List.Forall₂ (OptionPart table scene kind n) options parts' := by
  induction options generalizing g s parts with
  | nil =>
    rw [optionGraphs] at h
    cases h
    exact ⟨[], by rwa [List.append_nil], .nil⟩
  | cons o rest ih =>
    obtain ⟨area, label, loop, body⟩ := o
    rw [optionGraphs] at h
    obtain ⟨⟨c, s₁⟩, hbody, h₁⟩ := ok_of_bind_ok h
    obtain ⟨⟨b, s₂⟩, hloop, h₂⟩ := ok_of_bind_ok h₁
    obtain ⟨⟨g₁, s₃⟩, hattach, h₃⟩ := ok_of_bind_ok h₂
    obtain ⟨hloop, hs₂⟩ := perform_ok hloop
    obtain ⟨hattach, hs₃⟩ := perform_ok hattach
    cases hloop
    have hs : s₃.identities = s₁.identities := hs₃.trans hs₂
    have hn₁ := (body_renders (fun x _ => rendered table scene x) hbody).le
    obtain ⟨part, hg₁⟩ := option_hanging (hb _ List.mem_cons_self) hn hg hbody hattach
    obtain ⟨parts', hang, options⟩ := ih (fun o ho => hb o (List.mem_cons_of_mem _ ho)) (by omega)
      (hs ▸ hg₁) h₃
    exact ⟨_ :: parts', by rwa [List.append_cons], .cons ⟨c, s₁.operations, part, rfl⟩ options⟩

theorem optionProblems_eq_nil {area : TextArea} {options : List MenuOption}
    (h : optionProblems table scene area kind options = []) :
    ∀ o ∈ options, bodyProblems table scene o.body = [] := by
  induction options with
  | nil => simp
  | cons o rest ih =>
    obtain ⟨area', label, loop, body⟩ := o
    simp only [optionProblems, List.append_eq_nil_iff] at h
    exact List.forall_mem_cons.2 ⟨h.1.1.2, ih h.2⟩

theorem exists_leaving_option {area : TextArea} {options : List MenuOption} (hne : options ≠ [])
    (h : exitProblems scene kind area options = []) :
    ∃ o ∈ options, ¬(o.loop && kind == .loopSwitch) = true := by
  unfold exitProblems at h
  split at h <;> rename_i hexit
  · cases h
  · by_cases hk : kind = .loopSwitch
    · simp only [hk, beq_self_eq_true, Bool.true_and, List.all_eq_true, not_forall] at hexit
      obtain ⟨o, ho, hl⟩ := hexit
      exact ⟨o, ho, by simp [hl]⟩
    · obtain ⟨o, ho⟩ := List.exists_mem_of_ne_nil options hne
      exact ⟨o, ho, by simp [hk]⟩

theorem OptionPart.suits {o : MenuOption} {b : Graph} {v : Vertex} {nodes : List TreeNode}
    {lawful : Prop} (h : OptionPart table scene kind n o b) (hv : kind = .loopSwitch → v.LoopPrompt)
    (hl : lawful → Lawful table scene o.body) (hs : bodyNodes o.body ⊆ nodes) :
    b.Suits n v lawful nodes := by
  obtain ⟨c, operation, hc, rfl⟩ := h
  have hshaped := hc.shaped.imp hl hs
  split <;> rename_i hloop
  · exact hshaped.suits_loopTo hc.whole (hv (by simpa using (Bool.and_eq_true_iff.1 hloop).2))
  · exact hshaped.suits hc.whole

theorem leaves_of_no_options {options : List MenuOption} :
    ∀ e ∈ (if options.isEmpty then [Edge.toSink] else []), e = Edge.toSink := by
  intro e he
  split at he
  · exact List.mem_singleton.1 he
  · cases he

theorem menu_cases {area : TextArea} {prompt : String} {options : List MenuOption} {s s' : Supply}
    {g : Graph} (h : (Stmt.menu area kind prompt options).graph table scene s = .ok (g, s')) :
    ∃ g₀ t, t.identities = s.identities + 1 ∧
      g₀.Hanging s.identities (s.identities + 1)
        (.ofStmt s.identities (some (.menu area kind prompt options)) scene) [g₀.around s.identities] ∧
      (∀ id, (g₀.around s.identities).node? id = none) ∧
      (g₀.around s.identities).start = (if options.isEmpty then [Edge.toSink] else []) ∧
      optionGraphs table scene kind s.identities g₀ t options = .ok (g, s') := by
  rw [Stmt.graph] at h
  obtain ⟨⟨g₀, t⟩, hsingle, h⟩ := ok_of_bind_ok h
  obtain ⟨hsingle, hs⟩ := perform_ok hsingle
  obtain ⟨hang, none, start⟩ := single_hanging hsingle rfl leaves_of_no_options
  exact ⟨g₀, t, hs, hang, none, start, h⟩

theorem menu_hanging {area : TextArea} {prompt : String} {options : List MenuOption} {s s' : Supply}
    {g : Graph} (hb : ∀ o ∈ options, ∀ x ∈ o.body, Shapes table scene x)
    (h : (Stmt.menu area kind prompt options).graph table scene s = .ok (g, s')) :
    ∃ g₀ parts, g.Hanging s.identities s'.identities
        (.ofStmt s.identities (some (.menu area kind prompt options)) scene) (g₀ :: parts) ∧
      (∀ id, g₀.node? id = none) ∧ (∀ e ∈ g₀.start, e = Edge.toSink) ∧
        List.Forall₂ (OptionPart table scene kind s.identities) options parts := by
  obtain ⟨g₀, t, hs, hang₀, none, start, h⟩ := menu_cases h
  obtain ⟨parts, hang, each⟩ := optionGraphs_hanging hb (by omega) (hs ▸ hang₀) h
  exact ⟨_, parts, hang, none, start ▸ leaves_of_no_options, each⟩

theorem menu_shapes (area : TextArea) (prompt : String) (options : List MenuOption)
    (hb : ∀ o ∈ options, ∀ x ∈ o.body, Shapes table scene x) :
    Shapes table scene (.menu area kind prompt options) := by
  intro s g s' h
  obtain ⟨g₀, parts, hang, none, out, each⟩ := menu_hanging hb h
  have nodes : ∀ o ∈ options, bodyNodes o.body ⊆ (Stmt.menu area kind prompt options).nodes := by
    intro o ho x hx
    rw [Stmt.nodes]
    exact List.mem_append_left _ (bodyNodes_subset_optionNodes o ho hx)
  have lawful : ∀ o ∈ options, (Stmt.menu area kind prompt options).problems table scene = [] ∧
      Branching table (Stmt.menu area kind prompt options).nodes → Lawful table scene o.body := by
    intro o ho hl
    exact ⟨optionProblems_eq_nil (menu_lawful hl.1).2 o ho, hl.2.mono (nodes o ho)⟩
  refine hang.shaped rfl (by simp [Stmt.nodes]) (List.forall_mem_cons.2 ⟨?_, fun b hm => ?_⟩) fun hl => ?_
  · exact suits_of_no_node none out
  · obtain ⟨o, ho, hpart⟩ := exists_left_of_forall₂ each b hm
    refine hpart.suits (fun hk => ⟨area, prompt, options, ?_⟩) (lawful o ho) (nodes o ho)
    rw [← hk]
    rfl
  · obtain ⟨hne, -⟩ := menu_lawful hl.1
    have hexit : exitProblems scene kind area options = [] := by
      have hp := hl.1
      rw [Stmt.problems, if_neg hne] at hp
      exact (List.append_eq_nil_iff.1 hp).2
    obtain ⟨o, ho, hleave⟩ := exists_leaving_option (by simpa using hne) hexit
    obtain ⟨b, hm, c, operation, hc, rfl⟩ := exists_right_of_forall₂ each o ho
    rw [if_neg hleave] at hm
    exact ⟨c, List.mem_cons_of_mem _ hm, (hc.shaped.live (lawful o ho hl)).through⟩

end Menu

section Branch

theorem attachAll_identities {p : VertexId} {ts : List Graph} {g g' : Graph} {s s' : Supply}
    (h : attachAll p g s ts = .ok (g', s')) : s'.identities = s.identities := by
  induction ts generalizing g s with
  | nil =>
    cases h
    rfl
  | cons b rest ih =>
    rw [attachAll] at h
    obtain ⟨⟨g₁, s₁⟩, hattach, h⟩ := ok_of_bind_ok h
    exact (ih h).trans (perform_ok hattach).2

theorem edgesOf_attachAll {p : VertexId} {ts : List Graph} {g g' : Graph} {s s' : Supply}
    (h : attachAll p g s ts = .ok (g', s')) :
    g'.edgesOf p = g.edgesOf p ++ ts.flatMap Graph.start := by
  induction ts generalizing g s with
  | nil =>
    cases h
    rw [List.flatMap_nil, List.append_nil]
  | cons b rest ih =>
    rw [attachAll] at h
    obtain ⟨⟨g₁, s₁⟩, hattach, h⟩ := ok_of_bind_ok h
    obtain ⟨v, es, hn, -, -, hnodes, -⟩ := attach_ok (perform_ok hattach).1
    have added : g₁.edgesOf p = es ++ b.start := edgesOf_of_node? (by rw [hnodes, if_pos rfl])
    rw [ih h, added, edgesOf_of_node? hn, List.flatMap_cons, List.append_assoc]

theorem attachAll_hanging {ts parts : List Graph} {g g' : Graph} {v : Vertex} {s s' : Supply}
    {n hi : Nat} (hg : g.Hanging n hi v parts) (ht : ∀ b ∈ ts, b.WellFormed ∧ b.Piece n hi)
    (hts : ∀ b ∈ ts, ∀ c ∈ ts, b = c ∨ b.Apart c) (hp : ∀ q ∈ parts, ∀ b ∈ ts, q = b ∨ q.Apart b)
    (h : attachAll n g s ts = .ok (g', s')) : g'.Hanging n hi v (parts ++ ts) := by
  induction ts generalizing g s parts with
  | nil =>
    cases h
    rwa [List.append_nil]
  | cons b rest ih =>
    rw [attachAll] at h
    obtain ⟨⟨g₁, s₁⟩, hattach, h⟩ := ok_of_bind_ok h
    obtain ⟨hattach, -⟩ := perform_ok hattach
    obtain ⟨hw, hb⟩ := ht b List.mem_cons_self
    have hg₁ := hg.attach hw hb le_rfl (fun q hq => hp q hq b List.mem_cons_self) hattach
    rw [List.append_cons]
    refine ih hg₁ (fun c hc => ht c (List.mem_cons_of_mem _ hc)) (fun c hc d hd => ?_)
      (fun q hq c hc => ?_) h
    · exact hts c (List.mem_cons_of_mem _ hc) d (List.mem_cons_of_mem _ hd)
    · rcases List.mem_append.1 hq with hq | hq
      · exact hp q hq c (List.mem_cons_of_mem _ hc)
      · rw [List.mem_singleton.1 hq]
        exact hts b List.mem_cons_self c (List.mem_cons_of_mem _ hc)

theorem bodyGraphs_parts {bodies : List (List Stmt)} {bs : List Graph} {s s' : Supply}
    (hb : ∀ body ∈ bodies, ∀ x ∈ body, Shapes table scene x)
    (h : bodyGraphs table scene s bodies = .ok (bs, s')) :
    List.Forall₂ (BodyPart table scene) bodies bs := by
  induction bodies generalizing s bs with
  | nil =>
    cases h
    exact .nil
  | cons body rest ih =>
    rw [bodyGraphs] at h
    obtain ⟨⟨b, s₁⟩, hbody, h₁⟩ := ok_of_bind_ok h
    obtain ⟨⟨others, s₂⟩, hrest, h₂⟩ := ok_of_bind_ok h₁
    cases h₂
    refine .cons ⟨⟨s, s₁, hbody⟩, ?_, body_shaped (hb body List.mem_cons_self) hbody⟩
      (ih (fun body hm => hb body (List.mem_cons_of_mem _ hm)) hrest)
    exact (body_renders (fun x _ => rendered table scene x) hbody).whole

theorem eq_or_apart_of_pairwise {bs : List Graph} (h : bs.Pairwise Apart) :
    ∀ b ∈ bs, ∀ c ∈ bs, b = c ∨ b.Apart c := by
  intro b hb c hc
  refine List.Pairwise.forall_of_forall_of_flip ?_ (h.imp Or.inr) (h.imp fun hbc => Or.inr hbc.symm)
    hb hc
  intro d _
  exact Or.inl rfl

theorem names_or_other_of_coverage {area : TextArea} {name option : String} {declared : List String}
    {cases : List BranchCase} (h : coverageProblems scene area name declared cases = [])
    (ho : option ∈ declared) : (∃ c ∈ cases, c.Names option) ∨ ∃ c ∈ cases, c.other = true := by
  unfold coverageProblems at h
  dsimp only at h
  split at h <;> rename_i hother
  · exact Or.inr (by simpa using hother)
  · split at h <;> rename_i hleft
    · left
      have hwritten : option ∈ writtenOptions cases := by
        by_contra hno
        have hm := Names.mem_without.2 ⟨ho, hno⟩
        rw [List.isEmpty_iff.1 hleft] at hm
        cases hm
      obtain ⟨c, hc, hoption⟩ := List.mem_flatMap.1 hwritten
      obtain ⟨hc, hnamed⟩ := List.mem_filter.1 hc
      exact ⟨c, hc, by simpa using hnamed, hoption⟩
    · cases h

/-- Under the rules every declared option has a case, so a branch that leads somewhere is entered. -/
theorem exists_mem_branchTargets {area : TextArea} {name : String} {cases : List BranchCase}
    {bs : List Graph} (hl : cases.length = bs.length)
    (hp : branchProblems table scene area name cases = []) (hb : Stmt.Branches table name cases) :
    ∃ b, b ∈ branchTargets table name cases bs := by
  unfold branchTargets
  unfold branchProblems at hp
  unfold Stmt.Branches at hb
  cases hd : table.declared? name with
  | none =>
    simp only [hd] at hb ⊢
    refine List.exists_mem_of_ne_nil bs fun hnil => hb ?_
    rwa [hnil, List.length_nil, List.length_eq_zero_iff] at hl
  | some declaration =>
    simp only [hd, List.append_eq_nil_iff] at hp hb ⊢
    obtain ⟨option, ho⟩ := List.exists_mem_of_ne_nil _ hb
    have find : ∀ q : BranchCase → Bool, (∃ c ∈ cases, q c = true) →
        ((cases.zip bs).find? fun x => q x.1).isSome = true := by
      intro q hq
      obtain ⟨c, hc, hqc⟩ := hq
      rw [← List.map_fst_zip hl.le, List.mem_map] at hc
      obtain ⟨x, hx, rfl⟩ := hc
      exact List.find?_isSome.2 ⟨x, hx, hqc⟩
    have owner : ∃ b, owner? (cases.zip bs) option = some b := by
      rw [← Option.isSome_iff_exists, owner?, Option.isSome_map, Option.orElse_eq_or,
        Option.isSome_or, Bool.or_eq_true]
      refine (names_or_other_of_coverage hp.2 ho).imp (fun hc => ?_) (find BranchCase.other)
      obtain ⟨c, hc, hnamed⟩ := hc
      refine find (fun c => !c.other && c.optionNames.contains option) ⟨c, hc, ?_⟩
      simpa [BranchCase.Names] using hnamed
    obtain ⟨b, hb⟩ := owner
    exact ⟨b, List.mem_filterMap.2 ⟨option, ho, hb⟩⟩

theorem branchOn_hanging {area : TextArea} {name : String} {cases : List BranchCase} {s s' : Supply}
    {g : Graph} (hb : ∀ c ∈ cases, ∀ x ∈ c.body, Shapes table scene x)
    (h : (Stmt.branchOn area name cases).graph table scene s = .ok (g, s')) :
    ∃ g₀ bs t t', g.Hanging s.identities t'.identities
        (.ofStmt s.identities (some (.branchOn area name cases)) scene)
        (g₀ :: branchTargets table name cases bs) ∧
      (∀ id, g₀.node? id = none) ∧ (∀ e ∈ g₀.start, e = Edge.toSink) ∧
        List.Forall₂ (fun c => BodyPart table scene c.body) cases bs ∧
        bodyGraphs table scene t (cases.map BranchCase.body) = .ok (bs, t') ∧
        t.identities = s.identities + 1 ∧ s'.identities = t'.identities ∧
        g.edgesOf s.identities = (branchTargets table name cases bs).flatMap Graph.start := by
  rw [Stmt.graph] at h
  obtain ⟨⟨g₀, s₁⟩, hsingle, h₁⟩ := ok_of_bind_ok h
  obtain ⟨⟨bs, s₂⟩, hbs, h₂⟩ := ok_of_bind_ok h₁
  obtain ⟨hsingle, hs⟩ := perform_ok hsingle
  have hs : s₁.identities = s.identities + 1 := hs
  obtain ⟨hang₀, none, start⟩ := single_hanging hsingle rfl (by simp)
  rw [caseGraphs_eq] at hbs
  obtain ⟨le, apart, each, -⟩ := bodyGraphs_render (fun _ _ x _ => rendered table scene x) hbs
  rw [hs] at each le
  have bodies := List.forall₂_map_left_iff.1 (bodyGraphs_parts (by simpa using hb) hbs)
  have base : g₀.Hanging s.identities s₂.identities _ _ :=
    ⟨hang₀.hub, hang₀.join, fun b hb => (hang₀.piece b hb).mono le, hang₀.apart⟩
  have hang := attachAll_hanging base (fun b hb => ?_) (fun b hb c hc => ?_) (fun q hq b hb => ?_) h₂
  · refine ⟨_, bs, s₁, s₂, hang, none, by simp [start], bodies, hbs, hs, attachAll_identities h₂, ?_⟩
    have edges : g.edgesOf s.identities = g₀.edgesOf s.identities ++ _ := edgesOf_attachAll h₂
    rwa [edgesOf_of_node? hang₀.hub.node, start, List.nil_append] at edges
  · have hm := mem_of_mem_branchTargets hb
    obtain ⟨c, -, hpart⟩ := exists_left_of_forall₂ bodies b hm
    obtain ⟨hw, ht⟩ := each b hm
    exact ⟨hw.wf, hw.piece hpart.shaped.looped ht⟩
  · exact eq_or_apart_of_pairwise apart b (mem_of_mem_branchTargets hb) c (mem_of_mem_branchTargets hc)
  · right
    rw [List.mem_singleton.1 hq]
    intro id hid
    rw [node?_eq_none_iff.1 (none id)] at hid
    cases hid

theorem branchOn_shapes (area : TextArea) (name : String) (cases : List BranchCase)
    (hb : ∀ c ∈ cases, ∀ x ∈ c.body, Shapes table scene x) :
    Shapes table scene (.branchOn area name cases) := by
  intro s g s' h
  obtain ⟨g₀, bs, t, t', hang, none, out, bodies, -⟩ := branchOn_hanging hb h
  have shaped : ∀ b ∈ bs, b.Whole ∧
      b.Shaped ((Stmt.branchOn area name cases).problems table scene = [] ∧
        Branching table (Stmt.branchOn area name cases).nodes) (Stmt.branchOn area name cases).nodes := by
    rw [Stmt.problems, Stmt.nodes]
    simp only [List.append_eq_nil_iff]
    intro b hm
    obtain ⟨c, hc, hpart⟩ := exists_left_of_forall₂ bodies b hm
    have sub : bodyNodes c.body ⊆ caseNodes cases ++ [.stmt (.branchOn area name cases)] := by
      intro x hx
      exact List.mem_append_left _ (bodyNodes_subset_caseNodes c hc hx)
    refine ⟨hpart.whole, hpart.shaped.imp (fun hl => ⟨?_, hl.2.mono sub⟩) sub⟩
    exact caseBodyProblems_eq_nil hl.1.1.2 c hc
  refine hang.shaped rfl (by simp [Stmt.nodes]) (List.forall_mem_cons.2 ⟨?_, fun b hm => ?_⟩) fun hl => ?_
  · exact suits_of_no_node none out
  · obtain ⟨hw, hshaped⟩ := shaped b (mem_of_mem_branchTargets hm)
    exact hshaped.suits hw
  · have hp := hl.1
    rw [Stmt.problems] at hp
    obtain ⟨b, hm⟩ := exists_mem_branchTargets bodies.length_eq (List.append_eq_nil_iff.1 hp).2
      (hl.2 area name cases (by simp [Stmt.nodes]))
    obtain ⟨-, hshaped⟩ := shaped b (mem_of_mem_branchTargets hm)
    exact ⟨b, List.mem_cons_of_mem _ hm, (hshaped.live hl).through⟩

theorem ifElse_join {area : TextArea} {branches : List IfBranch} {hasElse : Bool}
    {elseBody : List Stmt} {s s' : Supply} {g : Graph}
    (hb : ∀ b ∈ branches, ∀ x ∈ b.body, Shapes table scene x)
    (he : ∀ x ∈ elseBody, Shapes table scene x)
    (h : (Stmt.ifElse area branches hasElse elseBody).graph table scene s = .ok (g, s')) :
    ∃ bs last t, g.JoinOf (bs ++ [last]) ∧ (bs ++ [last]).Pairwise Apart ∧
      List.Forall₂ (fun b => BodyPart table scene b.body) branches bs ∧
        BodyPart table scene elseBody last ∧
        bodyGraphs table scene s (branches.map IfBranch.body) = .ok (bs, t) ∧
        ∃ t', bodyGraph table scene .empty t elseBody = .ok (last, t') ∧
          s'.identities = t'.identities := by
  rw [Stmt.graph] at h
  obtain ⟨⟨bs, s₁⟩, hbs, h₁⟩ := ok_of_bind_ok h
  obtain ⟨⟨last, s₂⟩, hlast, h₂⟩ := ok_of_bind_ok h₁
  obtain ⟨hfork, hs⟩ := perform_ok h₂
  rw [branchGraphs_eq] at hbs
  obtain ⟨-, apart, each, -⟩ := bodyGraphs_render (fun _ _ x _ => rendered table scene x) hbs
  have hr := body_renders (fun x _ => rendered table scene x) hlast
  have bodies := List.forall₂_map_left_iff.1 (bodyGraphs_parts (by simpa using hb) hbs)
  have part : BodyPart table scene elseBody last := ⟨⟨_, _, hlast⟩, hr.whole, body_shaped he hlast⟩
  have looped : ∀ b ∈ bs ++ [last], b.SelfLooped := by
    intro b hm
    rcases List.mem_append.1 hm with hm | hm
    · obtain ⟨c, -, hpart⟩ := exists_left_of_forall₂ bodies b hm
      exact hpart.shaped.looped
    · exact List.mem_singleton.1 hm ▸ part.shaped.looped
  have hp : (bs ++ [last]).Pairwise Apart := by
    refine List.pairwise_append.2 ⟨apart, List.pairwise_singleton _ _, fun b hm c hc => ?_⟩
    exact List.mem_singleton.1 hc ▸ (each b hm).2.apart hr.taken
  exact ⟨bs, last, s₁, fork_joinOf hfork (by simp) (fun b hm e he => (looped b hm).start he) hp, hp,
    bodies, part, hbs, s₂, hlast, hs⟩

theorem ifElse_shapes (area : TextArea) (branches : List IfBranch) (hasElse : Bool)
    (elseBody : List Stmt) (hb : ∀ b ∈ branches, ∀ x ∈ b.body, Shapes table scene x)
    (he : ∀ x ∈ elseBody, Shapes table scene x) :
    Shapes table scene (.ifElse area branches hasElse elseBody) := by
  intro s g s' h
  obtain ⟨bs, last, t, join, hp, bodies, part, -⟩ := ifElse_join hb he h
  have shaped : ∀ b ∈ bs ++ [last], b.Whole ∧
      b.Shaped ((Stmt.ifElse area branches hasElse elseBody).problems table scene = [] ∧
        Branching table (Stmt.ifElse area branches hasElse elseBody).nodes)
        (Stmt.ifElse area branches hasElse elseBody).nodes := by
    rw [Stmt.problems, Stmt.nodes, List.append_eq_nil_iff]
    intro b hm
    rcases List.mem_append.1 hm with hm | hm
    · obtain ⟨c, hc, hpart⟩ := exists_left_of_forall₂ bodies b hm
      have sub : bodyNodes c.body ⊆ branchNodes branches ++ bodyNodes elseBody ++
          [.stmt (.ifElse area branches hasElse elseBody)] := by
        intro x hx
        exact List.mem_append_left _ (List.mem_append_left _ (bodyNodes_subset_branchNodes c hc hx))
      refine ⟨hpart.whole, hpart.shaped.imp (fun hl => ⟨?_, hl.2.mono sub⟩) sub⟩
      exact branchBodyProblems_eq_nil hl.1.1 c hc
    · rw [List.mem_singleton.1 hm]
      have sub : bodyNodes elseBody ⊆ branchNodes branches ++ bodyNodes elseBody ++
          [.stmt (.ifElse area branches hasElse elseBody)] := by
        intro x hx
        exact List.mem_append_left _ (List.mem_append_right _ hx)
      exact ⟨part.whole, part.shaped.imp (fun hl => ⟨hl.1.2, hl.2.mono sub⟩) sub⟩
  refine ⟨?_, fun hl => ?_, Carries.join join fun b hm => (shaped b hm).2.carries⟩
  · refine Looped.join join (fun b hm => (shaped b hm).2.looped) (fun b hm => (shaped b hm).1.closed) ?_
      (eq_or_apart_of_pairwise hp)
    intro b hm id hid
    exact node?_eq_none_iff.1 ((shaped b hm).1.out_none id hid)
  · exact live_of_joinOf join (fun b hm => (shaped b hm).2.live hl) (by simp)

end Branch

theorem shapes (table : SymbolTable) (scene : String) : ∀ x, Shapes table scene x :=
  Hereditary.stmt ⟨plain_shapes, fun area _ => menu_shapes area, branchOn_shapes, ifElse_shapes⟩

/-- The shape of the graph of a scene. A chapter opens with a vertex of its own. -/
theorem draft_shaped {s : Scene} {supply supply' : Supply} {g : Graph}
    (h : s.draft table supply = .ok (g, supply')) :
    g.Shaped (Lawful table s.name s.body) (.stmt s.opening :: bodyNodes s.body) := by
  obtain ⟨b, t, hbody, hcases⟩ := draft_cases h
  have hb := body_shaped (fun x _ => shapes table s.name x) hbody
  rcases hcases with ⟨-, rfl, rfl⟩ | ⟨-, first, t', operation, hfirst, happend, -⟩
  · exact hb.imp (fun hl => hl) (List.subset_cons_self _ _)
  · have hrb := body_renders (fun x _ => rendered table s.name x) hbody
    have hrf := rendered table s.name _ _ _ _ hfirst
    have hf := shapes table s.name _ _ _ _ hfirst
    refine (Shaped.append happend hf hb hrf.whole hrb.whole (hrb.taken.apart hrf.taken).symm).imp ?_ ?_
    · intro hl
      refine ⟨⟨rfl, fun area name cases hm => ?_⟩, hl⟩
      simp [opening, Stmt.nodes] at hm
    · simp [opening, Stmt.nodes]

end Scene

end StoryFlow
