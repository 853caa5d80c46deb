import StoryFlow.Proofs.Flow.Totality
import StoryFlow.Proofs.Scene.Meaning

/-! The graphs of scenes can always be built. Every statement takes fresh identities, so the graphs that
are put together have no vertex in common, but for the body of a case that several options lead to, which
meets itself. What comes out is whole, so its check finds nothing. -/

namespace StoryFlow

open StoryFlow.Flow
open StoryFlow.Flow.Graph

namespace Scene

variable {table : SymbolTable} {scene : String}

def Builds (table : SymbolTable) (scene : String) (x : Stmt) : Prop :=
  ∀ s, ∃ r, x.graph table scene s = .ok r

theorem bodyGraph_total {body : List Stmt} {g : Graph} {s : Supply} {lo : Nat} {p : Prop}
    {l : Language Stmt} {β : List Stmt → Stmt → Prop} (hb : ∀ x ∈ body, Builds table scene x)
    (hr : g.Renders lo s.identities p l β) : ∃ r, bodyGraph table scene g s body = .ok r := by
  induction body generalizing g s p l β with
  | nil =>
    rw [bodyGraph]
    exact ⟨_, rfl⟩
  | cons x rest ih =>
    obtain ⟨hx, hrest⟩ := List.forall_mem_cons.1 hb
    rw [bodyGraph]
    apply bind_total (hx s)
    intro r hgraph
    have hrx := rendered table scene x s r.1 r.2 hgraph
    have apart := hr.taken.apart hrx.taken
    apply bind_total (perform_total (append_total hr.whole.wf apart))
    intro r' happend
    obtain ⟨happend, hs⟩ := perform_ok happend
    have next := hr.append hrx apart ⟨le_rfl, hr.le⟩ ⟨hrx.le, le_rfl⟩ happend
    rw [← hs] at next
    exact ih hrest next

theorem body_total {body : List Stmt} {s : Supply} (hb : ∀ x ∈ body, Builds table scene x) :
    ∃ r, bodyGraph table scene .empty s body = .ok r :=
  bodyGraph_total hb (renders_empty _)

theorem plain_builds (area : TextArea) (action : Action) : Builds table scene (.plain area action) := by
  intro s
  rw [Stmt.graph]
  exact perform_total (single_total _ _ _ _)

theorem optionGraphs_total {kind : MenuKind} {options : List MenuOption} {g : Graph} {v : Vertex}
    {s : Supply} {n : Nat} (hb : ∀ o ∈ options, ∀ x ∈ o.body, Builds table scene x) (hub : g.Hub n v)
    (hg : g.TakenIn n s.identities) : ∃ r, optionGraphs table scene kind n g s options = .ok r := by
  induction options generalizing g s with
  | nil =>
    rw [optionGraphs]
    exact ⟨_, rfl⟩
  | cons o rest ih =>
    obtain ⟨area, label, loop, body⟩ := o
    obtain ⟨hbody, hrest⟩ := List.forall_mem_cons.1 hb
    rw [optionGraphs]
    apply bind_total (body_total hbody)
    rintro ⟨b, s₁⟩ hgraph
    have hr := body_renders (fun x _ => rendered table scene x) hgraph
    apply bind_total (perform_total ⟨_, rfl⟩)
    rintro ⟨looped, s₂⟩ hloop
    obtain ⟨hloop, hs₁⟩ := perform_ok hloop
    -- looped or not, the option has the vertices of its body
    have apart : g.Apart looped := by
      intro id hid
      have haway := hg.apart hr.taken id hid
      cases hloop
      split
      · rwa [has_loopTo hr.whole.wf]
      · exact haway
    have node := has_iff.2 ⟨_, hub.node⟩
    apply bind_total (perform_total (attach_total node (apart _ node) apart.compatible))
    rintro ⟨attached, s₃⟩ hattach
    obtain ⟨hattach, hs₂⟩ := perform_ok hattach
    cases hloop
    obtain ⟨hub', taken, -⟩ := option_hub hub hg hr hattach
    exact ih hrest hub' (hs₂.trans hs₁ ▸ taken)

theorem menu_builds (area : TextArea) (kind : MenuKind) (prompt : String) (options : List MenuOption)
    (hb : ∀ o ∈ options, ∀ x ∈ o.body, Builds table scene x) :
    Builds table scene (.menu area kind prompt options) := by
  intro s
  rw [Stmt.graph]
  apply bind_total (perform_total (single_total _ _ _ _))
  intro r hsingle
  obtain ⟨hsingle, hs⟩ := perform_ok hsingle
  obtain ⟨hub, taken, -, -⟩ := single_hub hsingle rfl (by
    intro e he
    split at he
    · rw [List.mem_singleton.1 he]; rfl
    · cases he)
  exact optionGraphs_total hb hub (hs ▸ taken)

theorem bodyGraphs_total {bodies : List (List Stmt)} {s : Supply}
    (hb : ∀ body ∈ bodies, ∀ x ∈ body, Builds table scene x) :
    ∃ r, bodyGraphs table scene s bodies = .ok r := by
  induction bodies generalizing s with
  | nil => exact ⟨_, rfl⟩
  | cons body rest ih =>
    obtain ⟨hbody, hrest⟩ := List.forall_mem_cons.1 hb
    rw [bodyGraphs]
    apply bind_total (body_total hbody)
    intro r _
    apply bind_total (ih hrest)
    intro r' _
    exact ⟨_, rfl⟩

theorem attachAll_total {ts : List Graph} {g : Graph} {s : Supply} {p : VertexId}
    (hg : g.has p = true) (ht : ∀ b ∈ ts, b.has p = false ∧ Compatible g.nodes b.nodes)
    (hts : ∀ b ∈ ts, ∀ c ∈ ts, Compatible b.nodes c.nodes) : ∃ r, attachAll p g s ts = .ok r := by
  induction ts generalizing g s with
  | nil => exact ⟨_, rfl⟩
  | cons b rest ih =>
    obtain ⟨⟨hb, hgb⟩, hrest⟩ := List.forall_mem_cons.1 ht
    rw [attachAll]
    apply bind_total (perform_total (attach_total hg hb hgb))
    intro r hattach
    obtain ⟨hattach, -⟩ := perform_ok hattach
    obtain ⟨nodes, e, hm, hnodes⟩ := attach_merged hattach
    have entry : ∀ id, id ≠ p → r.1.nodes.get? id = (b.nodes.get? id).or (g.nodes.get? id) := by
      intro id hid
      rw [hnodes, IdMap.get?_insert, if_neg hid, mergeEntries_eq hm, IdMap.get?_union]
    refine ih ?_ (fun c hc => ⟨(hrest c hc).1, fun id x y hx hy => ?_⟩) fun c hc d hd => ?_
    · rw [has, hnodes, IdMap.contains, IdMap.get?_insert, if_pos rfl]
      rfl
    · have hid : id ≠ p := by
        intro hid
        have hno := (hrest c hc).1
        rw [has, IdMap.contains, ← hid, hy] at hno
        cases hno
      rw [entry id hid, Option.or_eq_some_iff] at hx
      rcases hx with hx | ⟨-, hx⟩
      · exact hts b List.mem_cons_self c (List.mem_cons_of_mem _ hc) id x y hx hy
      · exact (hrest c hc).2 id x y hx hy
    · exact hts c (List.mem_cons_of_mem _ hc) d (List.mem_cons_of_mem _ hd)

theorem branchOn_builds (area : TextArea) (name : String) (cases : List BranchCase)
    (hb : ∀ c ∈ cases, ∀ x ∈ c.body, Builds table scene x) :
    Builds table scene (.branchOn area name cases) := by
  intro s
  rw [Stmt.graph]
  apply bind_total (perform_total (single_total _ _ _ _))
  rintro ⟨g, s₁⟩ hsingle
  obtain ⟨hsingle, hs⟩ := perform_ok hsingle
  obtain ⟨hub, taken, -, -⟩ := single_hub hsingle rfl (by simp)
  have hs : s₁.identities = s.identities + 1 := hs
  dsimp only
  rw [caseGraphs_eq]
  apply bind_total (bodyGraphs_total (by simpa using hb))
  intro r' hbodies
  obtain ⟨-, apart, each, -⟩ := bodyGraphs_render (fun _ _ x _ => rendered table scene x) hbodies
  rw [hs] at each
  have node := has_iff.2 ⟨_, hub.node⟩
  have away : ∀ b ∈ r'.1, g.Apart b := fun b hb => taken.apart (each b hb).2
  apply attachAll_total node
  · intro b hm
    have hm := away b (mem_of_mem_branchTargets hm)
    exact ⟨hm _ node, hm.compatible⟩
  · intro b hb c hc
    refine List.Pairwise.forall_of_forall_of_flip (fun d _ => compatible_self d)
      (apart.imp fun h => h.compatible) (apart.imp fun h => h.symm.compatible)
      (mem_of_mem_branchTargets hb) (mem_of_mem_branchTargets hc)

theorem ifElse_builds (area : TextArea) (branches : List IfBranch) (hasElse : Bool)
    (elseBody : List Stmt) (hb : ∀ b ∈ branches, ∀ x ∈ b.body, Builds table scene x)
    (he : ∀ x ∈ elseBody, Builds table scene x) :
    Builds table scene (.ifElse area branches hasElse elseBody) := by
  intro s
  rw [Stmt.graph, branchGraphs_eq]
  apply bind_total (bodyGraphs_total (by simpa using hb))
  intro r hbodies
  apply bind_total (body_total he)
  intro r' hlast
  obtain ⟨-, apart, each, -⟩ := bodyGraphs_render (fun _ _ x _ => rendered table scene x) hbodies
  have hr := body_renders (fun x _ => rendered table scene x) hlast
  apply perform_total
  apply fork_total
  refine List.pairwise_append.2 ⟨apart, List.pairwise_singleton _ _, fun b hm c hc => ?_⟩
  exact List.mem_singleton.1 hc ▸ (each b hm).2.apart hr.taken

theorem builds (table : SymbolTable) (scene : String) : ∀ x, Builds table scene x :=
  Hereditary.stmt ⟨plain_builds, menu_builds, branchOn_builds, ifElse_builds⟩

theorem draft_total (table : SymbolTable) (s : Scene) (supply : Supply) :
    ∃ r, s.draft table supply = .ok r := by
  unfold draft
  apply bind_total (body_total fun x _ => builds table s.name x)
  intro r hbody
  dsimp only
  split
  · apply bind_total (builds table s.name s.opening r.2)
    intro r' hfirst
    have hb := body_renders (fun x _ => rendered table s.name x) hbody
    have hf := rendered table s.name _ _ _ _ hfirst
    exact perform_total (append_total hf.whole.wf (hb.taken.apart hf.taken).symm)
  · exact ⟨_, rfl⟩

theorem build_total (table : SymbolTable) (s : Scene) (supply : Supply) :
    ∃ built, s.build table supply = .ok built := by
  obtain ⟨r, hdraft⟩ := draft_total table s supply
  have hvalid := (draft_renders hdraft).whole.invalidity?_eq_none
  unfold build
  rw [hdraft]
  apply bind_total ⟨r, rfl⟩
  intro r' heq
  cases heq
  dsimp only
  split
  · rw [hvalid]
    exact ⟨_, rfl⟩
  · exact ⟨_, rfl⟩

end Scene

theorem SceneGraphs.buildFrom_total (table : SymbolTable) (scenes : List Scene) (done : SceneGraphs) :
    ∃ s, buildFrom table done scenes = .ok s := by
  induction scenes generalizing done with
  | nil => exact ⟨done, rfl⟩
  | cons x rest ih =>
    rw [buildFrom]
    apply bind_total (Scene.build_total table x done.supply)
    intro built _
    apply ih

end StoryFlow
