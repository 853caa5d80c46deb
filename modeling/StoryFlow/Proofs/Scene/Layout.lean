import StoryFlow.Proofs.Flow.Sequence
import StoryFlow.Proofs.Scene.Numbering

/-! The graph of a scene with all of its edges, read off the tree. The identities are counted as they are given
out, and every statement stands there with the edges along which control goes on behind it. The graph has just
these vertices: a plain statement goes on, a menu leads into its options and a branch into the cases that own
the options of the variable, each time along all the edges by which a body is entered. -/

namespace StoryFlow

open StoryFlow.Flow
open StoryFlow.Flow.Graph

mutual

/-- The edges by which control enters a statement that has the identities from `n` on. An if is entered by all
its branches and by its else, but straight past it at most once. -/
def Stmt.start (n : Nat) : Stmt → List Edge
  | .plain _ _ | .menu _ _ _ _ | .branchOn _ _ _ => [⟨n, false⟩]
  | .ifElse _ branches _ elseBody =>
    (branchStarts n branches ++
      bodyStart (n + (branchOccurrences branches).length) elseBody).foldl addStart []

def bodyStart (n : Nat) : List Stmt → List Edge
  | [] => [Edge.toSink]
  | x :: rest => Edge.redirect (x.start n) sink (bodyStart (n + x.occurrences.length) rest)

def branchStarts (n : Nat) : List IfBranch → List Edge
  | [] => []
  | ⟨_, body⟩ :: rest => bodyStart n body ++ branchStarts (n + (bodyOccurrences body).length) rest

end

/-- A statement in its place: its identity, and the edges along which control goes on behind it. -/
structure Standing where
  number : Nat
  next : List Edge
  stmt : Stmt

def onward (kind : MenuKind) (prompt : Nat) (loop : Bool) (next : List Edge) : List Edge :=
  if loop && kind == .loopSwitch then [⟨prompt, true⟩] else next

mutual

/-- The statements that stand in a statement which has the identities from `n` on. The bodies of cases that are
not entered are left out. -/
def Stmt.standings (table : SymbolTable) (n : Nat) (next : List Edge) : Stmt → Set Standing
  | .plain area action => {⟨n, next, .plain area action⟩}
  | .menu area kind prompt options =>
    insert ⟨n, next, .menu area kind prompt options⟩
      (optionStandings table kind n (n + 1) next options)
  | .branchOn area name cases =>
    insert ⟨n, next, .branchOn area name cases⟩
      (caseStandings table (BranchCase.Entered table name cases) (n + 1) next cases)
  | .ifElse _ branches _ elseBody =>
    branchStandings table n next branches ∪
      bodyStandings table (n + (branchOccurrences branches).length) next elseBody

def bodyStandings (table : SymbolTable) (n : Nat) (next : List Edge) : List Stmt → Set Standing
  | [] => ∅
  | x :: rest =>
    x.standings table n (Edge.redirect (bodyStart (n + x.occurrences.length) rest) sink next) ∪
      bodyStandings table (n + x.occurrences.length) next rest

def optionStandings (table : SymbolTable) (kind : MenuKind) (prompt n : Nat) (next : List Edge) :
    List MenuOption → Set Standing
  | [] => ∅
  | ⟨_, _, loop, body⟩ :: rest =>
    bodyStandings table n (onward kind prompt loop next) body ∪
      optionStandings table kind prompt (n + (bodyOccurrences body).length) next rest

def caseStandings (table : SymbolTable) (entered : BranchCase → Prop) (n : Nat) (next : List Edge) :
    List BranchCase → Set Standing
  | [] => ∅
  | ⟨area, options, other, body⟩ :: rest =>
    {p ∈ bodyStandings table n next body | entered ⟨area, options, other, body⟩} ∪
      caseStandings table entered (n + (bodyOccurrences body).length) next rest

def branchStandings (table : SymbolTable) (n : Nat) (next : List Edge) : List IfBranch → Set Standing
  | [] => ∅
  | ⟨_, body⟩ :: rest =>
    bodyStandings table n next body ∪
      branchStandings table (n + (bodyOccurrences body).length) next rest

end

/-- The edges by which control enters a body, and goes on where it can pass the body. -/
def entries (n : Nat) (next : List Edge) (body : List Stmt) : List Edge :=
  Edge.redirect (bodyStart n body) sink next

def optionEntries (kind : MenuKind) (prompt n : Nat) (next : List Edge) :
    List MenuOption → List (List Edge)
  | [] => []
  | o :: rest =>
    entries n (onward kind prompt o.loop next) o.body ::
      optionEntries kind prompt (n + (bodyOccurrences o.body).length) next rest

def caseEntries (n : Nat) (next : List Edge) : List BranchCase → List (List Edge)
  | [] => []
  | c :: rest => entries n next c.body :: caseEntries (n + (bodyOccurrences c.body).length) next rest

namespace Scene

def targets {α : Type} (table : SymbolTable) (name : String) (cases : List BranchCase)
    (bodies : List α) : List α :=
  match table.declared? name with
  | none => bodies
  | some declaration => declaration.optionNames.filterMap (owner? (cases.zip bodies))

end Scene

/-- The edges of the vertex of a statement that has the identity `n`. An if has no vertex. -/
def Stmt.edges (table : SymbolTable) (n : Nat) (next : List Edge) : Stmt → List Edge
  | .plain _ _ => next
  | .menu _ kind _ options => (optionEntries kind n (n + 1) next options).flatten
  | .branchOn _ name cases =>
    (Scene.targets table name cases (caseEntries (n + 1) next cases)).flatten
  | .ifElse _ _ _ _ => []

namespace Standing

def edges (table : SymbolTable) (p : Standing) : List Edge := p.stmt.edges table p.number p.next

def node (table : SymbolTable) (scene : String) (p : Standing) : Vertex × List Edge :=
  (.ofStmt p.number (some p.stmt) scene, p.edges table)

def onto (ds : List Edge) (p : Standing) : Standing := { p with next := Edge.redirect p.next sink ds }

end Standing

/-- What stands in a scene. The opening checkpoint of a chapter is numbered last, and the body is behind it. -/
def Scene.standings (table : SymbolTable) (s : Scene) (n : Nat) : Set Standing :=
  bodyStandings table n [Edge.toSink] s.body ∪
    if s.chapter then {⟨n + (bodyOccurrences s.body).length, bodyStart n s.body, s.opening⟩} else ∅

variable {table : SymbolTable} {scene : String} {n : Nat} {next ds cs : List Edge} {p : Standing}

section Redirection

theorem redirect_flatten (groups : List (List Edge)) :
    Edge.redirect groups.flatten sink ds = (groups.map fun es => Edge.redirect es sink ds).flatten := by
  induction groups with
  | nil => rfl
  | cons es rest ih => rw [List.flatten_cons, Edge.redirect_append, ih, List.map_cons, List.flatten_cons]

theorem redirect_twice (es : List Edge) :
    Edge.redirect (Edge.redirect es sink ds) sink cs = Edge.redirect es sink (Edge.redirect ds sink cs) :=
  Edge.redirect_redirect fun _ _ hne => hne

theorem redirect_toSink (es : List Edge) : Edge.redirect es sink [Edge.toSink] = es :=
  Edge.redirect_self es sink

theorem redirect_number (m : Nat) (loop : Bool) : Edge.redirect [⟨m, loop⟩] sink ds = [⟨m, loop⟩] := by
  rw [Edge.redirect_cons, if_neg (natCast_ne_sink m)]
  rfl

theorem redirect_onward {kind : MenuKind} {prompt : Nat} {loop : Bool} :
    Edge.redirect (onward kind prompt loop next) sink ds =
      onward kind prompt loop (Edge.redirect next sink ds) := by
  unfold onward
  split
  · exact redirect_number prompt true
  · rfl

theorem redirect_entries (body : List Stmt) :
    Edge.redirect (entries n next body) sink ds = entries n (Edge.redirect next sink ds) body :=
  redirect_twice _

theorem entries_toSink (body : List Stmt) : entries n [Edge.toSink] body = bodyStart n body :=
  redirect_toSink _

theorem optionEntries_redirect {kind : MenuKind} {prompt : Nat} (options : List MenuOption) :
    optionEntries kind prompt n (Edge.redirect next sink ds) options =
      (optionEntries kind prompt n next options).map fun es => Edge.redirect es sink ds := by
  induction options generalizing n with
  | nil => rfl
  | cons o rest ih =>
    rw [optionEntries, optionEntries, List.map_cons, ih, redirect_entries, redirect_onward]

theorem caseEntries_redirect (cases : List BranchCase) :
    caseEntries n (Edge.redirect next sink ds) cases =
      (caseEntries n next cases).map fun es => Edge.redirect es sink ds := by
  induction cases generalizing n with
  | nil => rfl
  | cons c rest ih => rw [caseEntries, caseEntries, List.map_cons, ih, redirect_entries]

end Redirection

namespace Scene

variable {α β : Type} {name : String} {cases : List BranchCase}

theorem branchTargets_eq (bodies : List Graph) :
    branchTargets table name cases bodies = targets table name cases bodies := rfl

theorem owner?_map (f : α → β) (bodies : List α) (option : String) :
    owner? (cases.zip (bodies.map f)) option = (owner? (cases.zip bodies) option).map f := by
  rw [owner?, owner?, List.zip_map_right]
  simp only [List.find?_map, Function.comp_def, Prod.map_fst, id, Option.orElse_eq_or, ← Option.map_or,
    Option.map_map]
  rfl

theorem targets_map (f : α → β) (bodies : List α) :
    targets table name cases (bodies.map f) = (targets table name cases bodies).map f := by
  unfold targets
  split
  · rfl
  · simp only [owner?_map, List.map_filterMap]

end Scene

namespace Standing

theorem edges_onto : (p.onto ds).edges table = Edge.redirect (p.edges table) sink ds := by
  obtain ⟨number, next, stmt⟩ := p
  change stmt.edges table number (Edge.redirect next sink ds) =
    Edge.redirect (stmt.edges table number next) sink ds
  cases stmt with
  | plain => rfl
  | menu => rw [Stmt.edges, Stmt.edges, redirect_flatten, optionEntries_redirect]
  | branchOn => rw [Stmt.edges, Stmt.edges, redirect_flatten, caseEntries_redirect, Scene.targets_map]
  | ifElse => rfl

theorem onto_onto : (p.onto ds).onto cs = p.onto (Edge.redirect ds sink cs) := by
  rw [onto, onto, onto, redirect_twice]

theorem image_onto_toSink (P : Set Standing) : onto [Edge.toSink] '' P = P := by
  have same : onto [Edge.toSink] = id := funext fun p => by rw [onto, redirect_toSink, id]
  rw [same, Set.image_id]

end Standing

/-- What stands in front of something goes on along the edges by which that is entered, and nothing else
changes. -/
def Onto (table : SymbolTable) (x : Stmt) : Prop :=
  ∀ (n : Nat) (next ds : List Edge), x.standings table n (Edge.redirect next sink ds) =
    Standing.onto ds '' x.standings table n next

section Onto

theorem bodyStandings_onto_of {body : List Stmt} (hb : ∀ x ∈ body, Onto table x) :
    bodyStandings table n (Edge.redirect next sink ds) body =
      Standing.onto ds '' bodyStandings table n next body := by
  induction body generalizing n with
  | nil => rw [bodyStandings, bodyStandings, Set.image_empty]
  | cons x rest ih =>
    obtain ⟨hx, hrest⟩ := List.forall_mem_cons.1 hb
    rw [bodyStandings, bodyStandings, Set.image_union, ← hx, redirect_twice, ih hrest]

theorem optionStandings_onto {kind : MenuKind} {prompt : Nat} {options : List MenuOption}
    (hb : ∀ o ∈ options, ∀ x ∈ o.body, Onto table x) :
    optionStandings table kind prompt n (Edge.redirect next sink ds) options =
      Standing.onto ds '' optionStandings table kind prompt n next options := by
  induction options generalizing n with
  | nil => rw [optionStandings, optionStandings, Set.image_empty]
  | cons o rest ih =>
    obtain ⟨area, label, loop, body⟩ := o
    obtain ⟨hbody, hrest⟩ := List.forall_mem_cons.1 hb
    rw [optionStandings, optionStandings, Set.image_union, ← bodyStandings_onto_of hbody, redirect_onward,
      ih hrest]

theorem caseStandings_onto {entered : BranchCase → Prop} {cases : List BranchCase}
    (hb : ∀ c ∈ cases, ∀ x ∈ c.body, Onto table x) :
    caseStandings table entered n (Edge.redirect next sink ds) cases =
      Standing.onto ds '' caseStandings table entered n next cases := by
  induction cases generalizing n with
  | nil => rw [caseStandings, caseStandings, Set.image_empty]
  | cons c rest ih =>
    obtain ⟨area, options, other, body⟩ := c
    obtain ⟨hbody, hrest⟩ := List.forall_mem_cons.1 hb
    rw [caseStandings, caseStandings, Set.image_union, bodyStandings_onto_of hbody, ih hrest]
    congr 1
    ext p
    simp only [Set.mem_ofPred_eq, Set.mem_image, ← exists_and_right, and_right_comm]

theorem branchStandings_onto {branches : List IfBranch} (hb : ∀ b ∈ branches, ∀ x ∈ b.body, Onto table x) :
    branchStandings table n (Edge.redirect next sink ds) branches =
      Standing.onto ds '' branchStandings table n next branches := by
  induction branches generalizing n with
  | nil => rw [branchStandings, branchStandings, Set.image_empty]
  | cons b rest ih =>
    obtain ⟨condition, body⟩ := b
    obtain ⟨hbody, hrest⟩ := List.forall_mem_cons.1 hb
    rw [branchStandings, branchStandings, Set.image_union, bodyStandings_onto_of hbody, ih hrest]

theorem standings_onto (table : SymbolTable) : ∀ x, Onto table x := by
  refine Hereditary.stmt ⟨fun area action n next ds => ?_, fun area kind prompt options hb n next ds => ?_,
    fun area name cases hb n next ds => ?_, fun area branches hasElse elseBody hb he n next ds => ?_⟩
  · rw [Stmt.standings, Stmt.standings, Set.image_singleton]
    rfl
  · rw [Stmt.standings, Stmt.standings, Set.image_insert_eq, optionStandings_onto hb]
    rfl
  · rw [Stmt.standings, Stmt.standings, Set.image_insert_eq, caseStandings_onto hb]
    rfl
  · rw [Stmt.standings, Stmt.standings, Set.image_union, branchStandings_onto hb, bodyStandings_onto_of he]

theorem bodyStandings_onto (body : List Stmt) : bodyStandings table n (Edge.redirect next sink ds) body =
    Standing.onto ds '' bodyStandings table n next body :=
  bodyStandings_onto_of fun x _ => standings_onto table x

end Onto

namespace Flow.Graph

variable {a b g : Graph} {bs gs parts : List Graph} {P Q : Set Standing} {v : Vertex}

/-- The vertices of the graphs are those of the statements, with their edges. -/
def Laid (table : SymbolTable) (scene : String) (bs : List Graph) (P : Set Standing) : Prop :=
  ∀ id x, (∃ b ∈ bs, b.node? id = some x) ↔ ∃ p ∈ P, (p.number : Int) = id ∧ p.node table scene = x

theorem laid_nil : Laid table scene [] ∅ := by
  simp [Laid]

theorem laid_of_no_node (hn : ∀ id, b.node? id = none) : Laid table scene [b] ∅ := by
  simp [Laid, hn]

theorem Laid.append (h : Laid table scene bs P) (h' : Laid table scene gs Q) :
    Laid table scene (bs ++ gs) (P ∪ Q) := by
  intro id x
  simp only [List.mem_append, or_and_right, exists_or, Set.mem_union, h id x, h' id x]

theorem Laid.congr (h : Laid table scene bs P)
    (hc : ∀ id x, (∃ c ∈ gs, c.node? id = some x) ↔ ∃ b ∈ bs, b.node? id = some x) :
    Laid table scene gs P :=
  fun id x => (hc id x).trans (h id x)

theorem Laid.rewire (h : Laid table scene [a] P) (ha : a.WellFormed) (mark : Mark) :
    Laid table scene [rewire mark a ds] (Standing.onto ds '' P) := by
  intro id x
  have before : ∀ y, a.node? id = some y ↔ ∃ p ∈ P, (p.number : Int) = id ∧ p.node table scene = y := by
    intro y
    simpa using h id y
  simp only [List.mem_singleton, exists_eq_left, node?_rewire ha, Option.map_eq_some_iff, before]
  constructor
  · rintro ⟨y, ⟨p, hp, hid, rfl⟩, rfl⟩
    exact ⟨p.onto ds, ⟨p, hp, rfl⟩, hid, congrArg (Prod.mk _) Standing.edges_onto⟩
  · rintro ⟨_, ⟨p, hp, rfl⟩, hid, rfl⟩
    exact ⟨_, ⟨p, hp, hid, rfl⟩, congrArg (Prod.mk _) Standing.edges_onto.symm⟩

theorem Laid.follow {operation : Nat} (ha : Laid table scene [a] P) (hb : Laid table scene [b] Q)
    (h : a.append operation b = .ok g) (hw : a.WellFormed) (hab : a.Apart b) :
    Laid table scene [g] (Standing.onto b.start '' P ∪ Q) := by
  refine ((ha.rewire hw ⟨operation, false⟩).append hb).congr fun id x => ?_
  simp only [List.mem_singleton, exists_eq_left, List.mem_append, or_and_right, exists_or]
  rw [node?_append h hw, node?_rewire hw, Option.or_eq_some_iff, or_comm]
  refine or_congr_left (and_iff_right_of_imp fun hx => ?_)
  rw [Option.map_eq_some_iff] at hx
  obtain ⟨y, hy, -⟩ := hx
  exact node?_eq_none_iff.2 (hab id (has_iff.2 ⟨y, hy⟩))

theorem Laid.join (h : Laid table scene parts P) (hj : g.JoinOf parts) : Laid table scene [g] P := by
  refine h.congr fun id x => ?_
  simp [hj.nodes]

theorem Laid.hang {hi : Nat} (h : Laid table scene parts P)
    (hh : g.Hanging p.number hi (.ofStmt p.number (some p.stmt) scene) parts)
    (hp : p.edges table = g.edgesOf p.number) : Laid table scene [g] (insert p P) := by
  intro id x
  have own : g.node? p.number = some (p.node table scene) := by
    rw [Standing.node, hp, hh.hub.node, edgesOf_of_node? hh.hub.node]
  have others := h.join hh.join id x
  simp only [List.mem_singleton, exists_eq_left, node?_around, Set.exists_mem_insert] at others ⊢
  rw [← others]
  by_cases hid : id = p.number
  · subst hid
    simp [own, eq_comm]
  · rw [if_neg hid]
    exact (or_iff_right fun h => hid h.1.symm).symm

theorem start_forkOnto (h : forkOnto g bs = .ok a) :
    a.start = (bs.flatMap Graph.start).foldl addStart g.start := by
  induction bs generalizing g with
  | nil =>
    cases h
    rfl
  | cons b rest ih =>
    obtain ⟨nodes, -, h⟩ := ok_of_bind_ok h
    rw [ih h, List.flatMap_cons, List.foldl_append]

/-- Several graphs are entered one after the other, but straight out of them at most once. -/
theorem start_fork (hne : bs ≠ []) (h : fork bs = .ok a) :
    a.start = (bs.flatMap Graph.start).foldl addStart [] := by
  cases bs with
  | nil => exact absurd rfl hne
  | cons b rest => exact start_forkOnto h

end Flow.Graph

namespace Scene

/-- The graph of the statement is entered as the tree says, and under the rules it has the vertices that
stand in the statement. -/
def Lays (table : SymbolTable) (scene : String) (x : Stmt) : Prop :=
  ∀ s g s', x.graph table scene s = .ok (g, s') → g.start = x.start s.identities ∧
    (x.problems table scene = [] → Laid table scene [g] (x.standings table s.identities [Edge.toSink]))

theorem bodyGraph_lays {body : List Stmt} {g g' : Graph} {s s' : Supply} {lo : Nat} {q : Prop}
    {l : Language Stmt} {β : List Stmt → Stmt → Prop} (hb : ∀ x ∈ body, Lays table scene x)
    (hr : g.Renders lo s.identities q l β) (h : bodyGraph table scene g s body = .ok (g', s')) :
    g'.start = Edge.redirect g.start sink (bodyStart s.identities body) ∧
      (bodyProblems table scene body = [] → ∀ P, Laid table scene [g] P →
        Laid table scene [g'] (Standing.onto (bodyStart s.identities body) '' P ∪
          bodyStandings table s.identities [Edge.toSink] body)) := by
  induction body generalizing g s q l β with
  | nil =>
    rw [bodyGraph] at h
    cases h
    refine ⟨(redirect_toSink _).symm, fun _ P hP => ?_⟩
    rwa [bodyStandings, bodyStart, Standing.image_onto_toSink, Set.union_empty]
  | cons x rest ih =>
    rw [bodyGraph] at h
    obtain ⟨⟨b, s₁⟩, hx, h₁⟩ := ok_of_bind_ok h
    obtain ⟨⟨g₁, s₂⟩, ha, h₂⟩ := ok_of_bind_ok h₁
    obtain ⟨ha, hs⟩ := perform_ok ha
    obtain ⟨hfirst, hrest⟩ := List.forall_mem_cons.1 hb
    have hrx := rendered table scene x s b s₁ hx
    have apart := hr.taken.apart hrx.taken
    have hr₁ := hr.append hrx apart ⟨le_rfl, hr.le⟩ ⟨hrx.le, le_rfl⟩ ha
    rw [← hs] at hr₁
    obtain ⟨start, laid⟩ := hfirst s b s₁ hx
    obtain ⟨start', laid'⟩ := ih hrest hr₁ h₂
    have count : s₂.identities = s.identities + x.occurrences.length :=
      hs.trans (numbers table scene x s b s₁ hx).1
    rw [count] at start' laid'
    refine ⟨?_, fun hp P hP => ?_⟩
    · rw [start', start_append ha, start, redirect_twice, bodyStart]
    · rw [bodyProblems, List.append_eq_nil_iff] at hp
      have next := laid' hp.2 _ (hP.follow (laid hp.1) ha hr.whole.wf apart)
      -- what stands in the first statement goes on along the edges into the rest
      have first : x.standings table s.identities
          (Edge.redirect (bodyStart (s.identities + x.occurrences.length) rest) sink [Edge.toSink]) =
          Standing.onto (bodyStart (s.identities + x.occurrences.length) rest) ''
            x.standings table s.identities [Edge.toSink] := by
        rw [← standings_onto table x, redirect_toSink, Edge.toSink, Edge.redirect_single]
      have before : Standing.onto (bodyStart s.identities (x :: rest)) '' P =
          Standing.onto (bodyStart (s.identities + x.occurrences.length) rest) ''
            (Standing.onto b.start '' P) := by
        rw [Set.image_image, start, bodyStart]
        exact Set.image_congr fun p _ => Standing.onto_onto.symm
      rwa [bodyStandings, first, before, ← Set.union_assoc, ← Set.image_union]

theorem body_lays {body : List Stmt} {b : Graph} {s s' : Supply} (hb : ∀ x ∈ body, Lays table scene x)
    (h : bodyGraph table scene .empty s body = .ok (b, s')) :
    b.start = bodyStart s.identities body ∧ (bodyProblems table scene body = [] →
      Laid table scene [b] (bodyStandings table s.identities [Edge.toSink] body)) := by
  obtain ⟨start, laid⟩ := bodyGraph_lays hb (renders_empty _) h
  refine ⟨start.trans (Edge.redirect_single _ _), fun hp => ?_⟩
  have all := laid hp ∅ (laid_of_no_node (node?_of_isEmpty isEmpty_empty))
  rwa [Set.image_empty, Set.empty_union] at all

theorem plain_lays (area : TextArea) (action : Action) : Lays table scene (.plain area action) := by
  intro s g s' h
  rw [Stmt.graph] at h
  obtain ⟨hang, none, start⟩ := single_hanging (perform_ok h).1 rfl (by simp)
  refine ⟨hang.hub.start, fun _ => ?_⟩
  rw [Stmt.standings, ← insert_empty_eq]
  exact (laid_of_no_node none).hang (p := ⟨s.identities, _, .plain area action⟩) hang start.symm

section Menu

variable {kind : MenuKind} {prompt : Nat}

theorem option_lays (kind : MenuKind) (loop : Bool) (op prompt : Nat) {body : List Stmt} {c : Graph}
    {s s' : Supply} (hb : ∀ x ∈ body, Lays table scene x)
    (h : bodyGraph table scene .empty s body = .ok (c, s')) :
    (if loop && kind == .loopSwitch then c.loopTo op prompt else c).start =
        entries s.identities (onward kind prompt loop [Edge.toSink]) body ∧
      (bodyProblems table scene body = [] → Laid table scene
        [if loop && kind == .loopSwitch then c.loopTo op prompt else c]
        (bodyStandings table s.identities (onward kind prompt loop [Edge.toSink]) body)) := by
  obtain ⟨start, laid⟩ := body_lays hb h
  have hr := body_renders (fun x _ => rendered table scene x) h
  unfold onward
  split
  · refine ⟨by rw [entries, ← start]; rfl, fun hp => ?_⟩
    rw [← Edge.redirect_single sink [⟨prompt, true⟩], bodyStandings_onto]
    exact (laid hp).rewire hr.whole.wf ⟨op, false⟩
  · exact ⟨by rw [entries_toSink, start], laid⟩

theorem optionGraphs_lays {options : List MenuOption} {g g' : Graph} {v : Vertex} {s s' : Supply}
    {parts : List Graph} (hb : ∀ o ∈ options, ∀ x ∈ o.body, Lays table scene x)
    (hn : prompt < s.identities) (hg : g.Hanging prompt s.identities v parts)
    (h : optionGraphs table scene kind prompt g s options = .ok (g', s')) :
    g'.edgesOf prompt =
        g.edgesOf prompt ++ (optionEntries kind prompt s.identities [Edge.toSink] options).flatten ∧
      ∀ area, optionProblems table scene area kind options = [] → ∀ P, Laid table scene parts P →
        ∃ parts', g'.Hanging prompt s'.identities v parts' ∧ Laid table scene parts'
          (P ∪ optionStandings table kind prompt s.identities [Edge.toSink] options) := by
  induction options generalizing g s parts with
  | nil =>
    rw [optionGraphs] at h
    cases h
    refine ⟨(List.append_nil _).symm, fun _ _ P hP => ⟨parts, hg, ?_⟩⟩
    rwa [optionStandings, Set.union_empty]
  | cons o rest ih =>
    obtain ⟨area', label, loop, body⟩ := o
    rw [optionGraphs] at h
    obtain ⟨⟨c, s₁⟩, hbody, h₁⟩ := ok_of_bind_ok h
    obtain ⟨⟨b, s₂⟩, hloop, h₂⟩ := ok_of_bind_ok h₁
    obtain ⟨⟨g₁, s₃⟩, hattach, h₃⟩ := ok_of_bind_ok h₂
    obtain ⟨hloop, hs₂⟩ := perform_ok hloop
    obtain ⟨hattach, hs₃⟩ := perform_ok hattach
    cases hloop
    obtain ⟨hfirst, hrest⟩ := List.forall_mem_cons.1 hb
    obtain ⟨-, hg₁⟩ := option_hanging (fun x _ => shapes table scene x) hn hg hbody hattach
    obtain ⟨own, laid⟩ := option_lays kind loop s₁.operations prompt hfirst hbody
    obtain ⟨count, -⟩ := body_numbers (fun x _ => numbers table scene x) hbody
    have hs : s₃.identities = s₁.identities := hs₃.trans hs₂
    obtain ⟨edges, laid'⟩ := ih hrest (by omega) (hs ▸ hg₁) h₃
    rw [hs, count] at edges laid'
    constructor
    · obtain ⟨w, es, node, -, -, nodes, -⟩ := attach_ok hattach
      have attached : g₁.edgesOf prompt = g.edgesOf prompt ++ _ :=
        edgesOf_of_node? (by rw [nodes, if_pos rfl, edgesOf_of_node? node])
      rw [edges, attached, own, optionEntries, List.flatten_cons, List.append_assoc]
    · intro area hp P hP
      simp only [optionProblems, List.append_eq_nil_iff] at hp
      rw [optionStandings, ← Set.union_assoc]
      exact laid' area hp.2 _ (hP.append (laid hp.1.1.2))

theorem menu_lays (area : TextArea) (text : String) (options : List MenuOption)
    (hb : ∀ o ∈ options, ∀ x ∈ o.body, Lays table scene x) :
    Lays table scene (.menu area kind text options) := by
  intro s g s' h
  have shape := menu_hanging (fun o _ x _ => shapes table scene x) h
  obtain ⟨_, _, hang, -⟩ := shape
  obtain ⟨g₀, t, hs, hang₀, none, start, h⟩ := menu_cases h
  obtain ⟨edges, laid⟩ := optionGraphs_lays hb (by omega) (hs ▸ hang₀) h
  refine ⟨hang.hub.start, fun hp => ?_⟩
  obtain ⟨hne, hp⟩ := menu_lawful hp
  have bare : g₀.edgesOf s.identities = [] := by
    rw [if_neg hne] at start
    exact start
  obtain ⟨parts, hang, laid⟩ := laid area hp ∅ (laid_of_no_node none)
  rw [Set.empty_union, hs] at laid
  rw [bare, hs, List.nil_append] at edges
  exact laid.hang (p := ⟨s.identities, _, .menu area kind text options⟩) hang edges.symm

end Menu

section Branch

variable {name : String}

theorem case_laid {b : Graph} {P : Set Standing} (h : Laid table scene [b] P) (q : Prop) (id : VertexId)
    (x : Vertex × List Edge) : (q ∧ b.node? id = some x) ↔
      ∃ p ∈ {p ∈ P | q}, (p.number : Int) = id ∧ p.node table scene = x := by
  have all := h id x
  simp only [List.mem_singleton, exists_eq_left] at all
  rw [all]
  constructor
  · rintro ⟨hq, p, hp, hpx⟩
    exact ⟨p, ⟨hp, hq⟩, hpx⟩
  · rintro ⟨p, ⟨hp, hq⟩, hpx⟩
    exact ⟨hq, p, hp, hpx⟩

theorem cases_lay {cases : List BranchCase} {bs : List Graph} {s s' : Supply}
    (hb : ∀ c ∈ cases, ∀ x ∈ c.body, Lays table scene x)
    (h : bodyGraphs table scene s (cases.map BranchCase.body) = .ok (bs, s')) :
    bs.map Graph.start = caseEntries s.identities [Edge.toSink] cases ∧
      ((∀ c ∈ cases, bodyProblems table scene c.body = []) → ∀ (entered : BranchCase → Prop) id x,
        (∃ c b, (c, b) ∈ cases.zip bs ∧ entered c ∧ b.node? id = some x) ↔
          ∃ p ∈ caseStandings table entered s.identities [Edge.toSink] cases,
            (p.number : Int) = id ∧ p.node table scene = x) := by
  induction cases generalizing s bs with
  | nil =>
    cases h
    exact ⟨rfl, fun _ _ _ _ => by simp [caseStandings]⟩
  | cons c rest ih =>
    obtain ⟨area, options, other, body⟩ := c
    rw [List.map_cons, bodyGraphs] at h
    obtain ⟨⟨b, s₁⟩, hbody, h₁⟩ := ok_of_bind_ok h
    obtain ⟨⟨others, s₂⟩, hrest, h₂⟩ := ok_of_bind_ok h₁
    cases h₂
    obtain ⟨hfirst, hlater⟩ := List.forall_mem_cons.1 hb
    have hbody : bodyGraph table scene .empty s body = .ok (b, s₁) := hbody
    obtain ⟨start, laid⟩ := body_lays hfirst hbody
    obtain ⟨count, -⟩ := body_numbers (fun x _ => numbers table scene x) hbody
    obtain ⟨starts, laid'⟩ := ih hlater hrest
    rw [count] at starts laid'
    refine ⟨?_, fun hp entered id x => ?_⟩
    · rw [List.map_cons, caseEntries, starts, entries_toSink, start]
    · obtain ⟨hp, hlater⟩ := List.forall_mem_cons.1 hp
      have first := case_laid (laid hp) (entered ⟨area, options, other, body⟩) id x
      rw [caseStandings, List.zip_cons_cons]
      simp only [List.mem_cons, Prod.mk.injEq, or_and_right, exists_or, Set.mem_union,
        ← laid' hlater entered id x, ← first]
      refine or_congr_left ?_
      simp only [and_assoc, exists_and_left, exists_eq_left]

theorem branches_lay {branches : List IfBranch} {bs : List Graph} {s s' : Supply}
    (hb : ∀ b ∈ branches, ∀ x ∈ b.body, Lays table scene x)
    (h : bodyGraphs table scene s (branches.map IfBranch.body) = .ok (bs, s')) :
    bs.flatMap Graph.start = branchStarts s.identities branches ∧
      ((∀ b ∈ branches, bodyProblems table scene b.body = []) →
        Laid table scene bs (branchStandings table s.identities [Edge.toSink] branches)) := by
  induction branches generalizing s bs with
  | nil =>
    cases h
    exact ⟨rfl, fun _ => laid_nil⟩
  | cons b rest ih =>
    obtain ⟨condition, body⟩ := b
    rw [List.map_cons, bodyGraphs] at h
    obtain ⟨⟨b, s₁⟩, hbody, h₁⟩ := ok_of_bind_ok h
    obtain ⟨⟨others, s₂⟩, hrest, h₂⟩ := ok_of_bind_ok h₁
    cases h₂
    obtain ⟨hfirst, hlater⟩ := List.forall_mem_cons.1 hb
    have hbody : bodyGraph table scene .empty s body = .ok (b, s₁) := hbody
    obtain ⟨start, laid⟩ := body_lays hfirst hbody
    obtain ⟨count, -⟩ := body_numbers (fun x _ => numbers table scene x) hbody
    obtain ⟨starts, laid'⟩ := ih hlater hrest
    rw [count] at starts laid'
    refine ⟨by rw [List.flatMap_cons, starts, start, branchStarts], fun hp => ?_⟩
    obtain ⟨hp, hlater⟩ := List.forall_mem_cons.1 hp
    rw [branchStandings]
    exact (laid hp).append (laid' hlater)

theorem branchOn_lays (area : TextArea) (name : String) (cases : List BranchCase)
    (hb : ∀ c ∈ cases, ∀ x ∈ c.body, Lays table scene x) :
    Lays table scene (.branchOn area name cases) := by
  intro s g s' h
  obtain ⟨g₀, bs, t, t', hang, none, -, bodies, hbs, hs, -, edges⟩ :=
    branchOn_hanging (fun c _ x _ => shapes table scene x) h
  obtain ⟨starts, laid⟩ := cases_lay hb hbs
  rw [hs] at starts laid
  refine ⟨hang.hub.start, fun hp => ?_⟩
  rw [Stmt.problems] at hp
  simp only [List.append_eq_nil_iff] at hp
  obtain ⟨⟨hcases, hbodies⟩, hbranch⟩ := hp
  -- the parts that hang there are the bodies of the cases that are entered
  have parts : Laid table scene (branchTargets table name cases bs) (caseStandings table
      (BranchCase.Entered table name cases) (s.identities + 1) [Edge.toSink] cases) := by
    intro id x
    rw [← laid (caseBodyProblems_eq_nil hbodies) _ id x]
    simp only [mem_branchTargets bodies.length_eq hcases hbranch]
    constructor
    · rintro ⟨b, ⟨c, hz, he⟩, hx⟩
      exact ⟨c, b, hz, he, hx⟩
    · rintro ⟨c, b, hz, he, hx⟩
      exact ⟨b, ⟨c, hz, he⟩, hx⟩
  have all := (laid_of_no_node none).append parts
  rw [Set.empty_union] at all
  refine all.hang (p := ⟨s.identities, _, .branchOn area name cases⟩) hang ?_
  rw [edges, branchTargets_eq, List.flatMap_def, ← targets_map, starts]
  rfl

theorem ifElse_lays (area : TextArea) (branches : List IfBranch) (hasElse : Bool) (elseBody : List Stmt)
    (hb : ∀ b ∈ branches, ∀ x ∈ b.body, Lays table scene x) (he : ∀ x ∈ elseBody, Lays table scene x) :
    Lays table scene (.ifElse area branches hasElse elseBody) := by
  intro s g s' h
  obtain ⟨bs, last, t, join, -, -, -, hbs, t', hlast, -⟩ :=
    ifElse_join (fun b _ x _ => shapes table scene x) (fun x _ => shapes table scene x) h
  obtain ⟨starts, laid⟩ := branches_lay hb hbs
  obtain ⟨start, laid'⟩ := body_lays he hlast
  obtain ⟨count, -⟩ := bodyGraphs_numbers (fun _ _ x _ => numbers table scene x) hbs
  rw [← branchOccurrences_eq] at count
  rw [count] at start laid'
  constructor
  · rw [Stmt.graph, branchGraphs_eq, hbs] at h
    obtain ⟨⟨_, _⟩, heq, h⟩ := ok_of_bind_ok h
    cases heq
    obtain ⟨⟨_, _⟩, heq, h⟩ := ok_of_bind_ok h
    cases hlast.symm.trans heq
    rw [start_fork (by simp) (perform_ok h).1, List.flatMap_append, starts, List.flatMap_singleton, start,
      Stmt.start]
  · intro hp
    rw [Stmt.problems, List.append_eq_nil_iff] at hp
    rw [Stmt.standings]
    exact ((laid (branchBodyProblems_eq_nil hp.1)).append (laid' hp.2)).join join

end Branch

theorem lays (table : SymbolTable) (scene : String) : ∀ x, Lays table scene x :=
  Hereditary.stmt ⟨plain_lays, fun area _ => menu_lays area, branchOn_lays, ifElse_lays⟩

variable {s : Scene} {supply supply' : Supply} {g : Graph}

theorem draft_lays (h : s.draft table supply = .ok (g, supply')) (hp : s.problems table = []) :
    Laid table s.name [g] (s.standings table supply.identities) := by
  obtain ⟨b, t, hbody, hcases⟩ := draft_cases h
  obtain ⟨start, laid⟩ := body_lays (fun x _ => lays table s.name x) hbody
  have body := laid hp
  obtain ⟨count, -⟩ := body_numbers (fun x _ => numbers table s.name x) hbody
  unfold standings
  rcases hcases with ⟨hchapter, rfl, rfl⟩ | ⟨hchapter, first, t', operation, hfirst, happend, -⟩
  · rwa [if_neg hchapter, Set.union_empty]
  · have hrb := body_renders (fun x _ => rendered table s.name x) hbody
    have hrf := rendered table s.name _ _ _ _ hfirst
    obtain ⟨-, checkpoint⟩ := lays table s.name _ _ _ _ hfirst
    have both := (checkpoint rfl).follow body happend hrf.whole.wf (hrb.taken.apart hrf.taken).symm
    have front : Standing.onto b.start '' s.opening.standings table t.identities [Edge.toSink] =
        {⟨t.identities, b.start, s.opening⟩} := by
      rw [opening, Stmt.standings, Set.image_singleton, Standing.onto, Edge.toSink, Edge.redirect_single]
    rw [if_pos hchapter, Set.union_comm, ← count, ← start, ← front]
    exact both

/-- The graph of a scene that is built has the vertices of the statements that stand in the scene, with the
edges that the tree gives them. -/
theorem node?_of_build {built : Built} (h : s.build table supply = .ok built) (hg : built.graph = some g)
    (id : VertexId) (x : Vertex × List Edge) : g.node? id = some x ↔
      ∃ p ∈ s.standings table supply.identities, (p.number : Int) = id ∧ p.node table s.name = x := by
  obtain ⟨d, hd, ⟨hp, -, hb, -⟩ | ⟨-, hb, -⟩⟩ := build_cases h
  · cases hb.symm.trans hg
    simpa using draft_lays hd hp id x
  · cases hb.symm.trans hg

end Scene

end StoryFlow
