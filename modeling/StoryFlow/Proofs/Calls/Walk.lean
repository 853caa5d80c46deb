import Mathlib.Data.List.Chain
import StoryFlow.Proofs.Calls.Cycles

/-! The walk over the calls is a depth-first search. No visit is cut short, every scene is finished once,
and what is reported are simple cycles, each list of names once. The walk reports nothing just when the
calls have no cycle, and then it has finished every scene behind the scenes that it calls. -/

namespace StoryFlow.CallGraph

open Relation

variable {c : CallGraph} {path outer finished l r : List String} {name : String} {p p' q q' : Progress}
  {site : CallSite} {sites : List CallSite} {cycle : CallCycle}

/-- A scene is finished, open or neither, so the calls can be followed in one way only. -/
theorem Follows.unique (h : Follows c path sites p q) (h' : Follows c path sites p q')
    (hp : Settled path p) : q = q' := by
  induction h generalizing q' with
  | nil =>
    cases h'
    rfl
  | pass hfin _ ih =>
    cases h' with
    | pass _ hrest => exact ih hrest hp
    | close hopen _ => exact absurd hfin (hp.notOpen _ hopen)
    | enter hnew _ _ _ => exact absurd hfin hnew
  | close hopen _ ih =>
    cases h' with
    | pass hfin _ => exact absurd hfin (hp.notOpen _ hopen)
    | close _ hrest => exact ih hrest (hp.addCycle _)
    | enter _ hout _ _ => exact absurd hopen hout
  | enter hnew hout hinner _ inner next =>
    cases h' with
    | pass hfin _ => exact absurd hfin hnew
    | close hopen _ => exact absurd hopen hout
    | enter _ _ hinner' hrest' =>
      have opened : Settled _ _ := ⟨hp.distinct, List.forall_mem_cons.2 ⟨hnew, hp.notOpen⟩⟩
      cases inner hinner' opened
      exact next hrest' ((hinner.settled opened).finish hout)

theorem settled_start : Settled [] {} := ⟨List.nodup_nil, by simp⟩

theorem walkWithin_eq {depth : Nat} (hc : c.Declared) (hd : c.scenes.length ≤ depth) :
    c.walkWithin depth = c.walk :=
  (walkWithin_follows hc hd).unique (walk_follows hc) settled_start

theorem Follows.within (h : Follows c path sites p p') (hc : c.Declared)
    (hs : ∀ site ∈ sites, site.callee ∈ c.names) (hp : p.finished ⊆ c.names) :
    p'.finished ⊆ c.names := by
  induction h with
  | nil => exact hp
  | pass _ _ ih => exact ih (List.forall_mem_cons.1 hs).2 hp
  | close _ _ ih =>
    apply ih (List.forall_mem_cons.1 hs).2
    rw [finished_addCycle]
    exact hp
  | enter _ _ _ _ inner next =>
    obtain ⟨hsite, hs⟩ := List.forall_mem_cons.1 hs
    have opened := inner (fun call hcall => hc _ _ (calls_of_mem_sites hcall)) hp
    apply next hs
    exact List.append_subset.2 ⟨opened, by simpa using hsite⟩

theorem Follows.covers (h : Follows c path sites p p') :
    ∀ site ∈ sites, site.callee ∈ p'.finished ∨ site.callee ∈ path := by
  induction h with
  | nil => simp
  | pass hfin hrest ih => exact List.forall_mem_cons.2 ⟨Or.inl (hrest.extends.1 hfin), ih⟩
  | close hopen _ ih => exact List.forall_mem_cons.2 ⟨Or.inr hopen, ih⟩
  | enter _ _ _ hrest _ next =>
    refine List.forall_mem_cons.2 ⟨Or.inl (hrest.extends.1 ?_), next⟩
    exact List.mem_append_right _ List.mem_cons_self

theorem finished_walk_perm (hd : c.names.Nodup) (hc : c.Declared) : c.walk.finished.Perm c.names := by
  have follows := walk_follows hc
  rw [List.perm_ext_iff_of_nodup (nodup_finished_walk hc) hd]
  intro name
  constructor
  · intro hfin
    exact follows.within hc (by simp) (by simp) hfin
  · intro hname
    have hcovered := follows.covers _ (List.mem_map_of_mem hname)
    exact hcovered.resolve_right List.not_mem_nil

/-- A cycle of calls: it ends with its first name, the names up to there are distinct, each of them calls
the next one, and the site is the call of the last of them that leads back to the first. -/
def SimpleCycle (c : CallGraph) (cycle : CallCycle) : Prop :=
  ∃ first between, cycle.names = first :: between ++ [first] ∧ (first :: between).Nodup ∧
    cycle.names.IsChain c.Calls ∧ cycle.site.callee = first ∧
    ∃ last, (first :: between).getLast? = some last ∧ cycle.site ∈ c.sites last

theorem SimpleCycle.cyclic (h : c.SimpleCycle cycle) : ∃ name, TransGen c.Calls name name := by
  obtain ⟨first, between, hnames, -, hchain, -⟩ := h
  rw [hnames] at hchain
  have apart : (first :: between ++ [first]).Pairwise (TransGen c.Calls) :=
    (hchain.imp fun _ _ => TransGen.single).pairwise
  exact ⟨first, (List.pairwise_append.1 apart).2.2 first List.mem_cons_self first List.mem_cons_self⟩

structure Nested (c : CallGraph) (path : List String) : Prop where
  distinct : path.Nodup
  calls : path.IsChain fun inner outer => c.Calls outer inner

theorem Nested.enter (h : Nested c path) (hout : site.callee ∉ path)
    (hs : ∀ name ∈ path.head?, site ∈ c.sites name) : Nested c (site.callee :: path) := by
  refine ⟨List.nodup_cons.2 ⟨hout, h.distinct⟩, ?_⟩
  exact List.isChain_cons.2 ⟨fun name hname => calls_of_mem_sites (hs name hname), h.calls⟩

/-- What a call back to an open scene closes is a simple cycle: the open scenes from there on were opened
one from the other, and the innermost one is the caller. -/
theorem Nested.simpleCycle (h : Nested c (name :: outer)) (hsite : site ∈ c.sites name)
    (hopen : site.callee ∈ name :: outer) :
    c.SimpleCycle ⟨closed (name :: outer) site.callee, site⟩ := by
  obtain ⟨inner, above, heq, hno⟩ := List.eq_append_cons_of_mem hopen
  have last : (site.callee :: inner.reverse).getLast? = some name := by
    cases inner with
    | nil =>
      cases heq
      rfl
    | cons x rest =>
      cases heq
      simp [List.getLast?_cons]
  have part : Nested c (inner ++ [site.callee]) := by
    rw [heq, List.append_cons] at h
    exact ⟨(List.nodup_append.1 h.distinct).1, h.calls.left_of_append⟩
  have round : (site.callee :: inner.reverse).IsChain c.Calls := by
    have back := List.isChain_reverse.2 part.calls
    simpa using back
  refine ⟨site.callee, inner.reverse, heq ▸ closed_eq hno, ?_, ?_, rfl, name, last, hsite⟩
  · have distinct := List.nodup_reverse.2 part.distinct
    simpa using distinct
  · rw [heq, closed_eq hno]
    refine List.isChain_append.2 ⟨round, List.isChain_singleton _, fun x hx y hy => ?_⟩
    cases last.symm.trans hx
    cases hy
    exact calls_of_mem_sites hsite

structure Reported (c : CallGraph) (cycles : List CallCycle) : Prop where
  simple : ∀ cycle ∈ cycles, c.SimpleCycle cycle
  distinct : (cycles.map CallCycle.names).Nodup

theorem Reported.addCycle (h : Reported c p.cycles) (hcycle : c.SimpleCycle cycle) :
    Reported c (addCycle p cycle).cycles := by
  by_cases hknown : p.cycles.any (fun known => cycleKey known == cycleKey cycle)
  · rw [CallGraph.addCycle, if_pos hknown]
    exact h
  · -- equal names would have equal keys
    have fresh : cycle.names ∉ p.cycles.map CallCycle.names := by
      intro hm
      obtain ⟨known, hk, hnames⟩ := List.mem_map.1 hm
      apply hknown
      exact List.any_eq_true.2 ⟨known, hk, by simp [cycleKey, hnames]⟩
    rw [CallGraph.addCycle, if_neg hknown]
    constructor
    · intro known hk
      rcases List.mem_append.1 hk with hk | hk
      · exact h.simple known hk
      · exact List.mem_singleton.1 hk ▸ hcycle
    · rw [List.map_append, List.map_singleton, ← List.concat_eq_append]
      exact h.distinct.concat fresh

theorem Follows.reported (h : Follows c path sites p p') (hpath : Nested c path)
    (hs : ∀ site ∈ sites, ∀ name ∈ path.head?, site ∈ c.sites name) (hp : Reported c p.cycles) :
    Reported c p'.cycles := by
  induction h with
  | nil => exact hp
  | pass _ _ ih => exact ih hpath (List.forall_mem_cons.1 hs).2 hp
  | @close path site rest p p' hopen _ ih =>
    obtain ⟨hsite, hs⟩ := List.forall_mem_cons.1 hs
    obtain ⟨name, outer, rfl⟩ := List.exists_cons_of_ne_nil (List.ne_nil_of_mem hopen)
    exact ih hpath hs (hp.addCycle (hpath.simpleCycle (hsite name rfl) hopen))
  | @enter path site rest p q p' _ hout _ _ inner next =>
    obtain ⟨hsite, hs⟩ := List.forall_mem_cons.1 hs
    have own : ∀ call ∈ c.sites site.callee, ∀ name ∈ (site.callee :: path).head?,
        call ∈ c.sites name := by
      rintro call hcall name ⟨⟩
      exact hcall
    exact next hpath hs (inner (hpath.enter hout hsite) own hp)

theorem reported_walk (hc : c.Declared) : Reported c c.walk.cycles :=
  (walk_follows hc).reported ⟨List.nodup_nil, List.isChain_nil⟩ (by simp) ⟨by simp, by simp⟩

def CalleesFirst (c : CallGraph) (finished : List String) : Prop :=
  ∀ l name r, finished = l ++ name :: r → ∀ callee, c.Calls name callee → callee ∈ l

theorem CalleesFirst.trans (h : CalleesFirst c finished) (heq : finished = l ++ name :: r) {x : String}
    (hx : TransGen c.Calls name x) : x ∈ l := by
  induction hx with
  | single hcall => exact h l name r heq _ hcall
  | tail _ hcall ih =>
    obtain ⟨l₁, l₂, rfl⟩ := List.append_of_mem ih
    rw [List.append_assoc, List.cons_append] at heq
    exact List.mem_append_left _ (h l₁ _ _ heq _ hcall)

theorem addCycle_ne_nil (p : Progress) (cycle : CallCycle) : (addCycle p cycle).cycles ≠ [] := by
  obtain ⟨known, hk, -⟩ := exists_key_addCycle p cycle
  exact List.ne_nil_of_mem hk

theorem Follows.calleesFirst (h : Follows c path sites p p') (hno : p'.cycles = [])
    (hp : CalleesFirst c p.finished) :
    CalleesFirst c p'.finished ∧ ∀ site ∈ sites, site.callee ∈ p'.finished := by
  induction h with
  | nil => exact ⟨hp, by simp⟩
  | pass hfin hrest ih =>
    obtain ⟨first, hs⟩ := ih hno hp
    exact ⟨first, List.forall_mem_cons.2 ⟨hrest.extends.1 hfin, hs⟩⟩
  | close _ hrest _ =>
    exact absurd (List.eq_nil_of_subset_nil (hno ▸ hrest.extends.2)) (addCycle_ne_nil _ _)
  | @enter path site rest p q p' _ _ hinner hrest inner next =>
    have hq : q.cycles = [] := List.eq_nil_of_subset_nil (hno ▸ hrest.extends.2)
    obtain ⟨first, hcalls⟩ := inner hq hp
    have finished : CalleesFirst c (q.finish site.callee).finished := by
      intro l other r heq callee hcall
      have snoc := earlier_snoc (fun _ => False) (fun l other r heq callee hcall =>
        Or.inl (first l other r heq callee hcall)) fun call hcall => Or.inl (hcalls call hcall)
      exact (snoc l other r heq callee hcall).resolve_right id
    obtain ⟨first, hs⟩ := next hno finished
    refine ⟨first, List.forall_mem_cons.2 ⟨hrest.extends.1 ?_, hs⟩⟩
    exact List.mem_append_right _ List.mem_cons_self

theorem calleesFirst_walk (hc : c.Declared) (hno : c.walk.cycles = []) :
    CalleesFirst c c.walk.finished :=
  ((walk_follows hc).calleesFirst hno fun l name r heq => by simp at heq).1

theorem cycles_walk_eq_nil_iff (hd : c.names.Nodup) (hc : c.Declared) :
    c.walk.cycles = [] ↔ ∀ name, ¬TransGen c.Calls name name := by
  constructor
  · intro hno name hcyc
    have hfin := (finished_walk_perm hd hc).mem_iff.2 (mem_names_of_cyclic hc hcyc)
    obtain ⟨l, r, heq⟩ := List.append_of_mem hfin
    -- a scene on a cycle would be finished before itself
    have early : name ∈ l := (calleesFirst_walk hc hno).trans heq hcyc
    have distinct : (l ++ name :: r).Nodup := heq ▸ nodup_finished_walk hc
    exact (List.nodup_append.1 distinct).2.2 name early name List.mem_cons_self rfl
  · intro hacyclic
    by_contra hne
    obtain ⟨cycle, hcycle⟩ := List.exists_mem_of_ne_nil _ hne
    obtain ⟨name, hcyc⟩ := ((reported_walk hc).simple cycle hcycle).cyclic
    exact hacyclic name hcyc

/-- The walk is a depth-first search of the calls. -/
theorem walk_searches (hd : c.names.Nodup) (hc : c.Declared) :
    (∀ depth, c.scenes.length ≤ depth → c.walkWithin depth = c.walk) ∧
    c.walk.finished.Perm c.names ∧
    (c.walk.cycles = [] ↔ ∀ name, ¬TransGen c.Calls name name) ∧
    (∀ cycle ∈ c.walk.cycles, c.SimpleCycle cycle) ∧
    (c.walk.cycles.map CallCycle.names).Nodup ∧
    ((∀ name, ¬TransGen c.Calls name name) → CalleesFirst c c.walk.finished) := by
  have acyclic := cycles_walk_eq_nil_iff hd hc
  have reported := reported_walk hc
  refine ⟨fun depth => walkWithin_eq hc, finished_walk_perm hd hc, acyclic, reported.simple,
    reported.distinct, fun hacyclic => ?_⟩
  exact calleesFirst_walk hc (acyclic.2 hacyclic)

/-- Two rings that share their scenes, a scene that calls itself, a scene that is called twice, and one that
nobody calls. -/
def roundabout : Story where
  scenes := [
    ⟨{}, "home", false, [.plain {} (.call "road"), .plain {} (.call "road"), .plain {} (.call "home")]⟩,
    ⟨{}, "road", false, [.plain {} (.call "inn")]⟩,
    ⟨{}, "inn", false, [.plain {} (.call "road"), .plain {} (.call "attic"), .plain {} (.call "home")]⟩,
    ⟨{}, "attic", false, []⟩,
    ⟨{}, "cellar", false, [.plain {} (.call "attic")]⟩]

theorem walk_searches_roundabout : roundabout.callGraph.names.Nodup ∧ roundabout.callGraph.Declared ∧
    roundabout.callGraph.walk.cycles.map CallCycle.names =
      [["road", "inn", "road"], ["home", "road", "inn", "home"], ["home", "home"]] ∧
    (∀ cycle ∈ roundabout.callGraph.walk.cycles, roundabout.callGraph.SimpleCycle cycle) ∧
    roundabout.callGraph.walk.finished.Perm roundabout.callGraph.names ∧
    ¬∀ name, ¬TransGen roundabout.callGraph.Calls name name := by
  have distinct : roundabout.callGraph.names.Nodup := by decide
  obtain ⟨-, perm, acyclic, simple, -, -⟩ := walk_searches distinct Story.declared_callGraph
  have found : roundabout.callGraph.walk.cycles.map CallCycle.names =
      [["road", "inn", "road"], ["home", "road", "inn", "home"], ["home", "home"]] := by decide +kernel
  refine ⟨distinct, Story.declared_callGraph, found, simple, perm, fun hno => ?_⟩
  rw [acyclic.2 hno] at found
  cases found

end StoryFlow.CallGraph
