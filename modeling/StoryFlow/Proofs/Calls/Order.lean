import Mathlib.Data.List.Nodup
import StoryFlow.Proofs.Calls.Reach

/-! The walk over the calls as a relation. A scene that is open is on the path, and a scene on the path is
not visited again, so the visits never run out of depth and every scene is finished at most once. -/

namespace StoryFlow.CallGraph

def Progress.finish (p : Progress) (name : String) : Progress :=
  { p with finished := p.finished ++ [name] }

/-- The calls of the innermost open scene, followed one after the other: a finished callee is passed
over, an open one closes a cycle, and any other is walked itself. -/
inductive Follows (c : CallGraph) : List String → List CallSite → Progress → Progress → Prop
  | nil {path : List String} {p : Progress} : Follows c path [] p p
  | pass {path : List String} {site : CallSite} {rest : List CallSite} {p p' : Progress} :
      site.callee ∈ p.finished → Follows c path rest p p' → Follows c path (site :: rest) p p'
  | close {path : List String} {site : CallSite} {rest : List CallSite} {p p' : Progress} :
      site.callee ∈ path → Follows c path rest (addCycle p ⟨closed path site.callee, site⟩) p' →
      Follows c path (site :: rest) p p'
  | enter {path : List String} {site : CallSite} {rest : List CallSite} {p q p' : Progress} :
      site.callee ∉ p.finished → site.callee ∉ path →
      Follows c (site.callee :: path) (c.sites site.callee) p q →
      Follows c path rest (q.finish site.callee) p' → Follows c path (site :: rest) p p'

variable {c : CallGraph} {path outer : List String} {name : String} {p p' q : Progress}
  {site : CallSite} {sites rest : List CallSite}

theorem calls_of_mem_sites (h : site ∈ c.sites name) : c.Calls name site.callee :=
  List.mem_map_of_mem h

/-- The open scenes are distinct, so the visits never run out of depth. -/
theorem visit_follows {depth : Nat} (hc : c.Declared) (hd : c.scenes.length ≤ depth + outer.length)
    (hn : (name :: outer).Nodup) (hs : name :: outer ⊆ c.names) :
    ∃ q, Follows c (name :: outer) (c.sites name) p q ∧ c.visit depth outer name p = q.finish name := by
  induction depth generalizing outer name p with
  | zero =>
    have hle := (List.subperm_of_subset hn hs).length_le
    rw [names, List.length_map, List.length_cons] at hle
    omega
  | succ depth ih =>
    refine ⟨_, ?_, rfl⟩
    have calls : ∀ (sites : List CallSite) (p : Progress), sites ⊆ c.sites name →
        Follows c (name :: outer) sites p (sites.foldl (fun p site =>
          if p.finished.contains site.callee then p
          else if (name :: outer).contains site.callee then
            addCycle p ⟨closed (name :: outer) site.callee, site⟩
          else visit c depth (name :: outer) site.callee p) p) := by
      intro sites
      induction sites with
      | nil => exact fun _ _ => .nil
      | cons site rest next =>
        intro p hsites
        obtain ⟨hsite, hrest⟩ := List.cons_subset.1 hsites
        rw [List.foldl_cons]
        split <;> rename_i hfin
        · exact .pass (by simpa using hfin) (next p hrest)
        · split <;> rename_i hopen
          · exact .close (by simpa using hopen) (next _ hrest)
          · have hout : site.callee ∉ name :: outer := by simpa using hopen
            have hcallee := hc _ _ (calls_of_mem_sites hsite)
            obtain ⟨q, hq, heq⟩ := @ih (name :: outer) site.callee p
              (by rw [List.length_cons]; omega) (List.nodup_cons.2 ⟨hout, hn⟩)
              (List.cons_subset.2 ⟨hcallee, hs⟩)
            rw [heq]
            exact .enter (by simpa using hfin) hout hq (next _ hrest)
    exact calls _ _ (List.Subset.refl _)

def walkWithin (c : CallGraph) (depth : Nat) : Progress :=
  c.names.foldl (fun p name =>
    if p.finished.contains name then p else c.visit depth [] name p) {}

theorem walkWithin_follows {depth : Nat} (hc : c.Declared) (hd : c.scenes.length ≤ depth) :
    Follows c [] (c.names.map (⟨"", ·, {}⟩)) {} (c.walkWithin depth) := by
  have scenes : ∀ (names : List String) (p : Progress), names ⊆ c.names →
      Follows c [] (names.map (⟨"", ·, {}⟩)) p (names.foldl (fun p name =>
        if p.finished.contains name then p else c.visit depth [] name p) p) := by
    intro names
    induction names with
    | nil => exact fun _ _ => .nil
    | cons name rest next =>
      intro p hnames
      obtain ⟨hname, hrest⟩ := List.cons_subset.1 hnames
      rw [List.foldl_cons]
      split <;> rename_i hfin
      · exact .pass (by simpa using hfin) (next p hrest)
      · obtain ⟨q, hq, heq⟩ := visit_follows (p := p) hc (Nat.le_add_right_of_le hd)
          (List.nodup_singleton name) (by simpa using hname)
        rw [heq]
        exact .enter (by simpa using hfin) (by simp) hq (next _ hrest)
  exact scenes c.names {} (List.Subset.refl _)

theorem walk_follows (hc : c.Declared) : Follows c [] (c.names.map (⟨"", ·, {}⟩)) {} c.walk :=
  walkWithin_follows hc le_rfl

theorem finished_addCycle (p : Progress) (cycle : CallCycle) :
    (addCycle p cycle).finished = p.finished := by
  unfold addCycle
  split <;> rfl

theorem cycles_subset_addCycle {cycle : CallCycle} : p.cycles ⊆ (addCycle p cycle).cycles := by
  unfold addCycle
  split
  · exact List.Subset.refl _
  · exact List.subset_append_left _ _

theorem Follows.extends (h : Follows c path sites p p') :
    p.finished ⊆ p'.finished ∧ p.cycles ⊆ p'.cycles := by
  induction h with
  | nil => exact ⟨List.Subset.refl _, List.Subset.refl _⟩
  | pass _ _ ih => exact ih
  | close _ _ ih =>
    rw [finished_addCycle] at ih
    exact ⟨ih.1, List.Subset.trans cycles_subset_addCycle ih.2⟩
  | enter _ _ _ _ inner next =>
    refine ⟨fun x hx => next.1 (List.mem_append_left _ (inner.1 hx)), ?_⟩
    exact List.Subset.trans inner.2 next.2

structure Settled (path : List String) (p : Progress) : Prop where
  distinct : p.finished.Nodup
  notOpen : ∀ name ∈ path, name ∉ p.finished

theorem Settled.finish (h : Settled (name :: path) p) (hn : name ∉ path) :
    Settled path (p.finish name) := by
  obtain ⟨hname, hpath⟩ := List.forall_mem_cons.1 h.notOpen
  refine ⟨?_, fun other hm hin => ?_⟩
  · refine List.nodup_append.2 ⟨h.distinct, List.nodup_singleton _, ?_⟩
    intro x hx y hy hxy
    rw [List.mem_singleton.1 hy] at hxy
    exact hname (hxy ▸ hx)
  · rcases List.mem_append.1 hin with hin | hin
    · exact hpath other hm hin
    · exact hn (List.mem_singleton.1 hin ▸ hm)

theorem Settled.addCycle (h : Settled path p) (cycle : CallCycle) :
    Settled path (CallGraph.addCycle p cycle) := by
  constructor
  · rw [finished_addCycle]
    exact h.distinct
  · rw [finished_addCycle]
    exact h.notOpen

theorem Follows.settled (h : Follows c path sites p p') (hp : Settled path p) : Settled path p' := by
  induction h with
  | nil => exact hp
  | pass _ _ ih => exact ih hp
  | close _ _ ih => exact ih (hp.addCycle _)
  | enter hnew hout _ _ inner next =>
    have opened := inner ⟨hp.distinct, List.forall_mem_cons.2 ⟨hnew, hp.notOpen⟩⟩
    exact next (opened.finish hout)

theorem nodup_finished_walk (hc : c.Declared) : c.walk.finished.Nodup :=
  ((walk_follows hc).settled ⟨List.nodup_nil, by simp⟩).distinct

end StoryFlow.CallGraph
