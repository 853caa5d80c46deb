import Mathlib.Data.List.Perm.Subperm
import Mathlib.Logic.Relation
import StoryFlow.Calls.CallGraph
import StoryFlow.Proofs.Flow.Neighbors

/-! The scenes that the closure collects are those that the calls lead to. A round that finds nothing
closes what is known, and a round that finds something uses up one of the finitely many scenes. -/

namespace StoryFlow

open Relation

section Closure

variable {α : Type} [BEq α] [LawfulBEq α] {next : α → List α} {all known frontier start l : List α}

theorem nodup_fresh : (fresh known l).Nodup := by
  induction l generalizing known with
  | nil => exact List.nodup_nil
  | cons a rest ih =>
    unfold fresh
    split
    · exact ih
    · refine List.nodup_cons.2 ⟨fun hm => ?_, ih⟩
      exact (mem_fresh.1 hm).2 List.mem_cons_self

/-- What is known lies among finitely many places, and only the frontier may lead out of it. -/
structure Spreading (next : α → List α) (all known frontier : List α) : Prop where
  distinct : known.Nodup
  within : known ⊆ all
  inside : frontier ⊆ known
  closed : ∀ x ∈ known, x ∉ frontier → next x ⊆ known

theorem Spreading.grow (h : Spreading next all known frontier) (ha : ∀ x ∈ all, next x ⊆ all) :
    Spreading next all (known ++ fresh known (frontier.flatMap next))
      (fresh known (frontier.flatMap next)) where
  distinct := by
    refine List.nodup_append.2 ⟨h.distinct, nodup_fresh, fun x hx y hy hxy => ?_⟩
    exact (mem_fresh.1 (hxy ▸ hy)).2 hx
  within := by
    intro y hy
    rcases List.mem_append.1 hy with hy | hy
    · exact h.within hy
    · obtain ⟨x, hx, hxy⟩ := List.mem_flatMap.1 (mem_fresh.1 hy).1
      exact ha x (h.within (h.inside hx)) hxy
  inside := List.subset_append_right _ _
  closed := by
    intro x hx hnew y hy
    have hx := (List.mem_append.1 hx).resolve_right hnew
    by_cases hyk : y ∈ known
    · exact List.mem_append_left _ hyk
    · have hxf : x ∈ frontier := by
        by_contra hno
        exact hyk (h.closed x hx hno hy)
      exact List.mem_append_right _ (mem_fresh.2 ⟨List.mem_flatMap.2 ⟨x, hxf, hy⟩, hyk⟩)

/-- With a round for every place that is not known yet, nothing is left out. -/
theorem closeOver_closed {rounds : Nat} (h : Spreading next all known frontier)
    (ha : ∀ x ∈ all, next x ⊆ all) (hr : all.length < rounds + known.length) :
    known ⊆ closeOver next rounds known frontier ∧
      ∀ x ∈ closeOver next rounds known frontier, next x ⊆ closeOver next rounds known frontier := by
  induction rounds generalizing known frontier with
  | zero =>
    have hle := (List.subperm_of_subset h.distinct h.within).length_le
    omega
  | succ rounds ih =>
    have grown := h.grow ha
    unfold closeOver
    split <;> rename_i hfound
    · rw [hfound, List.append_nil] at grown
      exact ⟨List.Subset.refl _, fun x hx => grown.closed x hx (by simp)⟩
    · have hpos : 0 < (fresh known (frontier.flatMap next)).length := by
        rw [List.length_pos_iff]
        exact hfound
      obtain ⟨hk, hc⟩ := ih grown (by rw [List.length_append]; omega)
      exact ⟨fun x hx => hk (List.mem_append_left _ hx), hc⟩

theorem exists_of_mem_closeOver {rounds : Nat} (hf : frontier ⊆ known) {y : α}
    (hy : y ∈ closeOver next rounds known frontier) :
    ∃ x ∈ known, ReflTransGen (fun a b => b ∈ next a) x y := by
  induction rounds generalizing known frontier with
  | zero => exact ⟨y, hy, .refl⟩
  | succ rounds ih =>
    unfold closeOver at hy
    split at hy
    · exact ⟨y, hy, .refl⟩
    · obtain ⟨x, hx, hxy⟩ := ih (List.subset_append_right _ _) hy
      rcases List.mem_append.1 hx with hx | hx
      · exact ⟨x, hx, hxy⟩
      · obtain ⟨z, hz, hzx⟩ := List.mem_flatMap.1 (mem_fresh.1 hx).1
        exact ⟨z, hf hz, .head hzx hxy⟩

theorem mem_reachableFrom_iff {rounds : Nat} (ha : ∀ x ∈ all, next x ⊆ all) (hs : start ⊆ all)
    (hr : all.length < rounds) {y : α} : y ∈ reachableFrom next rounds start ↔
      ∃ x ∈ start, ReflTransGen (fun a b => b ∈ next a) x y := by
  constructor
  · intro hy
    obtain ⟨x, hx, hxy⟩ := exists_of_mem_closeOver (List.Subset.refl _) hy
    exact ⟨x, (mem_fresh.1 hx).1, hxy⟩
  · rintro ⟨x, hx, hxy⟩
    have first : Spreading next all (fresh [] start) (fresh [] start) :=
      ⟨nodup_fresh, fun y hy => hs (mem_fresh.1 hy).1, List.Subset.refl _,
        fun y hy hno => absurd hy hno⟩
    obtain ⟨hk, hc⟩ := closeOver_closed first ha (Nat.lt_add_right _ hr)
    induction hxy with
    | refl => exact hk (mem_fresh.2 ⟨hx, by simp⟩)
    | tail _ hstep ih => exact hc _ ih hstep

end Closure

namespace CallGraph

variable {c : CallGraph}

def Calls (c : CallGraph) (a b : String) : Prop := b ∈ c.callees a

def Declared (c : CallGraph) : Prop := ∀ a b, c.Calls a b → b ∈ c.names

theorem mem_reachable_iff (hc : c.Declared) {a b : String} (ha : a ∈ c.names) :
    b ∈ c.reachable a ↔ ReflTransGen c.Calls a b := by
  have all : ∀ x ∈ c.names, c.callees x ⊆ c.names := fun x _ y hy => hc x y hy
  have size : c.names.length < c.scenes.length + 1 := by
    rw [names, List.length_map]
    omega
  rw [reachable, mem_reachableFrom_iff all (by simpa using ha) size]
  simp only [List.mem_singleton, exists_eq_left]
  rfl

end CallGraph

namespace Story

variable {story : Story}

theorem mem_of_scene? {name : String} {s : Scene} (h : story.scene? name = some s) :
    s ∈ story.scenes ∧ s.name = name :=
  ⟨List.mem_of_find?_eq_some h, by simpa using List.find?_some h⟩

theorem mem_of_entryScene? {s : Scene} (h : story.entryScene? = some s) : s ∈ story.scenes := by
  unfold entryScene? at h
  split at h
  · exact List.mem_of_head? h
  · exact (mem_of_scene? h).1

def Calls (story : Story) (a b : String) : Prop :=
  ∃ s, story.scene? a = some s ∧ (∃ call ∈ s.calls, call.scene = b) ∧ (story.scene? b).isSome = true

theorem sites_callGraph (name : String) :
    story.callGraph.sites name = ((story.scene? name).map story.callSites).getD [] := by
  rw [CallGraph.sites, callGraph, List.find?_map, Option.map_map]
  rfl

theorem callGraph_calls : story.callGraph.Calls = story.Calls := by
  funext a b
  apply propext
  rw [CallGraph.Calls, CallGraph.callees, sites_callGraph, Calls]
  constructor
  · intro h
    obtain ⟨site, hsite, rfl⟩ := List.mem_map.1 h
    cases hs : story.scene? a with
    | none =>
      rw [hs] at hsite
      cases hsite
    | some s =>
      rw [hs] at hsite
      obtain ⟨call, hcall, rfl⟩ := List.mem_map.1 hsite
      obtain ⟨hcall, hdeclared⟩ := List.mem_filter.1 hcall
      exact ⟨s, rfl, ⟨call, hcall, rfl⟩, hdeclared⟩
  · rintro ⟨s, hs, ⟨call, hcall, rfl⟩, hdeclared⟩
    rw [hs]
    refine List.mem_map.2 ⟨⟨s.name, call.scene, call.area⟩, ?_, rfl⟩
    exact List.mem_map.2 ⟨call, List.mem_filter.2 ⟨hcall, hdeclared⟩, rfl⟩

theorem names_callGraph : story.callGraph.names = story.scenes.map Scene.name := by
  simp [CallGraph.names, callGraph]

theorem mem_names_callGraph {s : Scene} (hs : s ∈ story.scenes) : s.name ∈ story.callGraph.names := by
  rw [names_callGraph]
  exact List.mem_map_of_mem hs

theorem declared_callGraph : story.callGraph.Declared := by
  intro a b h
  rw [callGraph_calls] at h
  obtain ⟨-, -, -, hb⟩ := h
  obtain ⟨s, hs⟩ := Option.isSome_iff_exists.1 hb
  obtain ⟨hmem, rfl⟩ := mem_of_scene? hs
  exact mem_names_callGraph hmem

end Story

end StoryFlow
