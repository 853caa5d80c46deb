import Mathlib.Logic.Relation
import StoryFlow.Proofs.Flow.Neighbors

/-! The walks over a graph say what its edge relation says, also where edges dangle. The successors of a
vertex come in the order of its edges, the sources of a target in increasing order, and the search from the
start finds exactly what the start leads to. -/

namespace StoryFlow

open Relation

universe u

theorem pairwise_fresh_filter {α : Type u} [BEq α] [LawfulBEq α] {p : α → Bool} {known l : List α} :
    (fresh known (l.filter p)).Pairwise fun a b => l.idxOf a < l.idxOf b := by
  induction l generalizing known with
  | nil => exact List.Pairwise.nil
  | cons a rest ih =>
    have shift : ∀ known : List α, (∀ x ∈ fresh known (rest.filter p), x ≠ a) →
        (fresh known (rest.filter p)).Pairwise fun x y =>
          (a :: rest).idxOf x < (a :: rest).idxOf y := by
      intro known hne
      refine (@ih known).imp_of_mem fun {x y} hx hy hlt => ?_
      rw [List.idxOf_cons_ne rest (hne x hx).symm, List.idxOf_cons_ne rest (hne y hy).symm]
      exact Nat.succ_lt_succ hlt
    by_cases hp : p a = true
    · rw [List.filter_cons_of_pos hp, fresh]
      split <;> rename_i hk
      · refine shift known fun x hx heq => (mem_fresh.1 hx).2 ?_
        rw [heq]
        simpa using hk
      · have apart : ∀ x ∈ fresh (a :: known) (rest.filter p), x ≠ a := by
          intro x hx heq
          apply (mem_fresh.1 hx).2
          rw [heq]
          exact List.mem_cons_self
        refine List.pairwise_cons.2 ⟨fun x hx => ?_, shift (a :: known) apart⟩
        rw [List.idxOf_cons_self, List.idxOf_cons_ne rest (apart x hx).symm]
        omega
    · rw [List.filter_cons_of_neg hp]
      refine shift known fun x hx heq => hp ?_
      rw [← heq]
      exact (List.mem_filter.1 (mem_fresh.1 hx).1).2

namespace Flow.Graph

variable {g : Graph} {id s t v w : VertexId} {found stack : List VertexId}

theorem pairwise_successors :
    (g.successors v).Pairwise fun a b =>
      ((g.edgesOf v).map Edge.target).idxOf a < ((g.edgesOf v).map Edge.target).idxOf b := by
  rw [successors, successors?, edgesOf]
  cases g.edges? v with
  | none => exact List.Pairwise.nil
  | some es => exact pairwise_fresh_filter

section Sources

/-- The sources of every target are listed in increasing order, and none of them is beyond the bound. -/
def Ascending (sources : IdMap (List VertexId)) (bound : VertexId) : Prop :=
  ∀ t vs, sources.get? t = some vs → vs ≠ [] ∧ vs.Pairwise (· < ·) ∧ ∀ v ∈ vs, v ≤ bound

variable {m : IdMap (List VertexId)}

theorem Ascending.mono (h : Ascending m s) (hs : s ≤ t) : Ascending m t := by
  intro w vs hw
  obtain ⟨hne, hasc, hle⟩ := h w vs hw
  exact ⟨hne, hasc, fun v hv => le_trans (hle v hv) hs⟩

/-- Only the last of the sources can be the bound. -/
theorem lt_of_getLast?_ne {known : List VertexId} (hasc : known.Pairwise (· < ·))
    (hle : ∀ v ∈ known, v ≤ s) (hlast : known.getLast? ≠ some s) : ∀ v ∈ known, v < s := by
  intro v hv
  apply lt_of_le_of_ne (hle v hv)
  rintro rfl
  obtain ⟨before, after, rfl⟩ := List.append_of_mem hv
  cases after with
  | nil => exact hlast List.getLast?_concat
  | cons x after =>
    have hvx : v < x := (List.pairwise_cons.1 (List.pairwise_append.1 hasc).2.1).1 x List.mem_cons_self
    exact absurd (hle x (by simp)) (not_le.2 hvx)

theorem Ascending.addSource (h : Ascending m s) : Ascending (addSource s m t) s := by
  unfold Graph.addSource
  dsimp only
  split <;> rename_i hlast
  · exact h
  · intro w vs hw
    rw [IdMap.get?_insert] at hw
    split at hw
    · obtain rfl : (m.get? t).getD [] ++ [s] = vs := Option.some.inj hw
      have known : ((m.get? t).getD []).Pairwise (· < ·) ∧ ∀ v ∈ (m.get? t).getD [], v < s := by
        cases hm : m.get? t with
        | none => exact ⟨List.Pairwise.nil, by simp⟩
        | some vs =>
          obtain ⟨-, hasc, hle⟩ := h t vs hm
          rw [hm] at hlast
          exact ⟨hasc, lt_of_getLast?_ne hasc hle hlast⟩
      refine ⟨by simp, List.pairwise_append.2 ⟨known.1, List.pairwise_singleton _ _, ?_⟩, ?_⟩
      · intro v hv x hx
        rw [List.mem_singleton.1 hx]
        exact known.2 v hv
      · intro v hv
        rcases List.mem_append.1 hv with hv | hv
        · exact le_of_lt (known.2 v hv)
        · exact le_of_eq (List.mem_singleton.1 hv)
    · exact h w vs hw

theorem Ascending.foldl_addSource {ts : List VertexId} (h : Ascending m s) :
    Ascending (ts.foldl (Graph.addSource s) m) s := by
  induction ts generalizing m with
  | nil => exact h
  | cons t ts ih => exact ih h.addSource

theorem ascending_foldl {l : List (VertexId × Entry)} (hl : l.Pairwise fun p q => p.1 < q.1)
    (hs : ∀ p ∈ l, s ≤ p.1) (h : Ascending m s) :
    ∃ bound, Ascending
      (l.foldl (fun m p => (realTargets p.2.edges).foldl (Graph.addSource p.1) m) m) bound := by
  induction l generalizing m s with
  | nil => exact ⟨s, h⟩
  | cons p l ih =>
    obtain ⟨hp, hl⟩ := List.pairwise_cons.1 hl
    have hsp := hs p List.mem_cons_self
    exact ih hl (fun q hq => le_of_lt (hp q hq)) (h.mono hsp).foldl_addSource

theorem ascending_predecessors (g : Graph) : ∃ bound, Ascending g.predecessors bound := by
  have empty : ∀ bound, Ascending ∅ bound := by
    intro bound t vs ht
    rw [IdMap.get?_empty] at ht
    cases ht
  rw [predecessors]
  have sorted := g.nodes.sorted
  cases hl : g.nodes.entries with
  | nil => exact ⟨0, empty 0⟩
  | cons p l =>
    rw [hl] at sorted
    refine ascending_foldl sorted (fun q hq => ?_) (empty p.1)
    rcases List.mem_cons.1 hq with rfl | hq
    · exact le_refl _
    · exact le_of_lt ((List.pairwise_cons.1 sorted).1 q hq)

theorem get?_predecessors (g : Graph) (w : VertexId) :
    ∃ vs, vs.Pairwise (· < ·) ∧ (∀ v, v ∈ vs ↔ w ∈ g.successors v) ∧
      g.predecessors.get? w = if vs = [] then none else some vs := by
  obtain ⟨bound, hasc⟩ := ascending_predecessors g
  have hmem : ∀ v, v ∈ (g.predecessors.get? w).getD [] ↔ w ∈ g.successors v := by
    intro v
    rw [mem_predecessors, mem_successors]
  cases hw : g.predecessors.get? w with
  | none =>
    rw [hw] at hmem
    exact ⟨[], List.Pairwise.nil, hmem, rfl⟩
  | some vs =>
    rw [hw] at hmem
    obtain ⟨hne, hlt, -⟩ := hasc w vs hw
    exact ⟨vs, hlt, hmem, (if_neg hne).symm⟩

end Sources

section Search

/-- What was found leads on only to what was found or still lies on the stack. -/
def Pending (g : Graph) (found stack : List VertexId) : Prop :=
  ∀ x ∈ found, ∀ y ∈ g.successors x, y ∈ found ∨ y ∈ stack

theorem Pending.skip (h : g.Pending found (id :: stack)) (hid : id ∈ found) :
    g.Pending found stack := by
  intro x hx y hy
  rcases h x hx y hy with hf | hs
  · exact Or.inl hf
  · rcases List.mem_cons.1 hs with rfl | hs
    · exact Or.inl hid
    · exact Or.inr hs

theorem Pending.visit (h : g.Pending found (id :: stack)) :
    g.Pending (id :: found) ((g.successors id).reverse ++ stack) := by
  intro x hx y hy
  rcases List.mem_cons.1 hx with rfl | hx
  · exact Or.inr (List.mem_append_left _ (List.mem_reverse.2 hy))
  · rcases h x hx y hy with hf | hs
    · exact Or.inl (List.mem_cons_of_mem _ hf)
    · rcases List.mem_cons.1 hs with rfl | hs
      · exact Or.inl List.mem_cons_self
      · exact Or.inr (List.mem_append_right _ hs)

/-- The search keeps what it is given and ends with nothing pending. -/
theorem Pending.search (h : g.Pending found stack) :
    found ⊆ g.search found stack ∧ stack ⊆ g.search found stack ∧
      g.Pending (g.search found stack) [] := by
  fun_induction Graph.search g found stack with
  | case1 found => exact ⟨List.Subset.refl _, List.nil_subset _, h⟩
  | case2 found id rest hid ih =>
    obtain ⟨hf, hs, hp⟩ := ih (h.skip hid)
    exact ⟨hf, List.cons_subset.2 ⟨hf hid, hs⟩, hp⟩
  | case3 found id rest hid ih =>
    obtain ⟨hf, hs, hp⟩ := ih h.visit
    obtain ⟨hself, hf⟩ := List.cons_subset.1 hf
    exact ⟨hf, List.cons_subset.2 ⟨hself, (List.append_subset.1 hs).2⟩, hp⟩

theorem exists_of_mem_search (h : w ∈ g.search found stack) :
    w ∈ found ∨ ∃ x ∈ stack, ReflTransGen (fun a b => b ∈ g.successors a) x w := by
  fun_induction Graph.search g found stack with
  | case1 found => exact Or.inl h
  | case2 found id rest hid ih =>
    rcases ih h with hf | ⟨x, hx, hxw⟩
    · exact Or.inl hf
    · exact Or.inr ⟨x, List.mem_cons_of_mem _ hx, hxw⟩
  | case3 found id rest hid ih =>
    rcases ih h with hf | ⟨x, hx, hxw⟩
    · rcases List.mem_cons.1 hf with rfl | hf
      · exact Or.inr ⟨w, List.mem_cons_self, .refl⟩
      · exact Or.inl hf
    · rcases List.mem_append.1 hx with hx | hx
      · exact Or.inr ⟨id, List.mem_cons_self, .head (List.mem_reverse.1 hx) hxw⟩
      · exact Or.inr ⟨x, List.mem_cons_of_mem _ hx, hxw⟩

theorem nodup_search (h : found.Nodup) : (g.search found stack).Nodup := by
  fun_induction Graph.search g found stack with
  | case1 found => exact h
  | case2 found id rest hid ih => exact ih h
  | case3 found id rest hid ih => exact ih (List.nodup_cons.2 ⟨hid, h⟩)

theorem mem_reachable : w ∈ g.reachable ↔
    ∃ x ∈ realTargets g.start, ReflTransGen (fun a b => b ∈ g.successors a) x w := by
  have start : g.Pending [] (realTargets g.start).reverse := by
    intro x hx
    cases hx
  constructor
  · intro h
    rcases exists_of_mem_search h with hf | ⟨x, hx, hxw⟩
    · cases hf
    · exact ⟨x, List.mem_reverse.1 hx, hxw⟩
  · rintro ⟨x, hx, hxw⟩
    obtain ⟨-, hs, hp⟩ := start.search
    induction hxw with
    | refl => exact hs (List.mem_reverse.2 hx)
    | tail _ hstep ih => exact (hp _ ih _ hstep).resolve_right List.not_mem_nil

end Search

/-- What the walks over a graph say about its edges. -/
structure WalksAlongEdges (g : Graph) : Prop where
  unknown : ∀ v, g.successors? v = none ↔ g.has v = false
  successor : ∀ v w, w ∈ g.successors v ↔
    g.has v = true ∧ 0 ≤ w ∧ ∃ e ∈ g.edgesOf v, e.target = w
  ordered : ∀ v, (g.successors v).Pairwise fun a b =>
    ((g.edgesOf v).map Edge.target).idxOf a < ((g.edgesOf v).map Edge.target).idxOf b
  sources : ∀ w, ∃ vs, vs.Pairwise (· < ·) ∧ (∀ v, v ∈ vs ↔ w ∈ g.successors v) ∧
    g.predecessors.get? w = if vs = [] then none else some vs
  once : g.reachable.Nodup
  reached : ∀ w, w ∈ g.reachable ↔ ∃ e ∈ g.start, 0 ≤ e.target ∧
    ReflTransGen (fun a b => b ∈ g.successors a) e.target w

theorem walks_along_edges (g : Graph) : g.WalksAlongEdges where
  unknown v := by
    rw [successors?, edges?, has, IdMap.contains]
    cases g.nodes.get? v <;> simp
  successor v w := by
    rw [mem_successors]
    constructor
    · rintro ⟨x, es, hn, e, he, rfl, hw⟩
      refine ⟨has_iff.2 ⟨_, hn⟩, hw, e, ?_, rfl⟩
      rwa [edgesOf_of_node? hn]
    · rintro ⟨hv, hw, e, he, rfl⟩
      obtain ⟨⟨x, es⟩, hn⟩ := has_iff.1 hv
      rw [edgesOf_of_node? hn] at he
      exact ⟨x, es, hn, e, he, rfl, hw⟩
  ordered v := pairwise_successors
  sources w := get?_predecessors g w
  once := nodup_search List.nodup_nil
  reached w := by
    rw [mem_reachable]
    constructor
    · rintro ⟨x, hx, hxw⟩
      obtain ⟨e, he, rfl, hreal⟩ := mem_realTargets.1 hx
      exact ⟨e, he, hreal, hxw⟩
    · rintro ⟨e, he, hreal, hxw⟩
      exact ⟨e.target, mem_realTargets.2 ⟨e, he, rfl, hreal⟩, hxw⟩

end Flow.Graph

end StoryFlow
