import Mathlib.Data.Set.Card
import StoryFlow.Proofs.Flow.Order
import StoryFlow.Proofs.Flow.Validity

/-! When a graph can be sorted. The sort gets exactly the vertices that no cycle of forward edges leads to, so
it fails exactly if there is such a cycle, and then tells how many vertices are on one or behind one. How many
edges there are from one vertex to another and where the loop edges lead does not matter. -/

namespace StoryFlow.Flow.Graph

open Relation

variable {g h : Graph} {a b c t id : VertexId} {done order : List VertexId}

/-- The vertex is on a cycle of forward edges, or some way leads to it from one. -/
def Stuck (g : Graph) (id : VertexId) : Prop :=
  ∃ c, TransGen g.Forward c c ∧ ReflTransGen g.Forward c id

section Precedence

theorem mem_before_of_transGen (before : ∀ xs t ys, done = xs ++ t :: ys → ∀ a, g.Forward a t → a ∈ xs)
    {xs ys : List VertexId} (hd : done = xs ++ t :: ys) (ha : TransGen g.Forward a t) : a ∈ xs := by
  induction ha generalizing xs ys with
  | single hat => exact before _ _ _ hd _ hat
  | @tail b t _ hbt ih =>
    obtain ⟨us, vs, rfl⟩ := List.append_of_mem (before _ _ _ hd _ hbt)
    have hb : done = us ++ b :: (vs ++ t :: ys) := by simp [hd]
    exact List.mem_append_left _ (ih hb)

theorem not_mem_of_stuck (before : ∀ xs t ys, done = xs ++ t :: ys → ∀ a, g.Forward a t → a ∈ xs)
    (hs : g.Stuck id) : id ∉ done := by
  obtain ⟨c, hcycle, hbehind⟩ := hs
  have away : c ∉ done := by
    intro hc
    obtain ⟨xs, ys, hd, hfirst⟩ := List.eq_append_cons_of_mem hc
    exact hfirst (mem_before_of_transGen before hd hcycle)
  intro hid
  rcases reflTransGen_iff_eq_or_transGen.1 hbehind with rfl | hbehind
  · exact away hid
  · obtain ⟨xs, ys, hd⟩ := List.append_of_mem hid
    exact away (hd ▸ List.mem_append_left _ (mem_before_of_transGen before hd hbehind))

theorem TopologicalOrder.idxOf_lt (ho : g.TopologicalOrder order) (hb : b ∈ order) (hab : g.Forward a b) :
    order.idxOf a < order.idxOf b := by
  obtain ⟨xs, ys, rfl, hfirst⟩ := List.eq_append_cons_of_mem hb
  have ha := ho.before xs b ys rfl a hab
  rw [List.idxOf_append_of_mem ha, List.idxOf_append_of_notMem hfirst, List.idxOf_cons_self]
  have := List.idxOf_lt_length_of_mem ha
  omega

theorem TopologicalOrder.perm (ho : g.TopologicalOrder order) : order.Perm g.ids :=
  (List.perm_ext_iff_of_nodup ho.distinct nodup_ids).2 fun id => (ho.all id).trans mem_ids.symm

end Precedence

section Leftover

variable {waiting : IdMap Nat}

theorem Stuck.has (hg : g.Valid) (hs : g.Stuck id) : g.has id = true := by
  obtain ⟨c, hcycle, hbehind⟩ := hs
  obtain ⟨a, -, hac⟩ := TransGen.tail'_iff.1 (hcycle.trans_left hbehind)
  exact hg.linked_has hac.linked

/-- What the sort leaves over is stuck: each of the vertices left over waits for another one of them. -/
theorem Ordered.stuck (ho : g.Ordered ⟨waiting, []⟩ done) (ht : g.has t = true) (hd : t ∉ done) :
    g.Stuck t := by
  let before : Set VertexId := {a | g.has a = true ∧ a ∉ done ∧ ReflTransGen g.Forward a t}
  have finite : before.Finite := g.ids.finite_toSet.subset fun a ha => mem_ids.2 ha.1
  have waits : ∀ b ∈ before, ∃ a ∈ before, g.Forward a b := by
    rintro b ⟨hb, hbd, hbt⟩
    obtain ⟨a, ha, had, hab⟩ := ho.waits hb hbd
    exact ⟨a, ⟨ha, had, .head hab hbt⟩, hab⟩
  obtain ⟨c, ⟨-, -, hct⟩, hcycle⟩ := exists_cycle finite ⟨t, ht, hd, .refl⟩ waits
  exact ⟨c, hcycle, hct⟩

theorem Ordered.ncard_stuck (hg : g.Valid) (ho : g.Ordered ⟨waiting, []⟩ done) :
    {id | g.Stuck id}.ncard = g.size - done.length := by
  have hdone : done.Nodup := (List.nodup_append.1 ho.distinct).1
  have hsub : done.toFinset ⊆ g.ids.toFinset := by
    intro t ht
    rw [List.mem_toFinset] at ht ⊢
    exact mem_ids.2 ((ho.ready t).1 (List.mem_append_left _ ht)).1
  have left : {id | g.Stuck id} = ↑(g.ids.toFinset \ done.toFinset) := by
    ext id
    simp only [Set.mem_ofPred_eq, Finset.coe_sdiff, List.coe_toFinset, Set.mem_sdiff, mem_ids]
    exact ⟨fun hs => ⟨hs.has hg, not_mem_of_stuck ho.before hs⟩, fun hid => ho.stuck hid.1 hid.2⟩
  rw [left, Set.ncard_coe_finset, Finset.card_sdiff_of_subset hsub, List.toFinset_card_of_nodup nodup_ids,
    List.toFinset_card_of_nodup hdone, length_ids]

theorem exists_stuck_iff : (∃ id, g.Stuck id) ↔ ∃ c, TransGen g.Forward c c :=
  ⟨fun ⟨_, c, hc, _⟩ => ⟨c, hc⟩, fun ⟨c, hc⟩ => ⟨c, c, hc, .refl⟩⟩

theorem topologicalOrder_or_stuck (hg : g.Valid) :
    (∃ order, g.topologicalOrder = .ok order ∧ g.TopologicalOrder order ∧ ∀ id, ¬g.Stuck id) ∨
      (g.topologicalOrder = .error (.cyclic {id | g.Stuck id}.ncard g.size) ∧ ∃ id, g.Stuck id) := by
  rcases topologicalOrder_cases hg with ⟨order, hr, ho⟩ | ⟨done, waiting, hr, ho, hlen⟩
  · exact Or.inl ⟨order, hr, ho, fun id hs => not_mem_of_stuck ho.before hs ((ho.all id).2 (hs.has hg))⟩
  · refine Or.inr ⟨by rw [hr, ho.ncard_stuck hg], ?_⟩
    by_contra hno
    have none : {id | g.Stuck id} = ∅ := Set.eq_empty_of_forall_notMem fun id hs => hno ⟨id, hs⟩
    have count := ho.ncard_stuck hg
    rw [none, Set.ncard_empty] at count
    have := ho.length_le
    omega

end Leftover

theorem stuck_congr (hf : ∀ a b, h.Forward a b ↔ g.Forward a b) : h.Stuck id ↔ g.Stuck id := by
  have same : h.Forward = g.Forward := funext fun a => funext fun b => propext (hf a b)
  rw [Stuck, Stuck, same]

/-- A graph that passes its check is sorted unless there is a cycle of forward edges. If there is one, the
failure tells how many vertices are on a cycle or behind one; if not, every vertex gets one place, behind
everything that leads to it. Graphs with the same vertices that have forward edges between the same vertices
fail alike. -/
theorem topologicalOrder_complete (hv : g.invalidity? = none) :
    ((∃ e, g.topologicalOrder = .error e) ↔ ∃ c, TransGen g.Forward c c) ∧
      (∀ e, g.topologicalOrder = .error e → e = .cyclic {id | g.Stuck id}.ncard g.size ∧
        e.message? = some ("not a dag, " ++ Nat.repr {id | g.Stuck id}.ncard ++ " of " ++
          Nat.repr g.size ++ " vertices are in a cycle")) ∧
      (∀ order, g.topologicalOrder = .ok order → order.Perm g.ids ∧
        ∀ a b, g.Forward a b → order.idxOf a < order.idxOf b) ∧
      ∀ h : Graph, h.invalidity? = none → h.ids = g.ids → (∀ a b, h.Forward a b ↔ g.Forward a b) →
        ∀ e, h.topologicalOrder = .error e ↔ g.topologicalOrder = .error e := by
  have hg := valid_of_problems (invalidity?_eq_none_iff.1 hv)
  rw [← exists_stuck_iff]
  refine ⟨?_, fun e he => ?_, fun order ho => ?_, fun h hh hids hf e => ?_⟩
  · rcases topologicalOrder_or_stuck hg with ⟨order, hr, -, hnone⟩ | ⟨hr, hs⟩
    · refine iff_of_false ?_ fun ⟨id, hs⟩ => hnone id hs
      rintro ⟨e, he⟩
      cases hr.symm.trans he
    · exact iff_of_true ⟨_, hr⟩ hs
  · rcases topologicalOrder_or_stuck hg with ⟨order, hr, -⟩ | ⟨hr, -⟩
    · cases hr.symm.trans he
    · cases hr.symm.trans he
      exact ⟨rfl, rfl⟩
  · rcases topologicalOrder_or_stuck hg with ⟨order', hr, htop, -⟩ | ⟨hr, -⟩
    · cases hr.symm.trans ho
      exact ⟨htop.perm, fun a b hab => htop.idxOf_lt ((htop.all b).2 (hg.linked_has hab.linked)) hab⟩
    · cases hr.symm.trans ho
  · have hsize : h.size = g.size := by rw [← length_ids, hids, length_ids]
    have same : ∀ id, h.Stuck id ↔ g.Stuck id := fun id => stuck_congr hf
    have number : {id | h.Stuck id} = {id | g.Stuck id} := Set.ext same
    rcases topologicalOrder_or_stuck hg with ⟨order, hr, -, hnone⟩ | ⟨hr, id, hs⟩ <;>
      rcases topologicalOrder_or_stuck (valid_of_problems (invalidity?_eq_none_iff.1 hh)) with
        ⟨order', hr', -, hnone'⟩ | ⟨hr', id', hs'⟩
    · rw [hr, hr']
      exact iff_of_false nofun nofun
    · exact absurd ((same id').1 hs') (hnone id')
    · exact absurd ((same id).2 hs) (hnone' id)
    · rw [hr, hr', number, hsize]

/-- Two edges lead from the first vertex into a cycle, which can be left, and a loop edge leads back. -/
def rapids : Graph where
  nodes := .ofList [
    (0, ⟨⟨0, none, true, []⟩, [⟨1, false⟩, ⟨1, false⟩], ⟨0, false⟩⟩),
    (1, ⟨⟨1, none, true, []⟩, [⟨2, false⟩], ⟨0, false⟩⟩),
    (2, ⟨⟨2, none, true, []⟩, [⟨1, false⟩, ⟨3, false⟩], ⟨0, false⟩⟩),
    (3, ⟨⟨3, none, true, []⟩, [⟨0, true⟩, ⟨sink, false⟩], ⟨0, false⟩⟩)]
  exits := .ofList [(3, ())]
  start := [⟨0, false⟩]

/-- Two edges lead past the second vertex, and only a loop edge leads back. -/
def bypass : Graph where
  nodes := .ofList [
    (0, ⟨⟨0, none, true, []⟩, [⟨1, false⟩, ⟨2, false⟩, ⟨1, false⟩], ⟨0, false⟩⟩),
    (1, ⟨⟨1, none, true, []⟩, [⟨0, true⟩, ⟨sink, false⟩], ⟨0, false⟩⟩),
    (2, ⟨⟨2, none, true, []⟩, [⟨1, false⟩], ⟨0, false⟩⟩)]
  exits := .ofList [(1, ())]
  start := [⟨0, false⟩]

theorem topologicalOrder_complete_rapids : rapids.invalidity? = none ∧
    (∃ c, TransGen rapids.Forward c c) ∧ {id | rapids.Stuck id}.ncard = 3 ∧
    (∃ e, rapids.topologicalOrder = .error e ∧
      e.message? = some "not a dag, 3 of 4 vertices are in a cycle") ∧
    bypass.invalidity? = none ∧ ∃ order, bypass.topologicalOrder = .ok order ∧ order.Perm bypass.ids ∧
      ∀ a b, bypass.Forward a b → order.idxOf a < order.idxOf b := by
  have valid : rapids.invalidity? = none := by decide +kernel
  have valid' : bypass.invalidity? = none := by decide +kernel
  have failed : rapids.topologicalOrder = .error (.cyclic 3 4) := by rfl
  have sorted : bypass.topologicalOrder = .ok [0, 2, 1] := by rfl
  obtain ⟨cyclic, failure, -, -⟩ := topologicalOrder_complete valid
  obtain ⟨-, -, place, -⟩ := topologicalOrder_complete valid'
  obtain ⟨number, -⟩ := failure _ failed
  obtain ⟨number, -⟩ := OrderError.cyclic.inj number
  exact ⟨valid, cyclic.1 ⟨_, failed⟩, number.symm, ⟨_, failed, by decide +kernel⟩, valid', _, sorted,
    place _ sorted⟩

end StoryFlow.Flow.Graph
