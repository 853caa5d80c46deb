import Mathlib.Data.List.Sort
import StoryFlow.Proofs.Flow.Mirror
import StoryFlow.Proofs.Flow.Order
import StoryFlow.Proofs.Flow.Representation
import StoryFlow.Proofs.Flow.Totality

/-! A copy of a graph under fresh identities. The new identities follow each other without a gap in the order
of the old ones, and there is only one way to give them out like that. Everything in the copy is where it was
in the graph, so the walks over the copy give what they give for the graph, under the new identities. -/

namespace StoryFlow.Flow

universe u v

theorem IdMap.increasing_keys {α : Type u} (m : IdMap α) : m.keys.Pairwise (· < ·) :=
  List.pairwise_map.2 m.sorted

theorem IdMap.keys_eq_map {α : Type u} {β : Type v} {m : IdMap α} {n : IdMap β} {ρ : VertexId → VertexId}
    (hρ : ∀ i ∈ m.keys, ∀ j ∈ m.keys, i < j → ρ i < ρ j) (h : ∀ k, k ∈ n.keys ↔ ∃ i ∈ m.keys, ρ i = k) :
    n.keys = m.keys.map ρ := by
  refine n.increasing_keys.eq_of_mem_iff ?_ fun {k} => by rw [h, List.mem_map]
  exact List.pairwise_map.2 (m.increasing_keys.imp_of_mem fun hi hj => hρ _ hi _ hj)

namespace Graph

variable {g c : Graph} {ρ σ : VertexId → VertexId} {f : Vertex → Option Vertex} {first : Nat}

/-- The vertices are numbered from the first number on, in their order. What is not a vertex stays where it
is. -/
structure Renumbers (g : Graph) (first : Nat) (ρ : VertexId → VertexId) : Prop where
  increasing : ∀ i j, g.has i = true → g.has j = true → i < j → ρ i < ρ j
  onto : ∀ n : Int, (∃ id, g.has id = true ∧ ρ id = n) ↔ (first : Int) ≤ n ∧ n < (first : Int) + g.size
  stays : ∀ id, g.has id = false → ρ id = id

theorem Renumbers.naming (h : g.Renumbers first ρ) (hg : g.WellFormed) : g.Naming ρ where
  real := by
    intro id hid
    obtain ⟨x, hx⟩ := has_iff.1 hid
    exact hg.real id x hx
  named := fun id hid => (Int.natCast_nonneg first).trans ((h.onto _).1 ⟨id, hid, rfl⟩).1
  increasing := h.increasing
  outside := by
    intro id hneg
    apply h.stays
    rw [← node?_eq_none_iff]
    cases hx : g.node? id with
    | none => rfl
    | some x => exact absurd (hg.real id x hx) (not_le.2 hneg)

theorem renumbers_freshName (g : Graph) (first : Nat) : g.Renumbers first (g.freshName first) where
  increasing := by
    intro a b ha hb hab
    obtain ⟨i, hi, -, hia⟩ := freshName_of_has first ha
    obtain ⟨j, hj, -, hjb⟩ := freshName_of_has first hb
    obtain ⟨hi', rfl⟩ := List.getElem?_eq_some_iff.1 hi
    obtain ⟨hj', rfl⟩ := List.getElem?_eq_some_iff.1 hj
    have hij : i < j := by
      by_contra hle
      rcases Nat.lt_or_ge j i with hji | hij
      · exact absurd hab (List.pairwise_iff_getElem.1 g.nodes.increasing_keys j i hj' hi' hji).asymm
      · obtain rfl : i = j := by omega
        exact absurd hab (lt_irrefl _)
    rw [hia, hjb]
    exact Int.ofNat_lt.2 (by omega)
  onto := by
    intro n
    constructor
    · rintro ⟨id, hid, rfl⟩
      obtain ⟨i, hi, -, hname⟩ := freshName_of_has first hid
      have hlt : i < g.size := g.length_ids ▸ (List.getElem?_eq_some_iff.1 hi).1
      rw [hname]
      exact ⟨by omega, by omega⟩
    · rintro ⟨hle, hlt⟩
      have hk : (n.toNat - first) < g.ids.length := by
        rw [length_ids]
        omega
      have hn : n = ((first + (n.toNat - first) : Nat) : Int) := by omega
      have hget : (g.freshNames first).get? g.ids[n.toNat - first] = some n :=
        get?_freshNames.2 ⟨n.toNat - first, List.getElem?_eq_getElem hk, hn⟩
      exact ⟨_, mem_ids.1 (List.getElem_mem hk), by rw [freshName, hget]; rfl⟩
  stays := fun _ => freshName_of_not_has

theorem Renumbers.unique (h : g.Renumbers first ρ) (h' : g.Renumbers first σ) : ρ = σ := by
  have increasing : ∀ {τ : VertexId → VertexId}, g.Renumbers first τ → (g.ids.map τ).Pairwise (· < ·) := by
    intro τ hτ
    refine List.pairwise_map.2 (g.nodes.increasing_keys.imp_of_mem fun hi hj => ?_)
    exact hτ.increasing _ _ (mem_ids.1 hi) (mem_ids.1 hj)
  have same : g.ids.map ρ = g.ids.map σ := by
    refine (increasing h).eq_of_mem_iff (increasing h') fun {n} => ?_
    simp only [List.mem_map, mem_ids]
    rw [h.onto, h'.onto]
  funext id
  cases hid : g.has id with
  | true => exact List.map_inj_left.1 same id (mem_ids.2 hid)
  | false => rw [h.stays id hid, h'.stays id hid]

theorem existsUnique_renumbers (g : Graph) (first : Nat) : ∃! ρ, g.Renumbers first ρ :=
  ⟨g.freshName first, renumbers_freshName g first, fun _ h => h.unique (renumbers_freshName g first)⟩

/-- The graph with the vertices that `f` makes of its own, under the new names. Entries, edges, exits and
start edges stand in the order in which they stood, and only the identity of a vertex is changed after
`f`. -/
structure ImageOf (c g : Graph) (ρ : VertexId → VertexId) (f : Vertex → Option Vertex) : Prop where
  nodes : List.Forall₂ (fun p q => q.1 = ρ p.1 ∧ ∃ w, f p.2.vertex = some w ∧
    q.2.vertex = { w with id := ρ p.1 } ∧ q.2.edges = p.2.edges.map (Edge.rename ρ))
    g.nodes.entries c.nodes.entries
  exits : c.exitIds = g.exitIds.map ρ
  start : c.start = g.start.map (Edge.rename ρ)

def Recasts (g : Graph) (ρ : VertexId → VertexId) (f : Vertex → Option Vertex) (v w : Vertex) : Prop :=
  v ∈ g.vertices ∧ ∃ u, f v = some u ∧ w = { u with id := ρ v.id }

theorem imageOf_of_named {a b : Graph} (ha : a.WellFormed)
    (hnodes : g.NamedMap ρ (g.NamedEntry ρ (g.Recasts ρ f)) a.nodes b.nodes)
    (hexits : List.Forall₂ (g.Named ρ) a.exitIds b.exitIds)
    (hstart : List.Forall₂ (g.NamedEdge ρ) a.start b.start) : b.ImageOf a ρ f where
  nodes := by
    have own : ∀ p ∈ a.nodes.entries, p.2.vertex.id = p.1 :=
      fun p hp => ha.own _ _ _ (node?_of_mem_entries hp)
    refine ((List.forall₂_and_left _ _).2 ⟨own, hnodes⟩).imp ?_
    rintro p q ⟨hid, ⟨-, hname⟩, ⟨-, w, hw, hvertex⟩, hedges⟩
    rw [hid] at hvertex
    exact ⟨hname.symm, w, hw, hvertex, (forall₂_namedEdge.1 hedges).2.symm⟩
  exits := (forall₂_named.1 hexits).2.symm
  start := (forall₂_namedEdge.1 hstart).2.symm

section Copy

variable {mark : Mark} (hr : c.Recast g ρ mark f) (hρ : g.Naming ρ) (hg : g.WellFormed)
  (hc : g.Closed (· < 0))

include hr hρ

theorem ids_of_recast : c.ids = g.ids.map ρ := by
  refine IdMap.keys_eq_map (fun i hi j hj => ?_) fun k => ?_
  · exact hρ.increasing i j (mem_ids.1 hi) (mem_ids.1 hj)
  · change k ∈ c.ids ↔ ∃ i ∈ g.ids, ρ i = k
    simp only [mem_ids]
    constructor
    · exact hr.only k
    · rintro ⟨i, hi, rfl⟩
      obtain ⟨e, he⟩ := IdMap.contains_iff.1 hi
      obtain ⟨w, -, hget⟩ := hr.entry i e he
      exact IdMap.contains_iff.2 ⟨_, hget⟩

include hg

theorem exits_of_recast : List.Forall₂ (g.Named ρ) g.exitIds c.exitIds := by
  have vertex : ∀ i ∈ g.exitIds, g.has i = true := by
    intro i hi
    obtain ⟨v, es, hn, -⟩ := (hg.exits i).1 (IdMap.contains_iff.2 (IdMap.mem_keys.1 hi))
    exact has_iff.2 ⟨_, hn⟩
  refine forall₂_named.2 ⟨vertex, (IdMap.keys_eq_map (fun i hi j hj => ?_) fun k => ?_).symm⟩
  · exact hρ.increasing i j (vertex i hi) (vertex j hj)
  · simp only [IdMap.mem_keys, ← IdMap.contains_iff]
    exact hr.exits k

include hc

theorem mirroredBy_of_recast : g.MirroredBy c ρ (g.Recasts ρ f) where
  naming := hρ
  nodes := by
    have keys : List.Forall₂ (fun p q => ρ p.1 = q.1) g.nodes.entries c.nodes.entries := by
      have hids : g.ids.map ρ = c.ids := (ids_of_recast hr hρ).symm
      rw [← List.forall₂_eq_eq_eq] at hids
      simpa only [ids, IdMap.keys, List.forall₂_map_left_iff, List.forall₂_map_right_iff] using hids
    refine List.forall₂_iff_zip.2 ⟨keys.length_eq, fun {p q} hpq => ?_⟩
    obtain ⟨hp, hq⟩ := List.of_mem_zip hpq
    obtain ⟨key, e⟩ := p
    obtain ⟨key', d⟩ := q
    obtain rfl : ρ key = key' := List.forall₂_zip keys hpq
    obtain ⟨w, hw, hget⟩ := hr.entry key e (IdMap.get?_eq_some_iff.2 hp)
    cases (IdMap.get?_eq_some_iff.2 hq).symm.trans hget
    have hn := node?_of_mem_entries hp
    refine ⟨⟨has_iff.2 ⟨_, hn⟩, rfl⟩, ⟨List.mem_map_of_mem hp, w, hw, ?_⟩, ?_⟩
    · rw [hg.own _ _ _ hn]
    · exact forall₂_namedEdge.2 ⟨hc.edges _ _ _ hn, rfl⟩
  start := forall₂_namedEdge.2 ⟨hc.start, hr.start.symm⟩

end Copy

/-- Copying a graph without dangling edges gives out as many identities as it has vertices. The copy is the
graph under the one renumbering onto these identities, and so is the order of its vertices. If the vertices
are seen as they were before, the view of the copy is the view of the graph under this renumbering. -/
theorem relabel_renumbers {s : Supply} (hg : g.WellFormed) (hc : g.Closed (· < 0))
    (hn : ∀ id, g.has id = true → id < s.identities) (hf : ∀ v ∈ g.vertices, ∃ w, f v = some w) :
    (∃! ρ, g.Renumbers s.identities ρ) ∧
    ∃ c s', s.relabel f g = .ok (c, s') ∧ s'.identities = s.identities + g.size ∧ c.Apart g ∧
      ∀ ρ, g.Renumbers s.identities ρ →
        c.ImageOf g ρ f ∧ c.topologicalOrder = g.topologicalOrder.map (List.map ρ) ∧
        ((∀ v ∈ g.vertices, ∀ w, f v = some w → w.visible = v.visible) → ∀ i j,
          ∃ view view', removeInvisible i g = .ok view ∧ removeInvisible j c = .ok view' ∧
            view'.ImageOf view ρ f) := by
  refine ⟨existsUnique_renumbers g s.identities, ?_⟩
  obtain ⟨c, hrelabel⟩ : ∃ c, relabel s.operations s.identities f g = .ok c := relabel_total_of_closed hf hc
  have hcopy := relabel_recast hrelabel hg
  refine ⟨c, (s.takeIdentities g.size).nextOperation, ?_, rfl, ?_, ?_⟩
  · change (relabel s.operations s.identities f g).bind _ = _
    rw [hrelabel]
    rfl
  · intro id hid
    obtain ⟨hle, -⟩ := ((renumbers_freshName g s.identities).onto id).1 (hcopy.only id hid)
    by_contra hin
    exact absurd hle (not_le.2 (hn id (Bool.not_eq_false _ ▸ hin)))
  · intro ρ hρ
    obtain rfl := hρ.unique (renumbers_freshName g s.identities)
    have naming := hρ.naming hg
    have mirrored := mirroredBy_of_recast hcopy naming hg hc
    refine ⟨imageOf_of_named hg mirrored.nodes (exits_of_recast hcopy naming hg) mirrored.start,
      mirrored.topologicalOrder_eq, fun hvisible i j => ?_⟩
    have seen : ∀ v w, g.Recasts (g.freshName s.identities) f v w → w.visible = v.visible := by
      rintro v _ ⟨hv, u, hu, rfl⟩
      exact hvisible v hv u hu
    obtain ⟨view, view', hview, hview', hnodes, hstart, hexits⟩ :=
      mirrored.alongside_removeInvisible seen i j
    exact ⟨view, view', hview, hview', imageOf_of_named (hg.removeInvisible hview) hnodes hexits hstart⟩

/-- Three vertices whose identities have gaps between them. The one in the middle cannot be seen. -/
def ridge : Graph where
  nodes := .ofList [
    (2, ⟨⟨2, none, true, []⟩, [⟨5, false⟩, ⟨sink, false⟩], ⟨0, false⟩⟩),
    (5, ⟨⟨5, none, false, []⟩, [⟨7, true⟩, ⟨7, false⟩, ⟨sink, false⟩], ⟨0, false⟩⟩),
    (7, ⟨⟨7, none, true, []⟩, [⟨2, true⟩, ⟨sink, false⟩], ⟨0, false⟩⟩)]
  exits := .ofList [(2, ()), (5, ()), (7, ())]
  start := [⟨5, false⟩, ⟨2, false⟩]

/-- The copy of the graph takes the identities from nine on. -/
theorem relabel_renumbers_ridge : ∃ c s' ρ view view',
    Supply.relabel ⟨9, 1⟩ (fun v => some (v.nested "hut")) ridge = .ok (c, s') ∧ s'.identities = 12 ∧
    c.edges? 10 = some [⟨11, true⟩, ⟨11, false⟩, ⟨sink, false⟩] ∧ ridge.Renumbers 9 ρ ∧
    c.topologicalOrder = .ok [9, 10, 11] ∧ ridge.topologicalOrder.map (List.map ρ) = .ok [9, 10, 11] ∧
    removeInvisible 2 ridge = .ok view ∧ removeInvisible 3 c = .ok view' ∧ view'.edges? 9 =
      some [⟨11, true⟩, ⟨sink, false⟩] ∧ view'.ImageOf view ρ (fun v => some (v.nested "hut")) := by
  have real : ∀ id, ridge.has id = true → 0 ≤ id := forall_has (by decide +kernel)
  have wf : ridge.WellFormed := wellFormed_of_problems real (by decide +kernel)
  have closed : ridge.Closed (· < 0) :=
    (wf.problems_eq_nil_iff.1 (by decide +kernel)).mono fun _ hid => hid.1
  have below : ∀ id, ridge.has id = true → id < ((⟨9, 1⟩ : Supply).identities : Int) :=
    forall_has (by decide +kernel)
  obtain ⟨⟨ρ, hρ, -⟩, c, s', hrelabel, hs', -, image⟩ :=
    relabel_renumbers (f := fun v => some (v.nested "hut")) wf closed below fun v _ => ⟨_, rfl⟩
  obtain ⟨-, order, views⟩ := image ρ hρ
  obtain ⟨view, view', hview, hview', hviews⟩ := views (by rintro v - _ ⟨⟩; rfl) 2 3
  have copied : c.edges? 10 = some [⟨11, true⟩, ⟨11, false⟩, ⟨sink, false⟩] ∧
      c.topologicalOrder = .ok [9, 10, 11] := by
    cases hrelabel
    exact ⟨rfl, by decide +kernel⟩
  refine ⟨c, s', ρ, view, view', hrelabel, hs', copied.1, hρ, copied.2, order ▸ copied.2, hview, hview', ?_,
    hviews⟩
  cases hrelabel
  cases hview'
  rfl

end Graph

end StoryFlow.Flow
