import Mathlib.Data.List.Forall2
import StoryFlow.Flow.Order
import StoryFlow.Flow.Visible
import StoryFlow.Proofs.Flow.Copy

/-! Graphs under other names. The walks over a graph look at its vertices in the order of their identities,
and otherwise only ask whether two identities are the same. So they take the same course through a graph whose
vertices have other names in the same order: each step of the one is followed by a step of the other, and what
the two have found so far differs in the names only. -/

namespace StoryFlow

universe u v w x y

section Alongside

variable {ε : Type u} {α : Type v} {β : Type w} {γ : Type x} {δ : Type y} {R : α → β → Prop}
  {S : γ → δ → Prop}

/-- Neither of two computations fails, and their results correspond. -/
def Alongside (R : α → β → Prop) (left : Except ε α) (right : Except ε β) : Prop :=
  ∃ a b, left = .ok a ∧ right = .ok b ∧ R a b

theorem Alongside.bind {left : Except ε α} {right : Except ε β} {f : α → Except ε γ} {k : β → Except ε δ}
    (h : Alongside R left right) (hf : ∀ a b, R a b → Alongside S (f a) (k b)) :
    Alongside S (left.bind f) (right.bind k) := by
  obtain ⟨a, b, rfl, rfl, hab⟩ := h
  exact hf a b hab

theorem alongside_foldlM {f : α → γ → Except ε α} {k : β → δ → Except ε β} {l : List γ} {m : List δ}
    (hl : List.Forall₂ S l m) (hstep : ∀ a b c d, S c d → R a b → Alongside R (f a c) (k b d)) {a : α}
    {b : β} (h : R a b) : Alongside R (l.foldlM f a) (m.foldlM k b) := by
  induction hl generalizing a b with
  | nil => exact ⟨a, b, rfl, rfl, h⟩
  | cons hcd _ ih =>
    rw [List.foldlM_cons, List.foldlM_cons]
    exact (hstep _ _ _ _ hcd h).bind fun a' b' h' => ih h'

end Alongside

namespace Flow

def Graph.Place (g : Graph) (t : VertexId) : Prop := g.has t = true ∨ t < 0

/-- New names for the vertices of a graph that keep their order. What is outside keeps its name. -/
structure Graph.Naming (g : Graph) (ρ : VertexId → VertexId) : Prop where
  real : ∀ id, g.has id = true → 0 ≤ id
  named : ∀ id, g.has id = true → 0 ≤ ρ id
  increasing : ∀ i j, g.has i = true → g.has j = true → i < j → ρ i < ρ j
  outside : ∀ id, id < 0 → ρ id = id

def Graph.Named (g : Graph) (ρ : VertexId → VertexId) (i j : VertexId) : Prop := g.has i = true ∧ ρ i = j

def Graph.NamedPlace (g : Graph) (ρ : VertexId → VertexId) (i j : VertexId) : Prop := g.Place i ∧ ρ i = j

def Graph.NamedEdge (g : Graph) (ρ : VertexId → VertexId) (e d : Edge) : Prop :=
  g.Place e.target ∧ e.rename ρ = d

def Graph.NamedMap {α : Type u} {β : Type v} (g : Graph) (ρ : VertexId → VertexId) (S : α → β → Prop)
    (m : IdMap α) (n : IdMap β) : Prop :=
  List.Forall₂ (fun p q => g.Named ρ p.1 q.1 ∧ S p.2 q.2) m.entries n.entries

namespace Graph

variable {g c : Graph} {ρ : VertexId → VertexId}

theorem forall₂_named {l m : List VertexId} :
    List.Forall₂ (g.Named ρ) l m ↔ (∀ i ∈ l, g.has i = true) ∧ l.map ρ = m := by
  rw [← List.forall₂_eq_eq_eq, List.forall₂_map_left_iff]
  exact List.forall₂_and_left l m

theorem forall₂_namedEdge {es ds : List Edge} :
    List.Forall₂ (g.NamedEdge ρ) es ds ↔ g.Targets (· < 0) es ∧ es.map (Edge.rename ρ) = ds := by
  have targets : g.Targets (· < 0) es ↔ ∀ e ∈ es, g.Place e.target :=
    forall₂_congr fun e _ => or_congr_left has_iff.symm
  rw [targets, ← List.forall₂_eq_eq_eq, List.forall₂_map_left_iff]
  exact List.forall₂_and_left es ds

namespace Naming

variable {i j t : VertexId}

theorem lt_iff (h : g.Naming ρ) (hi : g.has i = true) (hj : g.has j = true) : ρ i < ρ j ↔ i < j := by
  refine ⟨fun hlt => ?_, h.increasing i j hi hj⟩
  rcases lt_trichotomy i j with hij | rfl | hji
  · exact hij
  · exact absurd hlt (lt_irrefl _)
  · exact absurd hlt (h.increasing j i hj hi hji).asymm

theorem eq_iff (h : g.Naming ρ) (hi : g.Place i) (hj : g.Place j) : ρ i = ρ j ↔ i = j := by
  refine ⟨fun heq => ?_, congrArg ρ⟩
  rcases hi with hi | hi <;> rcases hj with hj | hj
  · rcases lt_trichotomy i j with hij | hij | hji
    · exact absurd heq (h.increasing i j hi hj hij).ne
    · exact hij
    · exact absurd heq (h.increasing j i hj hi hji).ne'
  · have hpos := h.named i hi
    rw [heq, h.outside j hj] at hpos
    exact absurd hpos (not_le.2 hj)
  · have hpos := h.named j hj
    rw [← heq, h.outside i hi] at hpos
    exact absurd hpos (not_le.2 hi)
  · rwa [h.outside i hi, h.outside j hj] at heq

theorem isReal (h : g.Naming ρ) (ht : g.Place t) : (ρ t).isReal = t.isReal := by
  rcases ht with ht | ht
  · have hpos := h.real t ht
    have hpos' := h.named t ht
    simp [VertexId.isReal, hpos, hpos']
  · rw [h.outside t ht]

theorem contains (h : g.Naming ρ) {l m : List VertexId} (hl : List.Forall₂ (g.NamedPlace ρ) l m)
    (ht : g.Place t) : m.contains (ρ t) = l.contains t := by
  induction hl with
  | nil => rfl
  | cons hij _ ih =>
    obtain ⟨hi, rfl⟩ := hij
    rw [List.contains_cons, List.contains_cons, ih]
    congr 1
    rw [Bool.eq_iff_iff, beq_iff_eq, beq_iff_eq]
    exact h.eq_iff ht hi

end Naming

section Maps

variable {α : Type u} {β : Type v} {S : α → β → Prop} {m : IdMap α} {n : IdMap β} {id : VertexId}

theorem namedMap_empty : g.NamedMap ρ S ∅ ∅ := .nil

theorem NamedMap.insert (hρ : g.Naming ρ) (h : g.NamedMap ρ S m n) (hid : g.has id = true) {a : α} {b : β}
    (hab : S a b) : g.NamedMap ρ S (m.insert id a) (n.insert (ρ id) b) := by
  have new : g.Named ρ id (ρ id) ∧ S a b := ⟨⟨hid, rfl⟩, hab⟩
  change List.Forall₂ _ (IdMap.insertEntry id a m.entries) (IdMap.insertEntry (ρ id) b n.entries)
  unfold NamedMap at h
  generalize m.entries = l, n.entries = k at h
  induction h with
  | nil => exact .cons new .nil
  | @cons p q l k hpq hrest ih =>
    obtain ⟨key, x⟩ := p
    obtain ⟨key', y⟩ := q
    have hkey : g.has key = true := hpq.1.1
    obtain rfl : ρ key = key' := hpq.1.2
    have below := hρ.lt_iff hid hkey
    have above := hρ.lt_iff hkey hid
    unfold IdMap.insertEntry
    by_cases hlt : id < key
    · rw [if_pos hlt, if_pos (below.2 hlt)]
      exact .cons new (.cons hpq hrest)
    · rw [if_neg hlt, if_neg (mt below.1 hlt)]
      by_cases hgt : key < id
      · rw [if_pos hgt, if_pos (above.2 hgt)]
        exact .cons hpq ih
      · rw [if_neg hgt, if_neg (mt above.1 hgt)]
        exact .cons new hrest

theorem NamedMap.get? (hρ : g.Naming ρ) (h : g.NamedMap ρ S m n) (hid : g.has id = true) :
    Option.Rel S (m.get? id) (n.get? (ρ id)) := by
  unfold NamedMap at h
  unfold IdMap.get?
  generalize m.entries = l, n.entries = k at h
  induction h with
  | nil => exact .none
  | @cons p q l k hpq _ ih =>
    obtain ⟨key, x⟩ := p
    obtain ⟨key', y⟩ := q
    obtain ⟨⟨hkey, rfl⟩, hxy⟩ := hpq
    dsimp only at hkey ih ⊢
    have same := hρ.eq_iff (Or.inl hkey) (Or.inl hid)
    unfold IdMap.lookup
    by_cases heq : key = id
    · rw [if_pos heq, if_pos (same.2 heq)]
      exact .some hxy
    · rw [if_neg heq, if_neg (mt same.1 heq)]
      exact ih

theorem NamedMap.keys (h : g.NamedMap ρ S m n) : List.Forall₂ (g.Named ρ) m.keys n.keys :=
  List.rel_map (fun _ _ hpq => hpq.1) h

theorem NamedMap.get?_eq {n : IdMap α} (hρ : g.Naming ρ) (h : g.NamedMap ρ (· = ·) m n)
    (hid : g.has id = true) : n.get? (ρ id) = m.get? id := by
  have hrel := h.get? hρ hid
  generalize m.get? id = a, n.get? (ρ id) = b at hrel
  cases hrel with
  | some heq => rw [heq]
  | none => rfl

end Maps

/-- An entry and the one in its place: a vertex in the place of its vertex, and the same edges under the new
names. -/
def NamedEntry (g : Graph) (ρ : VertexId → VertexId) (T : Vertex → Vertex → Prop) (e d : Entry) : Prop :=
  T e.vertex d.vertex ∧ List.Forall₂ (g.NamedEdge ρ) e.edges d.edges

def NamedReleasing (g : Graph) (ρ : VertexId → VertexId) (r s : Releasing) : Prop :=
  g.NamedMap ρ (· = ·) r.waiting s.waiting ∧ List.Forall₂ (g.Named ρ) r.queue s.queue

def NamedCollapsing (g : Graph) (ρ : VertexId → VertexId) (a b : Collapsing) : Prop :=
  List.Forall₂ (g.NamedEdge ρ) a.edges b.edges ∧ List.Forall₂ (g.NamedPlace ρ) a.expanded b.expanded

abbrev NamedFound (g : Graph) (ρ : VertexId → VertexId) (found found' : Found) : Prop :=
  g.NamedMap ρ (List.Forall₂ (g.NamedEdge ρ)) found found'

section Steps

variable {T : Vertex → Vertex → Prop} {es ds : List Edge} {e d : Edge} {id t : VertexId}

theorem NamedEdge.through {a b : Edge} (hed : g.NamedEdge ρ e d) (hab : g.NamedEdge ρ a b) :
    g.NamedEdge ρ (through e a) (through d b) := by
  obtain ⟨-, rfl⟩ := hed
  obtain ⟨hplace, rfl⟩ := hab
  exact ⟨hplace, rfl⟩

namespace Naming

theorem named_forwardTargets (hρ : g.Naming ρ) (h : List.Forall₂ (g.NamedEdge ρ) es ds) :
    List.Forall₂ (g.Named ρ) (forwardTargets es) (forwardTargets ds) := by
  have forward : List.Forall₂ (g.NamedEdge ρ) (es.filter fun e => !e.loop) (ds.filter fun e => !e.loop) := by
    refine List.rel_filter (fun e d hed => ?_) h
    rw [← hed.2]
    rfl
  have targets : List.Forall₂ (g.NamedPlace ρ) ((es.filter fun e => !e.loop).map Edge.target)
      ((ds.filter fun e => !e.loop).map Edge.target) :=
    List.rel_map (fun e d hed => ⟨hed.1, congrArg Edge.target hed.2⟩) forward
  have real : List.Forall₂ (g.NamedPlace ρ) (forwardTargets es) (forwardTargets ds) := by
    refine List.rel_filter (fun i j hij => ?_) targets
    change i.isReal = true ↔ j.isReal = true
    rw [← hij.2, hρ.isReal hij.1]
  refine ((List.forall₂_and_left _ _).2 ⟨fun i hi => (List.mem_filter.1 hi).2, real⟩).imp ?_
  rintro i j ⟨hreal, hplace, hij⟩
  refine ⟨hplace.resolve_right fun hneg => ?_, hij⟩
  exact absurd (of_decide_eq_true hreal) (not_le.2 hneg)

theorem named_release (hρ : g.Naming ρ) {r s : Releasing} (h : g.NamedReleasing ρ r s)
    (hid : g.has id = true) : g.NamedReleasing ρ (release r id) (release s (ρ id)) := by
  unfold Graph.release
  rw [h.1.get?_eq hρ hid]
  refine ⟨h.1.insert hρ hid rfl, ?_⟩
  dsimp only
  split
  · exact List.rel_append h.2 (.cons ⟨hid, rfl⟩ .nil)
  · exact h.2

theorem anyTo_eq (hρ : g.Naming ρ) (h : List.Forall₂ (g.NamedEdge ρ) es ds) (ht : g.Place t) :
    Edge.anyTo ds (ρ t) = Edge.anyTo es t := by
  induction h with
  | nil => rfl
  | cons hed _ ih =>
    obtain ⟨hplace, rfl⟩ := hed
    unfold Edge.anyTo at ih ⊢
    rw [List.any_cons, List.any_cons, ih]
    congr 1
    rw [Bool.eq_iff_iff, beq_iff_eq, beq_iff_eq]
    exact hρ.eq_iff hplace ht

theorem named_orLoop (hρ : g.Naming ρ) (h : List.Forall₂ (g.NamedEdge ρ) es ds) (ht : g.Place t)
    (loop : Bool) : List.Forall₂ (g.NamedEdge ρ) (orLoop t loop es) (orLoop (ρ t) loop ds) := by
  induction h with
  | nil => exact .nil
  | @cons e d es ds hed hrest ih =>
    obtain ⟨hplace, rfl⟩ := hed
    have same : (e.rename ρ).target = ρ t ↔ e.target = t := hρ.eq_iff hplace ht
    unfold orLoop
    by_cases heq : e.target = t
    · rw [if_pos heq, if_pos (same.2 heq)]
      exact .cons ⟨hplace, rfl⟩ hrest
    · rw [if_neg heq, if_neg (mt same.1 heq)]
      exact .cons ⟨hplace, rfl⟩ ih

theorem named_joinEdge (hρ : g.Naming ρ) (h : List.Forall₂ (g.NamedEdge ρ) es ds)
    (hed : g.NamedEdge ρ e d) : List.Forall₂ (g.NamedEdge ρ) (joinEdge es e) (joinEdge ds d) := by
  obtain ⟨hplace, rfl⟩ := hed
  unfold joinEdge
  change List.Forall₂ _ _ (if Edge.anyTo ds (ρ e.target) then _ else _)
  rw [hρ.anyTo_eq h hplace]
  split
  · exact hρ.named_orLoop h hplace e.loop
  · exact List.rel_append h (.cons ⟨hplace, rfl⟩ .nil)

theorem named_direct (hρ : g.Naming ρ) {a b : Collapsing} (h : g.NamedCollapsing ρ a b)
    (hed : g.NamedEdge ρ e d) : g.NamedCollapsing ρ (a.direct e) (b.direct d) := by
  obtain ⟨hplace, rfl⟩ := hed
  unfold Collapsing.direct
  change g.NamedCollapsing ρ _ (if b.expanded.contains (ρ e.target) then _ else _)
  rw [hρ.contains h.2 hplace]
  split
  · exact ⟨hρ.named_orLoop h.1 hplace e.loop, h.2⟩
  · exact ⟨List.rel_append h.1 (.cons ⟨hplace, rfl⟩ .nil), h.2⟩

theorem named_indirect (hρ : g.Naming ρ) {a b : Collapsing} (h : g.NamedCollapsing ρ a b)
    (hed : g.NamedEdge ρ e d) : g.NamedCollapsing ρ (a.indirect e) (b.indirect d) :=
  ⟨hρ.named_joinEdge h.1 hed, .cons ⟨hed.1, congrArg Edge.target hed.2⟩ h.2⟩

theorem named_exits (hρ : g.Naming ρ) {m n : IdMap Entry} (hmn : g.NamedMap ρ (g.NamedEntry ρ T) m n) :
    List.Forall₂ (g.Named ρ) ((m.filter fun _ e => Edge.anyTo e.edges sink).map fun _ _ => ()).keys
      ((n.filter fun _ e => Edge.anyTo e.edges sink).map fun _ _ => ()).keys := by
  have outside : g.Place sink := Or.inr (by decide)
  have leaving : g.NamedMap ρ (g.NamedEntry ρ T) (m.filter fun _ e => Edge.anyTo e.edges sink)
      (n.filter fun _ e => Edge.anyTo e.edges sink) := by
    refine List.rel_filter (fun p q hpq => ?_) hmn
    have same := hρ.anyTo_eq hpq.2.2 outside
    rw [hρ.outside sink (by decide)] at same
    exact Bool.eq_iff_iff.1 same.symm
  exact NamedMap.keys (S := fun _ _ => True)
    (List.rel_map (fun _ _ hpq => ⟨hpq.1, trivial⟩) leaving)

end Naming

end Steps

/-- The same graph under other names, with other vertices in the place of its own. -/
structure MirroredBy (g c : Graph) (ρ : VertexId → VertexId) (T : Vertex → Vertex → Prop) : Prop where
  naming : g.Naming ρ
  nodes : g.NamedMap ρ (g.NamedEntry ρ T) g.nodes c.nodes
  start : List.Forall₂ (g.NamedEdge ρ) g.start c.start

namespace MirroredBy

variable {T : Vertex → Vertex → Prop} {es ds : List Edge} {id : VertexId}

theorem size_eq (h : g.MirroredBy c ρ T) : c.size = g.size := (List.Forall₂.length_eq h.nodes).symm

theorem edgeCount_eq (h : g.MirroredBy c ρ T) : c.edgeCount = g.edgeCount :=
  (List.rel_flatMap h.nodes fun _ _ hpq => hpq.2.2).length_eq.symm

theorem entry (h : g.MirroredBy c ρ T) (hid : g.has id = true) :
    Alongside (g.NamedEntry ρ T) (g.entry id) (c.entry (ρ id)) := by
  obtain ⟨e, he⟩ := IdMap.contains_iff.1 hid
  have hrel := h.nodes.get? h.naming hid
  rw [he] at hrel
  generalize hd : c.nodes.get? (ρ id) = d at hrel
  cases hrel with
  | some hed => exact ⟨e, _, entry_eq_ok_iff.2 he, entry_eq_ok_iff.2 hd, hed⟩

section Order

theorem named_incoming (h : g.MirroredBy c ρ T) : g.NamedMap ρ (· = ·) g.incoming c.incoming := by
  refine List.rel_foldl ?_ namedMap_empty
    (List.rel_flatMap h.nodes fun _ _ hpq => h.naming.named_forwardTargets hpq.2.2)
  rintro counts counts' hcounts i _ ⟨hi, rfl⟩
  exact hcounts.insert h.naming hi (by rw [hcounts.get?_eq h.naming hi])

theorem alongside_orderFrom (h : g.MirroredBy c ρ T) (rounds : Nat) {r s : Releasing}
    (hrs : g.NamedReleasing ρ r s) {done done' : List VertexId} (hd : List.Forall₂ (g.Named ρ) done done') :
    Alongside (List.Forall₂ (g.Named ρ)) (g.orderFrom rounds r done) (c.orderFrom rounds s done') := by
  induction rounds generalizing r s done done' with
  | zero => exact ⟨done, done', rfl, rfl, hd⟩
  | succ rounds ih =>
    obtain ⟨waiting, queue⟩ := r
    obtain ⟨waiting', queue'⟩ := s
    obtain ⟨hwaiting, hqueue⟩ := hrs
    cases hqueue with
    | nil => exact ⟨done, done', rfl, rfl, hd⟩
    | @cons id _ queue queue' hid hqueue =>
      obtain ⟨hid, rfl⟩ := hid
      refine (h.entry hid).bind fun e d hed => ih ?_ (List.rel_append hd (.cons ⟨hid, rfl⟩ .nil))
      refine List.rel_foldl ?_ ⟨hwaiting, hqueue⟩ (h.naming.named_forwardTargets hed.2)
      rintro r s hrs i _ ⟨hi, rfl⟩
      exact h.naming.named_release hrs hi

/-- The order of the vertices is the same under the new names, and so is the reason why there is none. -/
theorem topologicalOrder_eq (h : g.MirroredBy c ρ T) :
    c.topologicalOrder = g.topologicalOrder.map (List.map ρ) := by
  have start : g.NamedReleasing ρ ⟨g.incoming, g.ids.filter fun id => !g.incoming.contains id⟩
      ⟨c.incoming, c.ids.filter fun id => !c.incoming.contains id⟩ := by
    refine ⟨h.named_incoming, List.rel_filter ?_ h.nodes.keys⟩
    rintro i _ ⟨hi, rfl⟩
    simp only [IdMap.contains, h.named_incoming.get?_eq h.naming hi]
  obtain ⟨done, done', hdone, hdone', hd⟩ :=
    h.alongside_orderFrom (g.size + g.edgeCount + 1) start .nil
  obtain ⟨-, rfl⟩ := forall₂_named.1 hd
  unfold Graph.topologicalOrder
  dsimp only
  rw [h.size_eq, h.edgeCount_eq, hdone, hdone']
  dsimp only
  rw [List.length_map]
  split <;> rfl

end Order

section View

variable {t : VertexId} (h : g.MirroredBy c ρ T) (hT : ∀ v w, T v w → w.visible = v.visible)

include h hT

theorem alongside_shows (ht : g.Place t) :
    Alongside (fun a b => b = a ∧ (a = false → g.has t = true)) (g.shows t) (c.shows (ρ t)) := by
  unfold Graph.shows
  rw [h.naming.isReal ht]
  split <;> rename_i hreal
  · have hid : g.has t = true := ht.resolve_right fun hneg =>
      absurd (of_decide_eq_true hreal) (not_le.2 hneg)
    exact (h.entry hid).bind fun a b hab => ⟨_, _, rfl, rfl, hT _ _ hab.1, fun _ => hid⟩
  · exact ⟨true, true, rfl, rfl, rfl, fun h => by cases h⟩

theorem alongside_behind (depth : Nat) {active active' : List VertexId} {found found' : Found}
    (ha : List.Forall₂ (g.NamedPlace ρ) active active') (hid : g.has id = true)
    (hf : g.NamedFound ρ found found') :
    Alongside (fun a b => List.Forall₂ (g.NamedEdge ρ) a.1 b.1 ∧ g.NamedFound ρ a.2 b.2)
      (g.behind depth active id found) (c.behind depth active' (ρ id) found') := by
  induction depth generalizing active active' id found found' with
  | zero => exact ⟨_, _, rfl, rfl, .nil, hf⟩
  | succ depth ih =>
    have known := hf.get? h.naming hid
    unfold Graph.behind
    generalize found.get? id = a, found'.get? (ρ id) = b at known
    cases known with
    | some hab => exact ⟨_, _, rfl, rfl, hab, hf⟩
    | none =>
      dsimp only
      rw [h.naming.contains ha (Or.inl hid)]
      split
      · exact ⟨_, _, rfl, rfl, .nil, hf⟩
      refine (h.entry hid).bind fun e d hed => ?_
      refine Alongside.bind (R := fun a b => List.Forall₂ (g.NamedEdge ρ) a.1 b.1 ∧ g.NamedFound ρ a.2 b.2)
        (alongside_foldlM hed.2 ?_ ⟨.nil, hf⟩) ?_
      · intro s s' e d hed hs
        obtain ⟨hplace, rfl⟩ := hed
        refine (alongside_shows h hT hplace).bind ?_
        rintro _ shown ⟨rfl, hidden⟩
        cases shown with
        | true => exact ⟨_, _, rfl, rfl, h.naming.named_joinEdge hs.1 ⟨hplace, rfl⟩, hs.2⟩
        | false =>
          refine (ih (.cons ⟨Or.inl hid, rfl⟩ ha) (hidden rfl) hs.2).bind fun a b hab => ?_
          refine ⟨_, _, rfl, rfl, List.rel_foldl ?_ hs.1 hab.1, hab.2⟩
          exact fun old new hold t u htu => h.naming.named_joinEdge hold (NamedEdge.through ⟨hplace, rfl⟩ htu)
      · exact fun a b hab => ⟨_, _, rfl, rfl, hab.1, hab.2.insert h.naming hid hab.1⟩

theorem alongside_collapse {found found' : Found} (hes : List.Forall₂ (g.NamedEdge ρ) es ds)
    (hf : g.NamedFound ρ found found') :
    Alongside (fun a b => List.Forall₂ (g.NamedEdge ρ) a.1 b.1 ∧ g.NamedFound ρ a.2 b.2)
      (g.collapse es found) (c.collapse ds found') := by
  unfold Graph.collapse
  refine Alongside.bind (R := fun a b => g.NamedCollapsing ρ a.1 b.1 ∧ g.NamedFound ρ a.2 b.2)
    (alongside_foldlM hes ?_ ⟨⟨.nil, .nil⟩, hf⟩) fun a b hab => ⟨_, _, rfl, rfl, hab.1.1, hab.2⟩
  intro s s' e d hed hs
  obtain ⟨hplace, rfl⟩ := hed
  refine (alongside_shows h hT hplace).bind ?_
  rintro _ shown ⟨rfl, hidden⟩
  cases shown with
  | true => exact ⟨_, _, rfl, rfl, h.naming.named_direct hs.1 ⟨hplace, rfl⟩, hs.2⟩
  | false =>
    rw [h.size_eq]
    refine (alongside_behind h hT (g.size + 1) .nil (hidden rfl) hs.2).bind fun a b hab => ?_
    refine ⟨_, _, rfl, rfl, List.rel_foldl ?_ hs.1 hab.1, hab.2⟩
    exact fun old new hold t u htu => h.naming.named_indirect hold (NamedEdge.through ⟨hplace, rfl⟩ htu)

theorem alongside_collapseEntries (i j : Nat) {l k : List (VertexId × Entry)} {made made' : IdMap Entry}
    {found found' : Found}
    (hl : List.Forall₂ (fun p q => g.Named ρ p.1 q.1 ∧ g.NamedEntry ρ T p.2 q.2) l k)
    (hm : g.NamedMap ρ (g.NamedEntry ρ T) made made') (hf : g.NamedFound ρ found found') :
    Alongside (fun a b => g.NamedMap ρ (g.NamedEntry ρ T) a.1 b.1 ∧ g.NamedFound ρ a.2 b.2)
      (g.collapseEntries i l made found) (c.collapseEntries j k made' found') := by
  induction hl generalizing made made' found found' with
  | nil => exact ⟨_, _, rfl, rfl, hm, hf⟩
  | @cons p q l k hpq _ ih =>
    obtain ⟨id, e⟩ := p
    obtain ⟨id', d⟩ := q
    obtain ⟨⟨hid, rfl⟩, hvertex, hedges⟩ := hpq
    unfold Graph.collapseEntries
    dsimp only at hvertex hedges ⊢
    rw [hT _ _ hvertex]
    split
    · refine (alongside_collapse h hT hedges hf).bind fun a b hab => ih ?_ hab.2
      exact hm.insert h.naming hid ⟨hvertex, hab.1⟩
    · exact ih hm hf

theorem alongside_removeInvisible (i j : Nat) :
    Alongside (fun a b => g.NamedMap ρ (g.NamedEntry ρ T) a.nodes b.nodes ∧
      List.Forall₂ (g.NamedEdge ρ) a.start b.start ∧ List.Forall₂ (g.Named ρ) a.exitIds b.exitIds)
      (removeInvisible i g) (removeInvisible j c) := by
  unfold Graph.removeInvisible
  refine (alongside_collapseEntries h hT i j h.nodes namedMap_empty namedMap_empty).bind fun a b hab => ?_
  refine (alongside_collapse h hT h.start hab.2).bind fun s t hst => ?_
  exact ⟨_, _, rfl, rfl, hab.1, hst.1, h.naming.named_exits hab.1⟩

end View

end MirroredBy

end Graph

end Flow

end StoryFlow
