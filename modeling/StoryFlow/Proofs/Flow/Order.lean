import Mathlib.Algebra.GroupWithZero.Nat
import Mathlib.Data.List.Perm.Subperm
import Mathlib.Logic.Relation
import Mathlib.Order.WellFoundedSet
import StoryFlow.Flow.Order
import StoryFlow.Proofs.Flow.Neighbors

/-! The topological order is complete. The number of edges that a vertex still waits for is the number of
its forward edges from vertices that are not done, so a vertex is in the queue as soon as all vertices
before it are done; vertices that never get there hold a cycle. -/

namespace StoryFlow.Flow.Graph

open Relation

variable {g : Graph} {a b t id : VertexId} {es : List Edge} {done : List VertexId}

def Forward (g : Graph) (a b : VertexId) : Prop :=
  ∃ v es, g.node? a = some (v, es) ∧ ∃ e ∈ es, e.loop = false ∧ e.target = b ∧ 0 ≤ b

theorem Forward.linked (h : g.Forward a b) : g.Linked a b := by
  obtain ⟨v, es, hn, e, he, -, ht⟩ := h
  exact ⟨v, es, hn, e, he, ht⟩

theorem mem_forwardTargets :
    b ∈ forwardTargets es ↔ ∃ e ∈ es, e.loop = false ∧ e.target = b ∧ 0 ≤ b := by
  simp only [forwardTargets, mem_realTargets, List.mem_filter, Bool.not_eq_true', and_assoc]

theorem mem_forwardTargets_edgesOf : b ∈ forwardTargets (g.edgesOf a) ↔ g.Forward a b := by
  rw [mem_forwardTargets]
  constructor
  · rintro ⟨e, he, hrest⟩
    cases hn : g.node? a with
    | none =>
      rw [node?_eq_none_iff, has, IdMap.contains, Option.isSome_eq_false_iff,
        Option.isNone_iff_eq_none] at hn
      simp [edgesOf, edges?, hn] at he
    | some x =>
      rw [edgesOf_of_node? hn] at he
      exact ⟨x.1, x.2, hn, e, he, hrest⟩
  · rintro ⟨v, es, hn, he⟩
    rwa [edgesOf_of_node? hn]

def pending (g : Graph) (done : List VertexId) (t : VertexId) : Nat :=
  ((g.ids.filter fun a => a ∉ done).map fun a => (forwardTargets (g.edgesOf a)).count t).sum

theorem mem_ids : id ∈ g.ids ↔ g.has id = true := by
  rw [has, IdMap.contains_iff, ids, IdMap.mem_keys]

theorem forall_has {p : VertexId → Prop} (h : ∀ id ∈ g.ids, p id) (id : VertexId) (hid : g.has id = true) :
    p id :=
  h id (mem_ids.2 hid)

theorem nodup_ids : g.ids.Nodup :=
  List.Pairwise.imp (fun h => Int.ne_of_lt h) (List.pairwise_map.2 g.nodes.sorted)

theorem pending_eq_zero_iff : g.pending done t = 0 ↔ ∀ a, g.Forward a t → a ∈ done := by
  simp only [pending, List.sum_eq_zero_iff_forall_eq_nat, List.mem_map, List.mem_filter,
    decide_eq_true_eq]
  constructor
  · intro h a ha
    by_contra hd
    have hz := h _ ⟨a, ⟨mem_ids.2 ha.linked.has, hd⟩, rfl⟩
    exact List.count_eq_zero.1 hz (mem_forwardTargets_edgesOf.2 ha)
  · rintro h _ ⟨a, ⟨-, hd⟩, rfl⟩
    exact List.count_eq_zero.2 fun hm => hd (h a (mem_forwardTargets_edgesOf.1 hm))

theorem pending_snoc (hid : g.has id = true) (hd : id ∉ done) :
    g.pending done t =
      g.pending (done ++ [id]) t + (forwardTargets (g.edgesOf id)).count t := by
  have split : ∀ l : List VertexId, l.Nodup → id ∈ l →
      ((l.filter fun a => a ∉ done).map fun a => (forwardTargets (g.edgesOf a)).count t).sum =
        ((l.filter fun a => a ∉ done ++ [id]).map fun a =>
          (forwardTargets (g.edgesOf a)).count t).sum + (forwardTargets (g.edgesOf id)).count t := by
    intro l hl hm
    have hperm := (List.perm_cons_erase hm).filter fun a => a ∉ done
    have hrest : (l.erase id).filter (fun a => a ∉ done) =
        l.filter fun a => a ∉ done ++ [id] := by
      rw [hl.erase_eq_filter, List.filter_filter]
      refine List.filter_congr fun a _ => ?_
      by_cases ha : a = id <;> simp [ha]
    rw [(hperm.map _).sum_eq, List.filter_cons_of_pos (by simpa using hd), hrest, List.map_cons,
      List.sum_cons, Nat.add_comm]
  exact split g.ids nodup_ids (mem_ids.2 hid)

section Counting

theorem get?_foldl_count (l : List VertexId) (m : IdMap Nat) (t : VertexId) :
    ((l.foldl (fun c id => c.insert id ((c.get? id).getD 0 + 1)) m).get? t).getD 0 =
      (m.get? t).getD 0 + l.count t := by
  induction l generalizing m with
  | nil => simp
  | cons x l ih =>
    rw [List.foldl_cons, ih, IdMap.get?_insert, List.count_cons]
    by_cases h : t = x
    · simp [h]
      omega
    · simp [h, Ne.symm h]

theorem contains_foldl_count (l : List VertexId) (m : IdMap Nat) (t : VertexId) :
    (l.foldl (fun c id => c.insert id ((c.get? id).getD 0 + 1)) m).contains t = true ↔
      m.contains t = true ∨ t ∈ l := by
  induction l generalizing m with
  | nil => simp
  | cons x l ih =>
    rw [List.foldl_cons, ih, IdMap.contains, IdMap.get?_insert, List.mem_cons]
    by_cases h : t = x
    · simp [h]
    · simp [h, IdMap.contains]

theorem count_flatMap_entries (t : VertexId) :
    (g.nodes.entries.flatMap fun p => forwardTargets p.2.edges).count t = g.pending [] t := by
  rw [List.count_flatMap, pending]
  simp only [List.not_mem_nil, not_false_eq_true, decide_true, List.filter_true]
  rw [ids, IdMap.keys, List.map_map]
  congr 1
  refine List.map_congr_left fun p hp => ?_
  simp only [Function.comp_apply]
  rw [edgesOf_of_node? (node?_of_mem_entries hp)]

theorem incoming_eq (t : VertexId) : (g.incoming.get? t).getD 0 = g.pending [] t := by
  rw [incoming, get?_foldl_count, count_flatMap_entries]
  simp

theorem contains_incoming : g.incoming.contains t = false ↔ g.pending [] t = 0 := by
  rw [← count_flatMap_entries, List.count_eq_zero, ← Bool.not_eq_true, incoming,
    contains_foldl_count]
  simp

end Counting

section Release

variable {r : Releasing} {x : VertexId}

theorem waiting_release (t : VertexId) : ((release r x).waiting.get? t).getD 0 =
    if t = x then (r.waiting.get? x).getD 0 - 1 else (r.waiting.get? t).getD 0 := by
  rw [release, IdMap.get?_insert]
  split <;> rfl

theorem mem_queue_release (t : VertexId) : t ∈ (release r x).queue ↔
    t ∈ r.queue ∨ (t = x ∧ (r.waiting.get? x).getD 0 - 1 = 0) := by
  rw [release]
  dsimp only
  split <;> rename_i hl <;> simp [hl]

theorem nodup_queue_release (hn : r.queue.Nodup) (hx : x ∉ r.queue) :
    (release r x).queue.Nodup := by
  rw [release]
  dsimp only
  split
  · refine List.nodup_append.2 ⟨hn, List.nodup_singleton _, ?_⟩
    rintro a ha b hb rfl
    rw [List.mem_singleton.1 hb] at ha
    exact hx ha
  · exact hn

theorem foldl_release {ts : List VertexId} {r : Releasing}
    (hc : ∀ t, ts.count t ≤ (r.waiting.get? t).getD 0) (hn : r.queue.Nodup)
    (hq : ∀ t ∈ r.queue, t ∉ ts) :
    (∀ t, ((ts.foldl release r).waiting.get? t).getD 0 =
        (r.waiting.get? t).getD 0 - ts.count t) ∧
      (ts.foldl release r).queue.Nodup ∧
      ∀ t, t ∈ (ts.foldl release r).queue ↔
        t ∈ r.queue ∨ (t ∈ ts ∧ (r.waiting.get? t).getD 0 = ts.count t) := by
  induction ts generalizing r with
  | nil => simp [hn]
  | cons x ts ih =>
    have hx := hc x
    rw [List.count_cons_self] at hx
    have hxq : x ∉ r.queue := fun hm => hq x hm List.mem_cons_self
    have enough : ∀ t, ts.count t ≤ ((release r x).waiting.get? t).getD 0 := by
      intro t
      have ht := hc t
      rw [List.count_cons] at ht
      rw [waiting_release]
      by_cases h : t = x
      · subst h; simp at ht ⊢; omega
      · simp [h, Ne.symm h] at ht ⊢; omega
    have late : ∀ t ∈ (release r x).queue, t ∉ ts := by
      intro t ht hts
      rcases (mem_queue_release t).1 ht with ht | ⟨rfl, hz⟩
      · exact hq t ht (List.mem_cons_of_mem _ hts)
      · have := List.count_pos_iff.2 hts
        omega
    obtain ⟨hw, hnd, hm⟩ := ih enough (nodup_queue_release hn hxq) late
    refine ⟨fun t => ?_, hnd, fun t => ?_⟩
    · rw [List.foldl_cons, hw, waiting_release, List.count_cons]
      by_cases h : t = x
      · subst h; simp; omega
      · simp [h, Ne.symm h]
    · rw [List.foldl_cons, hm, mem_queue_release, waiting_release, List.count_cons, List.mem_cons]
      by_cases h : t = x
      · subst h
        have hpos : t ∈ ts ↔ 0 < ts.count t := List.count_pos_iff.symm
        simp only [hxq, hpos, beq_self_eq_true, if_true, true_or, true_and, false_or]
        omega
      · simp [h, Ne.symm h]

end Release

/-- The state of the loop. The vertices in the queue are those that wait for nothing and are not done. -/
structure Ordered (g : Graph) (r : Releasing) (done : List VertexId) : Prop where
  distinct : (done ++ r.queue).Nodup
  waiting : ∀ t, (r.waiting.get? t).getD 0 = g.pending done t
  ready : ∀ t, t ∈ done ++ r.queue ↔ g.has t = true ∧ g.pending done t = 0
  before : ∀ xs t ys, done = xs ++ t :: ys → ∀ a, g.Forward a t → a ∈ xs

theorem ordered_start : g.Ordered ⟨g.incoming, g.ids.filter fun id => !g.incoming.contains id⟩ [] := by
  refine ⟨nodup_ids.filter _, incoming_eq, fun t => ?_, fun xs t ys h => by simp at h⟩
  rw [List.nil_append, List.mem_filter, mem_ids, Bool.not_eq_true', contains_incoming]

namespace Ordered

variable {r : Releasing} {queue : List VertexId}

theorem head_ready_and_fresh (h : g.Ordered r done) (hq : r.queue = id :: queue) :
    g.has id = true ∧ g.pending done id = 0 ∧ id ∉ done ∧ id ∉ queue := by
  have distinct := h.distinct
  rw [hq] at distinct
  obtain ⟨-, hrest, apart⟩ := List.nodup_append.1 distinct
  obtain ⟨hid, hzero⟩ := (h.ready id).1 (by rw [hq]; simp)
  refine ⟨hid, hzero, fun hm => ?_, (List.nodup_cons.1 hrest).1⟩
  exact apart id hm id List.mem_cons_self rfl

theorem not_mem_forwardTargets_head (h : g.Ordered r done) (hq : r.queue = id :: queue) :
    ∀ t ∈ done ++ r.queue, t ∉ forwardTargets (g.edgesOf id) := by
  obtain ⟨hid, -, hnd, -⟩ := h.head_ready_and_fresh hq
  intro t ht hts
  have hp := ((h.ready t).1 ht).2
  have hpos := List.count_pos_iff.2 hts
  have := g.pending_snoc (t := t) hid hnd
  omega

theorem released (h : g.Ordered r done) (hq : r.queue = id :: queue) :
    let next := (forwardTargets (g.edgesOf id)).foldl release { r with queue }
    (∀ t, (next.waiting.get? t).getD 0 = g.pending (done ++ [id]) t) ∧ next.queue.Nodup ∧
      ∀ t, t ∈ next.queue ↔
        t ∈ queue ∨ (t ∈ forwardTargets (g.edgesOf id) ∧ g.pending (done ++ [id]) t = 0) := by
  obtain ⟨hid, -, hnd, -⟩ := h.head_ready_and_fresh hq
  have distinct := h.distinct
  rw [hq] at distinct
  have snoc := fun t => g.pending_snoc (t := t) hid hnd
  have hw := h.waiting
  have enough : ∀ t, (forwardTargets (g.edgesOf id)).count t ≤ (r.waiting.get? t).getD 0 := by
    intro t
    have := snoc t
    rw [hw]
    omega
  obtain ⟨waiting, nodup, mem⟩ := @foldl_release _ { r with queue } enough
    (List.nodup_cons.1 (List.nodup_append.1 distinct).2.1).2
    fun t ht => h.not_mem_forwardTargets_head hq t (by rw [hq]; simp [show t ∈ queue from ht])
  refine ⟨fun t => ?_, nodup, fun t => ?_⟩
  · rw [waiting]
    change (r.waiting.get? t).getD 0 - _ = _
    have := snoc t
    rw [hw]
    omega
  · rw [mem]
    refine or_congr_right (and_congr_right fun _ => ?_)
    change (r.waiting.get? t).getD 0 = _ ↔ _
    have := snoc t
    rw [hw]
    omega

theorem step (hg : g.Valid) (h : g.Ordered r done) (hq : r.queue = id :: queue) :
    g.Ordered ((forwardTargets (g.edgesOf id)).foldl release { r with queue }) (done ++ [id]) := by
  obtain ⟨hid, hzero, hnd, hnq⟩ := h.head_ready_and_fresh hq
  obtain ⟨waiting, nodup, members⟩ := h.released hq
  have late := h.not_mem_forwardTargets_head hq
  have distinct := h.distinct
  have ready := h.ready
  rw [hq] at distinct late ready
  obtain ⟨hdone, -, apart⟩ := List.nodup_append.1 distinct
  refine ⟨?_, waiting, fun t => ?_, ?_⟩
  · refine List.nodup_append.2 ⟨?_, nodup, ?_⟩
    · refine List.nodup_append.2 ⟨hdone, List.nodup_singleton _, ?_⟩
      rintro a ha b hb rfl
      exact hnd (List.mem_singleton.1 hb ▸ ha)
    · rintro a ha b hb rfl
      have hold : a ∈ done ∨ a = id := by simpa using ha
      rcases (members a).1 hb with hin | ⟨hin, -⟩
      · rcases hold with ha | rfl
        · exact apart a ha a (List.mem_cons_of_mem _ hin) rfl
        · exact hnq hin
      · refine late a ?_ hin
        rcases hold with ha | rfl
        · exact List.mem_append_left _ ha
        · simp
  · have hs := g.pending_snoc (t := t) hid hnd
    have hr := ready t
    simp only [List.mem_append, List.mem_cons, List.not_mem_nil, or_false] at hr ⊢
    rw [members]
    constructor
    · rintro ((hd | rfl) | hqm | ⟨hts, hz⟩)
      · have := hr.1 (Or.inl hd); exact ⟨this.1, by omega⟩
      · exact ⟨hid, by omega⟩
      · have := hr.1 (Or.inr (Or.inr hqm)); exact ⟨this.1, by omega⟩
      · exact ⟨hg.linked_has (mem_forwardTargets_edgesOf.1 hts).linked, hz⟩
    · rintro ⟨ht, hz⟩
      by_cases hts : t ∈ forwardTargets (g.edgesOf id)
      · exact Or.inr (Or.inr ⟨hts, hz⟩)
      · have hc := List.count_eq_zero.2 hts
        rcases hr.2 ⟨ht, by omega⟩ with hd | hd | hd
        · exact Or.inl (Or.inl hd)
        · exact Or.inl (Or.inr hd)
        · exact Or.inr (Or.inl hd)
  · intro xs t ys hsplit a ha
    rcases List.eq_nil_or_concat ys with rfl | ⟨ys, z, rfl⟩
    · obtain ⟨rfl, hlast⟩ := List.append_inj' hsplit rfl
      cases hlast
      exact pending_eq_zero_iff.1 hzero a ha
    · have hsplit' : done ++ [id] = (xs ++ t :: ys) ++ [z] := by simpa using hsplit
      exact h.before xs t ys (List.append_inj' hsplit' rfl).1 a ha

end Ordered

theorem Ordered.length_le {r : Releasing} (h : g.Ordered r done) : done.length ≤ g.size := by
  have hsub : done ⊆ g.ids := fun t ht => mem_ids.2 ((h.ready t).1 (List.mem_append_left _ ht)).1
  rw [← length_ids]
  exact ((List.nodup_append.1 h.distinct).1.subperm hsub).length_le

theorem orderFrom_ok {rounds : Nat} {r : Releasing} (hg : g.Valid) (h : g.Ordered r done)
    (hb : g.size < done.length + rounds) : ∃ result waiting,
      orderFrom g rounds r done = .ok result ∧ g.Ordered ⟨waiting, []⟩ result := by
  induction rounds generalizing r done with
  | zero =>
    have := h.length_le
    omega
  | succ rounds ih =>
    unfold orderFrom
    cases hq : r.queue with
    | nil => exact ⟨done, r.waiting, rfl, hq ▸ h⟩
    | cons id queue =>
      have hid := ((h.ready id).1 (by rw [hq]; simp)).1
      obtain ⟨x, hn⟩ := has_iff.1 hid
      obtain ⟨e, he, heq⟩ := Option.map_eq_some_iff.1 hn
      have hentry : g.entry id = .ok e := by rw [entry, he]
      have hedges : g.edgesOf id = e.edges := by
        rw [edgesOf, edges?, he]
        rfl
      obtain ⟨result, waiting, hr, ho⟩ := ih (h.step hg hq) (by simp; omega)
      refine ⟨result, waiting, ?_, ho⟩
      simp only [hentry]
      rw [← hr, hedges]
      rfl

/-- The vertices in an order in which the source of every forward edge comes before its target. -/
structure TopologicalOrder (g : Graph) (order : List VertexId) : Prop where
  distinct : order.Nodup
  all : ∀ id, id ∈ order ↔ g.has id = true
  before : ∀ xs t ys, order = xs ++ t :: ys → ∀ a, g.Forward a t → a ∈ xs

theorem topologicalOrder_cases (hg : g.Valid) :
    (∃ order, g.topologicalOrder = .ok order ∧ g.TopologicalOrder order) ∨
      ∃ done waiting, g.topologicalOrder = .error (.cyclic (g.size - done.length) g.size) ∧
        g.Ordered ⟨waiting, []⟩ done ∧ done.length ≠ g.size := by
  have enough : g.size < ([] : List VertexId).length + (g.size + g.edgeCount + 1) := by
    rw [List.length_nil]
    omega
  obtain ⟨done, waiting, hr, ho⟩ := orderFrom_ok hg ordered_start enough
  have hsub : done ⊆ g.ids := by
    intro t ht
    exact mem_ids.2 ((ho.ready t).1 (List.mem_append_left _ ht)).1
  have hnd : done.Nodup := by simpa using ho.distinct
  by_cases hlen : done.length = g.size
  · refine Or.inl ⟨done, by simp [topologicalOrder, hr, hlen], hnd, fun id => ?_, ho.before⟩
    have hperm : done.Perm g.ids := by
      refine (hnd.subperm hsub).perm_of_length_le (le_of_eq ?_)
      rw [hlen, length_ids]
    rw [hperm.mem_iff, mem_ids]
  · exact Or.inr ⟨done, waiting, by simp [topologicalOrder, hr, hlen], ho, hlen⟩

/-- Among finitely many vertices that all have one of them in front of them, one leads to itself. -/
theorem exists_cycle {r : VertexId → VertexId → Prop} {s : Set VertexId} (hs : s.Finite) (hne : s.Nonempty)
    (h : ∀ t ∈ s, ∃ a ∈ s, r a t) : ∃ c ∈ s, TransGen r c c := by
  by_contra hno
  let within : VertexId → VertexId → Prop := fun a b => a ∈ s ∧ r a b
  have source : ∀ {a b}, TransGen within a b → a ∈ s := by
    intro a b hab
    obtain ⟨c, hac, -⟩ := TransGen.head'_iff.1 hab
    exact hac.1
  have irrefl : ∀ c, ¬TransGen within c c := fun c hc =>
    hno ⟨c, source hc, TransGen.mono (fun _ _ => And.right) _ _ hc⟩
  have strict : IsStrictOrder VertexId (TransGen within) :=
    { irrefl, trans := fun _ _ _ => TransGen.trans }
  have wf : s.WellFoundedOn (TransGen within) := hs.wellFoundedOn
  obtain ⟨t, ht⟩ := hne
  refine wf.induction (P := fun _ => False) ht fun x hx ih => ?_
  obtain ⟨a, ha, hax⟩ := h x hx
  exact ih a ha (.single ⟨ha, hax⟩)

theorem Ordered.waits {waiting : IdMap Nat} (h : g.Ordered ⟨waiting, []⟩ done) (ht : g.has t = true)
    (hd : t ∉ done) : ∃ a, g.has a = true ∧ a ∉ done ∧ g.Forward a t := by
  by_contra hno
  refine hd ?_
  have hz : g.pending done t = 0 := by
    refine pending_eq_zero_iff.2 fun a ha => ?_
    by_contra had
    exact hno ⟨a, ha.linked.has, had, ha⟩
  simpa using (h.ready t).2 ⟨ht, hz⟩

/-- Without a cycle of forward edges every vertex gets its place. -/
theorem topologicalOrder_ok (hg : g.Valid) (hc : ∀ id, ¬TransGen g.Forward id id) :
    ∃ order, g.topologicalOrder = .ok order ∧ g.TopologicalOrder order := by
  rcases topologicalOrder_cases hg with h | ⟨done, waiting, -, ho, hlen⟩
  · exact h
  exfalso
  let left : Set VertexId := {t | g.has t = true ∧ t ∉ done}
  have finite : left.Finite := g.ids.finite_toSet.subset fun t ht => mem_ids.2 ht.1
  have nonempty : left.Nonempty := by
    by_contra hno
    have hall : g.ids ⊆ done := by
      intro t ht
      by_contra hd
      exact hno ⟨t, mem_ids.1 ht, hd⟩
    have hge := (nodup_ids.subperm hall).length_le
    have hle := ho.length_le
    rw [length_ids] at hge
    omega
  have waits : ∀ t ∈ left, ∃ a ∈ left, g.Forward a t := by
    rintro t ⟨ht, hd⟩
    obtain ⟨a, ha, had, hat⟩ := ho.waits ht hd
    exact ⟨a, ⟨ha, had⟩, hat⟩
  obtain ⟨c, -, hcycle⟩ := exists_cycle finite nonempty waits
  exact hc c hcycle

end StoryFlow.Flow.Graph
