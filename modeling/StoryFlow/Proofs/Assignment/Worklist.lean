import StoryFlow.Proofs.Assignment.History
import StoryFlow.Proofs.Flow.Neighbors

/-! The worklist settles the facts. A vertex that is not in the queue has the facts that follow from the
vertices before it, since a change puts the successors back; with an empty queue this holds everywhere,
and then the facts are right for every path. -/

namespace StoryFlow

open StoryFlow.Flow
open StoryFlow.Flow.Graph

variable {g : Graph} {table : SymbolTable} {w w' : Worklist} {id : VertexId} {v : Vertex}
  {es : List Edge} {x : String}

namespace Facts

/-- The facts where control comes in from the sources, and from the start if that is one of them. -/
structure Joins (fromStart : Prop) (sources : Facts → Prop) (f : Facts) : Prop where
  definite : ∀ x, x ∈ f.definite ↔
    ¬fromStart ∧ (∃ a, sources a) ∧ ∀ a, sources a → x ∈ a.definite
  possible : ∀ x, x ∈ f.possible ↔ ∃ a, sources a ∧ x ∈ a.possible
  locked : ∀ x, x ∈ f.locked ↔ ∃ a, sources a ∧ x ∈ a.locked
  segment : ∀ x, x ∈ f.segment ↔
    ¬fromStart ∧ (∃ a, sources a) ∧ ∀ a, sources a → x ∈ a.segment

theorem mem_common_sources {fromStart : Bool} {sources : List Facts} (set : Facts → VarSet) :
    x ∈ VarSet.common ((if fromStart then [[]] else []) ++ sources.map set) ↔
      ¬fromStart = true ∧ (∃ a, a ∈ sources) ∧ ∀ a ∈ sources, x ∈ set a := by
  rw [VarSet.mem_common]
  cases fromStart with
  | true => simp
  | false =>
    simp only [Bool.false_eq_true, if_false, List.nil_append, not_false_eq_true, true_and, ne_eq,
      List.map_eq_nil_iff, List.forall_mem_map]
    refine and_congr_left' ⟨fun h => List.exists_mem_of_ne_nil _ h, ?_⟩
    rintro ⟨a, ha⟩
    exact List.ne_nil_of_mem ha

theorem mem_union_sources {sources : List Facts} (set : Facts → VarSet) :
    x ∈ (sources.map set).foldl VarSet.union [] ↔ ∃ a, a ∈ sources ∧ x ∈ set a := by
  rw [VarSet.mem_foldl_union]
  simp

theorem joins_joined (fromStart : Bool) (sources : List Facts) :
    Joins (fromStart = true) (· ∈ sources) (joined fromStart sources) :=
  ⟨fun _ => mem_common_sources Facts.definite, fun _ => mem_union_sources Facts.possible,
    fun _ => mem_union_sources Facts.locked, fun _ => mem_common_sources Facts.segment⟩

theorem Joins.below_source {p : Prop} {sources : Facts → Prop} {f a : Facts}
    (h : Joins p sources f) (ha : sources a) : f.Below a := by
  refine ⟨fun x hx => ?_, fun x hx => ?_, fun x hx => ?_, fun x hx => ?_⟩
  · exact ((h.definite x).1 hx).2.2 a ha
  · exact (h.possible x).2 ⟨a, ha, hx⟩
  · exact (h.locked x).2 ⟨a, ha, hx⟩
  · exact ((h.segment x).1 hx).2.2 a ha

theorem Joins.below_start {p : Prop} {sources : Facts → Prop} {f : Facts}
    (h : Joins p sources f) (hp : p) : f.Below {} := by
  refine ⟨fun x hx => ?_, fun x hx => ?_, fun x hx => ?_, fun x hx => ?_⟩
  · exact absurd hp ((h.definite x).1 hx).1
  · cases hx
  · cases hx
  · exact absurd hp ((h.segment x).1 hx).1

/-- Sources that fall, and further ones, bring the join down, as long as there was one at all. -/
theorem Joins.mono {p : Prop} {old new : Facts → Prop} {f f' : Facts} (h : Joins p old f)
    (h' : Joins p new f') (hs : p ∨ ∃ a, old a)
    (hn : ∀ a, old a → ∃ a', new a' ∧ a'.Below a) : f'.Below f := by
  have one : ¬p → ∃ a, old a := fun hp => hs.resolve_left hp
  refine ⟨fun x hx => ?_, fun x hx => ?_, fun x hx => ?_, fun x hx => ?_⟩
  · obtain ⟨hp, -, hall⟩ := (h'.definite x).1 hx
    refine (h.definite x).2 ⟨hp, one hp, fun a ha => ?_⟩
    obtain ⟨a', ha', hb⟩ := hn a ha
    exact hb.definite (hall a' ha')
  · obtain ⟨a, ha, hxa⟩ := (h.possible x).1 hx
    obtain ⟨a', ha', hb⟩ := hn a ha
    exact (h'.possible x).2 ⟨a', ha', hb.possible hxa⟩
  · obtain ⟨a, ha, hxa⟩ := (h.locked x).1 hx
    obtain ⟨a', ha', hb⟩ := hn a ha
    exact (h'.locked x).2 ⟨a', ha', hb.locked hxa⟩
  · obtain ⟨hp, -, hall⟩ := (h'.segment x).1 hx
    refine (h.segment x).2 ⟨hp, one hp, fun a ha => ?_⟩
    obtain ⟨a', ha', hb⟩ := hn a ha
    exact hb.segment (hall a' ha')

end Facts

namespace Worklist

def Feeds (g : Graph) (w : Worklist) (id : VertexId) (f : Facts) : Prop :=
  ∃ a, g.Linked a id ∧ w.after.get? a = some f

theorem joins_factsBefore (g : Graph) (w : Worklist) (id : VertexId) :
    Facts.Joins (Edge.anyTo g.start id = true) (Feeds g w id)
      (w.factsBefore g g.predecessors id) := by
  have heq : Feeds g w id =
      (· ∈ ((g.predecessors.get? id).getD []).filterMap w.after.get?) := by
    funext f
    simp only [Feeds, List.mem_filterMap, mem_predecessors]
  rw [heq]
  exact Facts.joins_joined _ _

theorem factsBefore_congr (h : ∀ a, g.Linked a id → w'.after.get? a = w.after.get? a) :
    w'.factsBefore g g.predecessors id = w.factsBefore g g.predecessors id := by
  unfold factsBefore
  congr 1
  exact List.filterMap_congr fun a ha => h a (mem_predecessors.1 ha)

theorem mem_foldl_enqueue {queue ids : List VertexId} :
    id ∈ ids.foldl enqueue queue ↔ id ∈ queue ∨ id ∈ ids := by
  induction ids generalizing queue with
  | nil => simp
  | cons a ids ih =>
    have one : id ∈ enqueue queue a ↔ id ∈ queue ∨ id = a := by
      unfold enqueue
      split <;> rename_i ha
      · refine (or_iff_left_of_imp ?_).symm
        rintro rfl
        simpa using ha
      · simp
    rw [List.foldl_cons, ih, one, List.mem_cons, or_assoc]

theorem length_foldl_enqueue_le (queue ids : List VertexId) :
    (ids.foldl enqueue queue).length ≤ queue.length + ids.length := by
  induction ids generalizing queue with
  | nil => simp
  | cons a ids ih =>
    have one : (enqueue queue a).length ≤ queue.length + 1 := by
      unfold enqueue
      split <;> simp
    have := ih (enqueue queue a)
    simp only [List.foldl_cons, List.length_cons]
    omega

def keep (g : Graph) (w : Worklist) (id : VertexId) (queue : List VertexId) : Worklist :=
  { w with
    queue
    before := w.before.insert id (w.factsBefore g g.predecessors id)
    visits := w.visits + 1 }

def change (g : Graph) (w : Worklist) (id : VertexId) (queue : List VertexId) (after : Facts) :
    Worklist :=
  { keep g w id queue with
    queue := (g.successors id).foldl enqueue queue
    after := w.after.insert id after }

/-- A visit either finds what it knew, or changes what holds after the vertex and puts its successors
back into the queue. -/
theorem step_cases (table : SymbolTable) {queue : List VertexId} (hq : w.queue = id :: queue)
    (hv : g.node? id = some (v, es)) :
    (∃ old, w.after.get? id = some old ∧
        ((w.factsBefore g g.predecessors id).afterStmt table v.stmt).same old = true ∧
        w.step g table g.predecessors = .ok (keep g w id queue)) ∨
      ((∀ old, w.after.get? id = some old →
          ((w.factsBefore g g.predecessors id).afterStmt table v.stmt).same old = false) ∧
        w.step g table g.predecessors = .ok (change g w id queue
          ((w.factsBefore g g.predecessors id).afterStmt table v.stmt))) := by
  unfold step
  simp only [hq, vertex?_of_node? hv]
  split <;> rename_i h
  · obtain ⟨old, hold, hsame⟩ := Option.any_eq_true _ _ |>.1 h
    exact Or.inl ⟨old, hold, hsame, rfl⟩
  · refine Or.inr ⟨fun old hold => ?_, rfl⟩
    rw [hold] at h
    simpa using h

/-- Vertices that are not in the queue have the facts that follow from the vertices before them. -/
structure Stable (g : Graph) (table : SymbolTable) (w : Worklist) : Prop where
  real : ∀ id ∈ w.queue, g.has id = true
  settled : ∀ id v es, g.node? id = some (v, es) → id ∉ w.queue →
    w.before.get? id = some (w.factsBefore g g.predecessors id) ∧ ∃ a, w.after.get? id = some a ∧
      ((w.factsBefore g g.predecessors id).afterStmt table v.stmt).same a = true

theorem Stable.step {w' : Worklist} (hg : g.Valid) (h : Stable g table w)
    (hw : w.step g table g.predecessors = .ok w') : Stable g table w' := by
  cases hq : w.queue with
  | nil =>
    unfold Worklist.step at hw
    simp only [hq] at hw
    cases hw
    exact h
  | cons id queue =>
    obtain ⟨⟨v, es⟩, hv⟩ := has_iff.1 (h.real id (by rw [hq]; exact List.mem_cons_self))
    have hrest : ∀ k ∈ queue, g.has k = true :=
      fun k hk => h.real k (by rw [hq]; exact List.mem_cons_of_mem _ hk)
    have old : ∀ k, k ≠ id → k ∉ queue → k ∉ w.queue := by
      intro k hne hk hm
      rw [hq] at hm
      exact (List.mem_cons.1 hm).elim hne hk
    rcases step_cases table hq hv with ⟨a, ha, hsame, hstep⟩ | ⟨-, hstep⟩
    · cases hstep.symm.trans hw
      refine ⟨hrest, fun k x ds hk hkq => ?_⟩
      by_cases hid : k = id
      · subst hid
        cases hk.symm.trans hv
        exact ⟨by rw [keep, IdMap.get?_insert, if_pos rfl]; rfl, a, ha, hsame⟩
      · obtain ⟨hb, hafter⟩ := h.settled k x ds hk (old k hid hkq)
        exact ⟨by rw [keep, IdMap.get?_insert, if_neg hid]; exact hb, hafter⟩
    · cases hstep.symm.trans hw
      refine ⟨fun k hk => ?_, fun k x ds hk hkq => ?_⟩
      · rcases mem_foldl_enqueue.1 hk with hk | hk
        · exact hrest k hk
        · exact hg.linked_has (mem_successors.1 hk)
      · -- the changed vertex does not lead here, or this vertex would be in the queue
        have hkq' : ¬(k ∈ queue ∨ k ∈ g.successors id) := fun hm => hkq (mem_foldl_enqueue.2 hm)
        obtain ⟨hkq, hks⟩ := not_or.1 hkq'
        have same : ∀ a, g.Linked a k → (change g w id queue
            ((w.factsBefore g g.predecessors id).afterStmt table v.stmt)).after.get? a =
              w.after.get? a := by
          intro a ha
          rw [change, IdMap.get?_insert, if_neg]
          rintro rfl
          exact hks (mem_successors.2 ha)
        rw [factsBefore_congr same]
        by_cases hid : k = id
        · subst hid
          cases hk.symm.trans hv
          refine ⟨by simp [change, keep],
            (w.factsBefore g g.predecessors k).afterStmt table v.stmt, by simp [change], ?_⟩
          exact Facts.same_iff.2 ⟨.refl _, .refl _⟩
        · obtain ⟨hb, a, ha, hsame⟩ := h.settled k x ds hk (old k hid hkq)
          refine ⟨?_, a, ?_, hsame⟩
          · simpa [change, keep, hid] using hb
          · simpa [change, hid] using ha

theorem Stable.run {bound : Nat} (hg : g.Valid) (h : Stable g table w)
    (hw : w.run g table g.predecessors bound = .ok w') : Stable g table w' ∧ w'.queue = [] := by
  induction bound generalizing w with
  | zero =>
    unfold Worklist.run at hw
    split at hw <;> rename_i hq
    · cases hw
      exact ⟨h, List.isEmpty_iff.1 hq⟩
    · cases hw
  | succ bound ih =>
    unfold Worklist.run at hw
    split at hw <;> rename_i hq
    · cases hw
      exact ⟨h, List.isEmpty_iff.1 hq⟩
    · obtain ⟨w₁, hstep, hrun⟩ := ok_of_bind_ok hw
      exact ih (h.step hg hstep) hrun

theorem stable_start {order : List VertexId} (h : ∀ id, id ∈ order ↔ g.has id = true) :
    Stable g table { queue := order } := by
  refine ⟨fun id hid => (h id).1 hid, fun id v es hn hid => ?_⟩
  exact absurd ((h id).2 (has_iff.2 ⟨_, hn⟩)) hid

end Worklist

def Facts.ofPath (table : SymbolTable) (vs : List Vertex) : Facts :=
  Facts.ofHistory table (vs.filterMap Vertex.stmt)

theorem Facts.ofPath_snoc (vs : List Vertex) (v : Vertex) :
    Facts.ofPath table (vs ++ [v]) = (Facts.ofPath table vs).afterStmt table v.stmt := by
  unfold Facts.ofPath
  rw [List.filterMap_append]
  cases hv : v.stmt with
  | none => simp [hv, Facts.afterStmt]
  | some s =>
    rw [← Facts.ofHistory_snoc]
    simp [hv]

theorem Flow.Graph.leads_snoc {ds : List Edge} {vs : List Vertex} {t : VertexId} :
    g.Leads ds (vs ++ [v]) t ↔
      ∃ id es, g.Leads ds vs id ∧ g.node? id = some (v, es) ∧ ∃ e ∈ es, e.target = t := by
  induction vs generalizing ds with
  | nil =>
    constructor
    · rintro ⟨e, he, next, hn, hl⟩
      exact ⟨e.target, next, ⟨e, he, rfl⟩, hn, hl⟩
    · rintro ⟨id, es, ⟨e, he, rfl⟩, hn, hl⟩
      exact ⟨e, he, es, hn, hl⟩
  | cons y vs ih =>
    constructor
    · rintro ⟨e, he, next, hn, hl⟩
      obtain ⟨id, es, hvs, hv, ht⟩ := ih.1 hl
      exact ⟨id, es, ⟨e, he, next, hn, hvs⟩, hv, ht⟩
    · rintro ⟨id, es, ⟨e, he, next, hn, hvs⟩, hv, ht⟩
      exact ⟨e, he, next, hn, ih.2 ⟨id, es, hvs, hv, ht⟩⟩

theorem Worklist.Stable.below_ofPath (hr : ∀ id, g.has id = true → 0 ≤ id)
    (h : Stable g table w) (hq : w.queue = []) {vs : List Vertex} (hid : g.has id = true)
    (hl : g.Reaches vs id) :
    (w.factsBefore g g.predecessors id).Below (Facts.ofPath table vs) := by
  induction vs using List.reverseRecOn generalizing id with
  | nil =>
    obtain ⟨e, he, rfl⟩ := hl
    exact (joins_factsBefore g w e.target).below_start (Edge.anyTo_iff.2 ⟨e, he, rfl⟩)
  | append_singleton vs u ih =>
    obtain ⟨a, es, hvs, hu, ht⟩ := leads_snoc.1 hl
    have hlinked : g.Linked a id := by
      obtain ⟨e, he, het⟩ := ht
      exact ⟨u, es, hu, e, he, het, hr id hid⟩
    obtain ⟨-, f, hf, hsame⟩ := h.settled a u es hu (by rw [hq]; exact List.not_mem_nil)
    have hafter : f.Below (Facts.ofPath table (vs ++ [u])) := by
      rw [Facts.ofPath_snoc]
      exact (Facts.same_iff.1 hsame).2.trans ((ih (has_iff.2 ⟨_, hu⟩) hvs).afterStmt table u.stmt)
    exact ((joins_factsBefore g w id).below_source ⟨a, hlinked, hf⟩).trans hafter

end StoryFlow
