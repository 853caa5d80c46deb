import Mathlib.Combinatorics.Pigeonhole
import Mathlib.Data.Finset.Option
import Mathlib.Data.Fintype.BigOperators
import StoryFlow.Proofs.Assignment.Descent
import StoryFlow.Proofs.Flow.Order

/-! When the worklist goes on for ever. What it does next depends on the queue and on what holds after the
vertices, up to the order in which variables are listed, and there are only so many of these states. So a
worklist that comes back to a state never ends, and one that ends does so within the bound. -/

namespace StoryFlow

open StoryFlow.Flow
open StoryFlow.Flow.Graph

namespace Facts

variable {f f' : Facts}

def sets (f : Facts) : Finset String × Finset String × Finset String × Finset String :=
  (f.definite.toFinset, f.possible.toFinset, f.locked.toFinset, f.segment.toFinset)

theorem sets_eq_iff : f.sets = f'.sets ↔ f.Below f' ∧ f'.Below f := by
  simp only [sets, Prod.mk.injEq, Finset.ext_iff, List.mem_toFinset]
  constructor
  · rintro ⟨hd, hp, hl, hs⟩
    exact ⟨⟨fun x => (hd x).1, fun x => (hp x).2, fun x => (hl x).2, fun x => (hs x).1⟩,
      fun x => (hd x).2, fun x => (hp x).1, fun x => (hl x).1, fun x => (hs x).2⟩
  · rintro ⟨a, b⟩
    exact ⟨fun x => ⟨fun h => a.definite h, fun h => b.definite h⟩,
      fun x => ⟨fun h => b.possible h, fun h => a.possible h⟩,
      fun x => ⟨fun h => b.locked h, fun h => a.locked h⟩,
      fun x => ⟨fun h => a.segment h, fun h => b.segment h⟩⟩

theorem same_iff_sets : f.same f' = true ↔ f.sets = f'.sets := same_iff.trans sets_eq_iff.symm

theorem sets_afterStmt (table : SymbolTable) (s : Option Stmt) (h : f.sets = f'.sets) :
    (f.afterStmt table s).sets = (f'.afterStmt table s).sets := by
  obtain ⟨hb, hb'⟩ := sets_eq_iff.1 h
  exact sets_eq_iff.2 ⟨hb.afterStmt table s, hb'.afterStmt table s⟩

theorem Joins.below_of_sets {p : Prop} {sources sources' : Facts → Prop} (h : Joins p sources f)
    (h' : Joins p sources' f') (hs : ∀ a, sources a → ∃ a', sources' a' ∧ a'.sets = a.sets)
    (hs' : ∀ a', sources' a' → ∃ a, sources a ∧ a.sets = a'.sets) : f.Below f' := by
  have back : ∀ {q : Facts → Prop}, (∀ a a', a.sets = a'.sets → q a → q a') →
      (∃ a, sources a) ∧ (∀ a, sources a → q a) → (∃ a', sources' a') ∧ ∀ a', sources' a' → q a' := by
    rintro q hq ⟨⟨a, ha⟩, hall⟩
    obtain ⟨a', ha', -⟩ := hs a ha
    refine ⟨⟨a', ha'⟩, fun b' hb' => ?_⟩
    obtain ⟨b, hb, heq⟩ := hs' b' hb'
    exact hq b b' heq (hall b hb)
  refine ⟨fun x hx => ?_, fun x hx => ?_, fun x hx => ?_, fun x hx => ?_⟩
  · obtain ⟨hp, hall⟩ := (h.definite x).1 hx
    exact (h'.definite x).2 ⟨hp, back (fun a a' heq hxa => (sets_eq_iff.1 heq).1.definite hxa) hall⟩
  · obtain ⟨a', ha', hxa⟩ := (h'.possible x).1 hx
    obtain ⟨a, ha, heq⟩ := hs' a' ha'
    exact (h.possible x).2 ⟨a, ha, (sets_eq_iff.1 heq).1.possible hxa⟩
  · obtain ⟨a', ha', hxa⟩ := (h'.locked x).1 hx
    obtain ⟨a, ha, heq⟩ := hs' a' ha'
    exact (h.locked x).2 ⟨a, ha, (sets_eq_iff.1 heq).1.locked hxa⟩
  · obtain ⟨hp, hall⟩ := (h.segment x).1 hx
    exact (h'.segment x).2 ⟨hp, back (fun a a' heq hxa => (sets_eq_iff.1 heq).1.segment hxa) hall⟩

end Facts

namespace Worklist

variable {g : Graph} {table : SymbolTable} {w w' u u' : Worklist} {id : VertexId} {v : Vertex}
  {es : List Edge} {queue : List VertexId} {k n : Nat}

def state (w : Worklist) : List VertexId ×
    (VertexId → Option (Finset String × Finset String × Finset String × Finset String)) :=
  (w.queue, fun id => (w.after.get? id).map Facts.sets)

theorem after_of_state (h : w.state = w'.state) (id : VertexId) :
    (w.after.get? id).map Facts.sets = (w'.after.get? id).map Facts.sets :=
  congrFun (Prod.mk.inj h).2 id

theorem sets_factsBefore (h : w.state = w'.state) (id : VertexId) :
    (w.factsBefore g g.predecessors id).sets = (w'.factsBefore g g.predecessors id).sets := by
  have feeds : ∀ {w w' : Worklist}, w.state = w'.state → ∀ f, Feeds g w id f →
      ∃ f', Feeds g w' id f' ∧ f'.sets = f.sets := by
    rintro w w' h f ⟨a, ha, hf⟩
    have heq := after_of_state h a
    rw [hf, Option.map_some] at heq
    obtain ⟨f', hf', hsets⟩ := Option.map_eq_some_iff.1 heq.symm
    exact ⟨f', ⟨a, ha, hf'⟩, hsets⟩
  have join := joins_factsBefore g w id
  have join' := joins_factsBefore g w' id
  exact Facts.sets_eq_iff.2 ⟨join.below_of_sets join' (feeds h) (feeds h.symm),
    join'.below_of_sets join (feeds h.symm) (feeds h)⟩

theorem state_keep (g : Graph) (w : Worklist) (id : VertexId) (queue : List VertexId) :
    (keep g w id queue).state = (queue, w.state.2) := rfl

theorem state_change (g : Graph) (w : Worklist) (id : VertexId) (queue : List VertexId) (f : Facts) :
    (change g w id queue f).state =
      ((g.successors id).foldl enqueue queue, Function.update w.state.2 id (some f.sets)) := by
  refine Prod.ext rfl (funext fun a => ?_)
  change ((w.after.insert id f).get? a).map Facts.sets = Function.update w.state.2 id (some f.sets) a
  rw [IdMap.get?_insert]
  by_cases ha : a = id
  · subst ha
    rw [if_pos rfl, Function.update_self]
    rfl
  · rw [if_neg ha, Function.update_of_ne ha]
    rfl

theorem step_of_state (table : SymbolTable) (h : w.state = w'.state) (hq : w.queue = id :: queue)
    (hv : g.node? id = some (v, es)) : ∃ u u', w.step g table g.predecessors = .ok u ∧
      w'.step g table g.predecessors = .ok u' ∧ u.state = u'.state := by
  have hq' : w'.queue = id :: queue := (Prod.mk.inj h).1.symm.trans hq
  have rest : w.state.2 = w'.state.2 := congrArg Prod.snd h
  have sets := Facts.sets_afterStmt table v.stmt (sets_factsBefore (g := g) h id)
  have known := after_of_state h id
  -- both find what they knew, or both change
  rcases step_cases table hq hv with ⟨old, hold, hsame, hstep⟩ | ⟨hne, hstep⟩ <;>
    rcases step_cases table hq' hv with ⟨old', hold', hsame', hstep'⟩ | ⟨hne', hstep'⟩
  · exact ⟨_, _, hstep, hstep', by rw [state_keep, state_keep, rest]⟩
  · rw [hold, Option.map_some] at known
    obtain ⟨old', hold', heq⟩ := Option.map_eq_some_iff.1 known.symm
    have hsame' := Facts.same_iff_sets.2 ((sets.symm.trans (Facts.same_iff_sets.1 hsame)).trans heq.symm)
    rw [hne' old' hold'] at hsame'
    cases hsame'
  · rw [hold', Option.map_some] at known
    obtain ⟨old, hold, heq⟩ := Option.map_eq_some_iff.1 known
    have hsame := Facts.same_iff_sets.2 ((sets.trans (Facts.same_iff_sets.1 hsame')).trans heq.symm)
    rw [hne old hold] at hsame
    cases hsame
  · exact ⟨_, _, hstep, hstep', by rw [state_change, state_change, rest, sets]⟩

/-- A worklist on a graph: the queue has vertices, each at most once, and what is known is known of
vertices and about the declared variables. -/
structure Fits (g : Graph) (table : SymbolTable) (w : Worklist) : Prop where
  real : ∀ id ∈ w.queue, g.has id = true
  distinct : w.queue.Nodup
  visited : ∀ id f, w.after.get? id = some f → g.has id = true
  within : ∀ id f, w.after.get? id = some f → Facts.Within table.variableNames f

theorem fits_start {order : List VertexId} (hall : ∀ id ∈ order, g.has id = true) (hd : order.Nodup) :
    Fits g table { queue := order } := by
  refine ⟨hall, hd, ?_, ?_⟩ <;>
  · intro id f hf
    cases hf

theorem nodup_foldl_enqueue {ids : List VertexId} (h : queue.Nodup) : (ids.foldl enqueue queue).Nodup := by
  refine List.foldlRecOn ids enqueue h fun queue hq a _ => ?_
  unfold enqueue
  split <;> rename_i ha
  · exact hq
  · rw [← List.concat_eq_append]
    exact hq.concat (by simpa using ha)

theorem Fits.step (hg : g.Valid) (h : Fits g table w) (hq : w.queue ≠ []) :
    ∃ u, w.step g table g.predecessors = .ok u ∧ Fits g table u := by
  obtain ⟨id, queue, hq⟩ := List.exists_cons_of_ne_nil hq
  obtain ⟨hid, hrest⟩ := List.forall_mem_cons.1 (hq ▸ h.real)
  have distinct : queue.Nodup := (List.nodup_cons.1 (hq ▸ h.distinct)).2
  obtain ⟨⟨v, es⟩, hv⟩ := has_iff.1 hid
  rcases step_cases table hq hv with ⟨old, -, -, hstep⟩ | ⟨-, hstep⟩
  · exact ⟨_, hstep, hrest, distinct, h.visited, h.within⟩
  · refine ⟨_, hstep, fun a ha => ?_, nodup_foldl_enqueue distinct, fun a f hf => ?_, fun a f hf => ?_⟩
    · rcases mem_foldl_enqueue.1 ha with ha | ha
      · exact hrest a ha
      · exact hg.linked_has (mem_successors.1 ha)
    · rw [change, IdMap.get?_insert] at hf
      split at hf <;> rename_i ha
      · exact ha ▸ hid
      · exact h.visited a f hf
    · rw [change, IdMap.get?_insert] at hf
      split at hf
      · cases hf
        refine Facts.Within.afterStmt ((joins_factsBefore g w id).within ?_) v.stmt
        rintro f ⟨b, -, hb⟩
        exact h.within b f hb
      · exact h.within a f hf

def Ends (g : Graph) (table : SymbolTable) (w : Worklist) (k : Nat) : Prop :=
  ∃ u, w.run g table g.predecessors k = .ok u

theorem run_of_empty (hq : w.queue = []) (k : Nat) : w.run g table g.predecessors k = .ok w := by
  cases k <;> simp [Worklist.run, hq]

theorem run_succ (hq : w.queue ≠ []) (hs : w.step g table g.predecessors = .ok u) (k : Nat) :
    w.run g table g.predecessors (k + 1) = u.run g table g.predecessors k := by
  rw [Worklist.run, if_neg (by simpa using hq), hs]
  rfl

theorem run_mono (hg : g.Valid) (hw : Fits g table w) (h : w.run g table g.predecessors k = .ok u)
    (hk : k ≤ n) : w.run g table g.predecessors n = .ok u := by
  induction k generalizing w n with
  | zero =>
    unfold Worklist.run at h
    split at h <;> rename_i hq
    · cases h
      exact run_of_empty (List.isEmpty_iff.1 hq) n
    · cases h
  | succ k ih =>
    by_cases hq : w.queue = []
    · rw [run_of_empty hq] at h ⊢
      exact h
    · obtain ⟨w₁, hstep, hw₁⟩ := hw.step hg hq
      obtain ⟨n, rfl⟩ : ∃ m, n = m + 1 := ⟨n - 1, by omega⟩
      rw [run_succ hq hstep] at h ⊢
      exact ih hw₁ h (Nat.le_of_succ_le_succ hk)

theorem ends_or_unsettled (hg : g.Valid) (hw : Fits g table w) (k : Nat) :
    w.Ends g table k ∨ w.run g table g.predecessors k = .error .unsettled := by
  induction k generalizing w with
  | zero =>
    by_cases hq : w.queue = []
    · exact Or.inl ⟨w, run_of_empty hq 0⟩
    · exact Or.inr (by simp [Worklist.run, hq])
  | succ k ih =>
    by_cases hq : w.queue = []
    · exact Or.inl ⟨w, run_of_empty hq _⟩
    · obtain ⟨w₁, hstep, hw₁⟩ := hw.step hg hq
      unfold Ends
      rw [run_succ hq hstep]
      exact ih hw₁

theorem ends_of_state (hg : g.Valid) (hw : Fits g table w) (hw' : Fits g table w')
    (h : w.state = w'.state) (hk : w.Ends g table k) : w'.Ends g table k := by
  have queues : w.queue = w'.queue := (Prod.mk.inj h).1
  induction k generalizing w w' with
  | zero =>
    by_cases hq : w'.queue = []
    · exact ⟨w', run_of_empty hq 0⟩
    · obtain ⟨u, hu⟩ := hk
      rw [← queues] at hq
      simp [Worklist.run, hq] at hu
  | succ k ih =>
    by_cases hq : w.queue = []
    · exact ⟨w', run_of_empty (queues ▸ hq) _⟩
    · obtain ⟨id, queue, hcons⟩ := List.exists_cons_of_ne_nil hq
      obtain ⟨⟨v, es⟩, hv⟩ := has_iff.1 (hw.real id (by rw [hcons]; exact List.mem_cons_self))
      obtain ⟨u, u', hu, hu', hstate⟩ := step_of_state table h hcons hv
      obtain ⟨_, hfit, hwu⟩ := hw.step hg hq
      obtain ⟨_, hfit', hwu'⟩ := hw'.step hg (queues ▸ hq)
      cases hfit.symm.trans hu
      cases hfit'.symm.trans hu'
      unfold Ends at hk ⊢
      rw [run_succ hq hu] at hk
      rw [run_succ (queues ▸ hq) hu']
      exact ih hwu hwu' hstate hk (Prod.mk.inj hstate).1

def Becomes (g : Graph) (table : SymbolTable) (k : Nat) (w u : Worklist) : Prop :=
  ∀ n, w.run g table g.predecessors (k + n) = u.run g table g.predecessors n

theorem becomes_of_not_ends (hg : g.Valid) (hw : Fits g table w) (hk : ¬w.Ends g table k) :
    ∃ u, Fits g table u ∧ Becomes g table k w u := by
  induction k generalizing w with
  | zero => exact ⟨w, hw, fun n => by rw [Nat.zero_add]⟩
  | succ k ih =>
    have hq : w.queue ≠ [] := fun hq => hk ⟨w, run_of_empty hq _⟩
    obtain ⟨w₁, hstep, hw₁⟩ := hw.step hg hq
    unfold Ends at hk
    rw [run_succ hq hstep] at hk
    obtain ⟨u, hu, hbecomes⟩ := ih hw₁ hk
    refine ⟨u, hu, fun n => ?_⟩
    rw [Nat.succ_add, run_succ hq hstep]
    exact hbecomes n

/-- A worklist that comes back to its state never ends. -/
theorem not_ends_of_recurrence (hg : g.Valid) (hw : Fits g table w) (hu : Fits g table u)
    (hq : w.queue ≠ []) (hb : Becomes g table (n + 1) w u) (hs : u.state = w.state) (k : Nat) :
    ¬w.Ends g table k := by
  induction k using Nat.strong_induction_on with
  | _ k ih =>
    rintro ⟨w', hrun⟩
    by_cases hle : n + 1 ≤ k
    · -- once round less, it would end as well
      obtain ⟨m, rfl⟩ : ∃ m, k = n + 1 + m := ⟨k - (n + 1), by omega⟩
      rw [hb m] at hrun
      exact ih m (by omega) (ends_of_state hg hu hw hs ⟨w', hrun⟩)
    · have early := run_mono hg hw hrun (show k ≤ n + 1 + 0 by omega)
      rw [hb 0] at early
      obtain ⟨w₀, hw₀⟩ := ends_of_state hg hu hw hs ⟨w', early⟩
      simp [Worklist.run, hq] at hw₀

def advance (g : Graph) (table : SymbolTable) : Nat → Worklist → Except Fault Worklist
  | 0, w => .ok w
  | n + 1, w => do
    let w ← w.step g table g.predecessors
    if w.queue.isEmpty then .error .unsettled else advance g table n w

theorem becomes_of_advance (hg : g.Valid) (hw : Fits g table w) (hq : w.queue ≠ [])
    (h : advance g table k w = .ok u) : Fits g table u ∧ u.queue ≠ [] ∧ Becomes g table k w u := by
  induction k generalizing w with
  | zero =>
    cases h
    exact ⟨hw, hq, fun n => by rw [Nat.zero_add]⟩
  | succ k ih =>
    obtain ⟨w₁, hstep, hw₁⟩ := hw.step hg hq
    rw [advance, hstep] at h
    by_cases hq₁ : w₁.queue = []
    · simp [bind, Except.bind, hq₁] at h
    · obtain ⟨hu, hqu, hbecomes⟩ := ih hw₁ hq₁ (by simpa [bind, Except.bind, hq₁] using h)
      refine ⟨hu, hqu, fun n => ?_⟩
      rw [Nat.succ_add, run_succ hq hstep]
      exact hbecomes n

theorem state_of_entries (hq : w.queue = w'.queue) (ha : w.after.entries = w'.after.entries) :
    w.state = w'.state := by
  have same : ∀ id, w.after.get? id = w'.after.get? id := fun id => by rw [IdMap.get?, ha, IdMap.get?]
  exact Prod.ext hq (funext fun id => congrArg (Option.map Facts.sets) (same id))

theorem unsettled_of_recurrence (hg : g.Valid) (hw : Fits g table w) (hq : w.queue ≠ [])
    (ha : advance g table k w = .ok u) (hr : advance g table (n + 1) u = .ok u')
    (hs : u'.state = u.state) (m : Nat) : w.run g table g.predecessors m = .error .unsettled := by
  obtain ⟨hu, hqu, hcomes⟩ := becomes_of_advance hg hw hq ha
  obtain ⟨hu', -, hround⟩ := becomes_of_advance hg hu hqu hr
  refine (ends_or_unsettled hg hw m).resolve_left ?_
  rintro ⟨w', hrun⟩
  have late := run_mono hg hw hrun (Nat.le_add_left m k)
  rw [hcomes m] at late
  exact not_ends_of_recurrence hg hu hu' hqu hround hs m ⟨w', late⟩

section States

/-- The state, as a row for the queue and a row for the vertices. -/
def code (g : Graph) (w : Worklist) : (Fin g.size → Option VertexId) ×
    (Fin g.size → Option (Finset String × Finset String × Finset String × Finset String)) :=
  (fun i => w.queue[i.val]?, fun i => (g.ids[i.val]?).bind w.state.2)

def codes (g : Graph) (table : SymbolTable) : Finset ((Fin g.size → Option VertexId) ×
    (Fin g.size → Option (Finset String × Finset String × Finset String × Finset String))) :=
  let subsets := table.variableNames.toFinset.powerset
  (Fintype.piFinset fun _ => g.ids.toFinset.insertNone) ×ˢ
    Fintype.piFinset fun _ => (subsets ×ˢ subsets ×ˢ subsets ×ˢ subsets).insertNone

theorem card_codes_le (g : Graph) (table : SymbolTable) : (codes g table).card ≤ bound g table := by
  have ids : g.ids.toFinset.card ≤ g.size := (List.toFinset_card_le _).trans_eq (length_ids g)
  have names : 2 ^ table.variableNames.toFinset.card ≤ 2 ^ table.variableNames.length :=
    Nat.pow_le_pow_right (by omega) (List.toFinset_card_le _)
  have four : ∀ b : Nat, b * (b * (b * b)) = b ^ 4 := fun b => by ring
  rw [codes, Finset.card_product, Fintype.card_piFinset_const, Fintype.card_piFinset_const,
    Finset.card_insertNone, Finset.card_insertNone, Finset.card_product, Finset.card_product,
    Finset.card_product, Finset.card_powerset, four, bound, Nat.pow_eq, Nat.pow_eq, Nat.mul_pow]
  refine Nat.mul_le_mul (Nat.pow_le_pow_left (by omega) _) (Nat.pow_le_pow_left ?_ _)
  calc (2 ^ table.variableNames.toFinset.card) ^ 4 + 1
      ≤ (2 ^ table.variableNames.length) ^ 4 + 1 := by
        have := Nat.pow_le_pow_left names 4
        omega
    _ = 16 ^ table.variableNames.length + 1 := by rw [← Nat.pow_mul, Nat.mul_comm, Nat.pow_mul]

theorem Fits.code_mem (h : Fits g table w) : code g w ∈ codes g table := by
  have within : ∀ {set : List String}, set ⊆ table.variableNames →
      set.toFinset ∈ table.variableNames.toFinset.powerset := by
    intro set hs
    rw [Finset.mem_powerset]
    intro x hx
    exact List.mem_toFinset.2 (hs (List.mem_toFinset.1 hx))
  refine Finset.mem_product.2 ⟨Fintype.mem_piFinset.2 fun i => ?_, Fintype.mem_piFinset.2 fun i => ?_⟩
  · refine Finset.mem_insertNone.2 fun id hid => ?_
    exact List.mem_toFinset.2 (mem_ids.2 (h.real id (List.mem_of_getElem? hid)))
  · refine Finset.mem_insertNone.2 fun sets hsets => ?_
    obtain ⟨id, -, hid⟩ := Option.bind_eq_some_iff.1 hsets
    obtain ⟨f, hf, rfl⟩ := Option.map_eq_some_iff.1 hid
    have hw := h.within id f hf
    simp only [Facts.sets, Finset.mem_product]
    exact ⟨within hw.definite, within hw.possible, within hw.locked, within hw.segment⟩

theorem Fits.length_queue_le (h : Fits g table w) : w.queue.length ≤ g.size := by
  rw [← length_ids]
  exact (h.distinct.subperm fun id hid => mem_ids.2 (h.real id hid)).length_le

theorem state_of_code (hw : Fits g table w) (hw' : Fits g table w') (h : code g w = code g w') :
    w.state = w'.state := by
  obtain ⟨hq, ha⟩ := Prod.mk.inj h
  refine Prod.ext (List.ext_getElem? fun i => ?_) (funext fun id => ?_)
  · by_cases hi : i < g.size
    · exact congrFun hq ⟨i, hi⟩
    · have := hw.length_queue_le
      have := hw'.length_queue_le
      rw [List.getElem?_eq_none (by simp only [state]; omega),
        List.getElem?_eq_none (by simp only [state]; omega)]
  · by_cases hid : g.has id = true
    · obtain ⟨i, hi⟩ := List.mem_iff_getElem?.1 (mem_ids.2 hid)
      have hlt : i < g.size := by
        rw [← length_ids]
        exact (List.getElem?_eq_some_iff.1 hi).1
      simpa [hi] using congrFun ha ⟨i, hlt⟩
    · have unknown : ∀ {w : Worklist}, Fits g table w → w.state.2 id = none := by
        intro w hw
        cases hf : w.after.get? id with
        | none => simp [state, hf]
        | some f => exact absurd (hw.visited id f hf) hid
      rw [unknown hw, unknown hw']

/-- A worklist that ends does so within the bound: otherwise it would come back to a state first. -/
theorem Fits.ends_within (hg : g.Valid) (hw : Fits g table w) (hk : w.Ends g table k) :
    w.Ends g table (bound g table) := by
  induction k using Nat.strong_induction_on with
  | _ k ih =>
    by_contra hno
    have early : ∀ i ≤ bound g table, ¬w.Ends g table i := by
      rintro i hi ⟨u, hu⟩
      exact hno ⟨u, run_mono hg hw hu hi⟩
    have hlt : bound g table < k := by
      by_contra hle
      exact early k (by omega) hk
    have later : ∀ i, ∃ u, i ≤ bound g table → Fits g table u ∧ Becomes g table i w u := by
      intro i
      by_cases hi : i ≤ bound g table
      · obtain ⟨u, hu⟩ := becomes_of_not_ends hg hw (early i hi)
        exact ⟨u, fun _ => hu⟩
      · exact ⟨w, fun hle => absurd hle hi⟩
    choose u hu using later
    -- more visits than states, so two of them find the same state
    obtain ⟨i, hi, j, hj, hne, hcode⟩ := Finset.exists_ne_map_eq_of_card_lt_of_maps_to
      (s := Finset.range (bound g table + 1)) (t := codes g table) (f := fun i => code g (u i))
      (by rw [Finset.card_range]; exact Nat.lt_succ_of_le (card_codes_le g table))
      (fun i hi => (hu i (Nat.lt_succ_iff.1 (Finset.mem_range.1 hi))).1.code_mem)
    rw [Finset.mem_range, Nat.lt_succ_iff] at hi hj
    have shorter : ∀ i j, i ≤ bound g table → j ≤ bound g table → i < j →
        code g (u i) = code g (u j) → False := by
      intro i j hi hj hij hcode
      obtain ⟨m, rfl⟩ : ∃ m, k = j + m := ⟨k - j, by omega⟩
      have ends : (u j).Ends g table m := by
        obtain ⟨w', hw'⟩ := hk
        exact ⟨w', (hu j hj).2 m ▸ hw'⟩
      have state := state_of_code (hu j hj).1 (hu i hi).1 hcode.symm
      obtain ⟨w', hw'⟩ := ends_of_state hg (hu j hj).1 (hu i hi).1 state ends
      exact hno (ih (i + m) (by omega) ⟨w', ((hu i hi).2 m).trans hw'⟩)
    rcases Nat.lt_or_gt_of_ne hne with hij | hij
    · exact shorter i j hi hj hij hcode
    · exact shorter j i hj hi hij hcode.symm

theorem solve_of_run {order : List VertexId} (hg : g.Valid) (hall : ∀ id ∈ order, g.has id = true)
    (hd : order.Nodup)
    (h : ({ queue := order } : Worklist).run g table g.predecessors k = .ok w) :
    solve g table order = .ok w := by
  have fits : Fits g table { queue := order } := fits_start hall hd
  obtain ⟨w', hw'⟩ := fits.ends_within hg ⟨w, h⟩
  have one := run_mono hg fits h (Nat.le_max_left k (bound g table))
  have other := run_mono hg fits hw' (Nat.le_max_right k (bound g table))
  cases one.symm.trans other
  exact hw'

end States

end Worklist

end StoryFlow
