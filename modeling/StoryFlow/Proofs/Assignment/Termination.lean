import Mathlib.Algebra.Order.BigOperators.Group.List
import Mathlib.Algebra.Order.Ring.Nat
import StoryFlow.Assignment.Rules
import StoryFlow.Proofs.Assignment.Recurrence

/-! When the worklist ends. It ends if every vertex is taken up behind one of the vertices that lead to
it, unless there is none or the start leads to it too: then its facts can only fall after its first turn.
A vertex that is taken up before all of them gets no facts at all, which is too low, and then what it is
told later may chase what it told others around a cycle for ever. -/

namespace StoryFlow

open StoryFlow.Flow
open StoryFlow.Flow.Graph

variable {g : Graph} {table : SymbolTable} {w w' : Worklist} {id : VertexId} {v : Vertex}
  {es : List Edge} {order queue : List VertexId}

namespace Worklist

/-- Something is known of the ways to the vertex: the start or a visited vertex leads to it, or no vertex
does. -/
def Sourced (g : Graph) (w : Worklist) (id : VertexId) : Prop :=
  Edge.anyTo g.start id = true ∨ (∀ a, ¬g.Linked a id) ∨ ∃ f, Feeds g w id f

/-- An order for the first turns in which each vertex is sourced when its turn comes. -/
structure Led (g : Graph) (order : List VertexId) : Prop where
  valid : g.Valid
  all : ∀ id, id ∈ order ↔ g.has id = true
  distinct : order.Nodup
  led : ∀ done id rest, order = done ++ id :: rest →
    Edge.anyTo g.start id = true ∨ (∀ a, ¬g.Linked a id) ∨ ∃ a ∈ done, g.Linked a id

/-- The vertices that were visited are an initial part of the order, and the rest of the order is still
in front of the queue. The facts of the visited vertices can only fall. -/
structure Falling (g : Graph) (table : SymbolTable) (order : List VertexId) (w : Worklist) :
    Prop where
  seeds : ∃ done rest tail, order = done ++ rest ∧ w.queue = rest ++ tail ∧ (∀ a ∈ tail, a ∈ done) ∧
    ∀ a, (∃ f, w.after.get? a = some f) ↔ a ∈ done
  sourced : ∀ a f, w.after.get? a = some f → Sourced g w a
  falling : ∀ a v es f, g.node? a = some (v, es) → w.after.get? a = some f →
    ((w.factsBefore g g.predecessors a).afterStmt table v.stmt).Below f
  within : ∀ a f, w.after.get? a = some f → Facts.Within table.variableNames f

theorem falling_start : Falling g table order { queue := order } where
  seeds := ⟨[], order, [], rfl, (List.append_nil _).symm, by simp, by simp⟩
  sourced := by simp
  falling := by simp
  within := by simp

namespace Falling

theorem has_head (h : Falling g table order w) (hs : Led g order) (hq : w.queue = id :: queue) :
    g.has id = true := by
  obtain ⟨done, rest, tail, horder, hqueue, htail, -⟩ := h.seeds
  rw [← hs.all, horder]
  have hm : id ∈ rest ++ tail := by rw [← hqueue, hq]; exact List.mem_cons_self
  rcases List.mem_append.1 hm with hm | hm
  · exact List.mem_append_right _ hm
  · exact List.mem_append_left _ (htail id hm)

/-- A vertex at its first turn comes after all the rest of the done part, and at a later turn all seeds
are done. -/
theorem first_turn_or_seeds_done (h : Falling g table order w) (hq : w.queue = id :: queue) :
    (∃ done rest tail, order = done ++ id :: rest ∧ queue = rest ++ tail ∧ (∀ a ∈ tail, a ∈ done) ∧
        ∀ a, (∃ f, w.after.get? a = some f) ↔ a ∈ done) ∨
      ((∃ f, w.after.get? id = some f) ∧ (∀ a ∈ queue, a ∈ order) ∧
        ∀ a, (∃ f, w.after.get? a = some f) ↔ a ∈ order) := by
  obtain ⟨done, rest, tail, rfl, hqueue, htail, hdone⟩ := h.seeds
  rw [hq] at hqueue
  cases rest with
  | nil =>
    refine Or.inr ⟨(hdone id).2 (htail id ?_), fun a ha => ?_, by simpa using hdone⟩
    · rw [List.nil_append] at hqueue
      rw [← hqueue]
      exact List.mem_cons_self
    · rw [List.nil_append] at hqueue
      rw [List.append_nil]
      exact htail a (hqueue ▸ List.mem_cons_of_mem _ ha)
  | cons b rest =>
    obtain ⟨rfl, rfl⟩ := List.cons.inj hqueue
    exact Or.inl ⟨done, rest, tail, rfl, rfl, htail, hdone⟩

theorem sourced_head (h : Falling g table order w) (hs : Led g order) (hq : w.queue = id :: queue) :
    Sourced g w id := by
  rcases h.first_turn_or_seeds_done hq with ⟨done, rest, tail, horder, -, -, hdone⟩ | ⟨⟨f, hf⟩, -, -⟩
  · refine (hs.led done id rest horder).imp_right (Or.imp_right ?_)
    rintro ⟨a, ha, hlink⟩
    obtain ⟨f, hf⟩ := (hdone a).2 ha
    exact ⟨f, a, hlink, hf⟩
  · exact h.sourced id f hf

theorem within_before (h : Falling g table order w) (id : VertexId) :
    Facts.Within table.variableNames (w.factsBefore g g.predecessors id) := by
  refine (joins_factsBefore g w id).within ?_
  rintro f ⟨a, -, hf⟩
  exact h.within a f hf

theorem keep (h : Falling g table order w) (hs : Led g order) (hq : w.queue = id :: queue)
    (hv : ∃ f, w.after.get? id = some f) : Falling g table order (Worklist.keep g w id queue) := by
  refine ⟨?_, h.sourced, h.falling, h.within⟩
  rcases h.first_turn_or_seeds_done hq with ⟨done, rest, tail, horder, -, -, hdone⟩ | ⟨-, hqueue, hall⟩
  · -- a first turn finds nothing known
    have hnodup := hs.distinct
    rw [horder] at hnodup
    have hdisj := (List.nodup_append.1 hnodup).2.2 id ((hdone id).1 hv) id List.mem_cons_self
    exact absurd rfl hdisj
  · exact ⟨order, [], queue, (List.append_nil _).symm, rfl, hqueue, hall⟩

end Falling

theorem foldl_enqueue_eq (queue ids : List VertexId) :
    ∃ new, ids.foldl enqueue queue = queue ++ new ∧ ∀ a ∈ new, a ∈ ids ∧ a ∉ queue := by
  induction ids generalizing queue with
  | nil => exact ⟨[], by simp, by simp⟩
  | cons b ids ih =>
    obtain ⟨new, hnew, hmem⟩ := ih (enqueue queue b)
    rw [List.foldl_cons, hnew]
    unfold enqueue at hmem ⊢
    split <;> rename_i hb
    · rw [if_pos hb] at hmem
      exact ⟨new, rfl, fun a ha => ⟨List.mem_cons_of_mem _ (hmem a ha).1, (hmem a ha).2⟩⟩
    · rw [if_neg hb] at hmem
      refine ⟨b :: new, by simp, List.forall_mem_cons.2 ⟨⟨List.mem_cons_self, by simpa using hb⟩, ?_⟩⟩
      intro a ha
      exact ⟨List.mem_cons_of_mem _ (hmem a ha).1,
        fun hq => (hmem a ha).2 (List.mem_append_left _ hq)⟩

def Falls (w w' : Worklist) : Prop :=
  ∀ a f, w.after.get? a = some f → ∃ f', w'.after.get? a = some f' ∧ f'.Below f

theorem Falls.feeds (h : Falls w w') {f : Facts} (hf : Feeds g w id f) :
    ∃ f', Feeds g w' id f' ∧ f'.Below f := by
  obtain ⟨a, ha, hget⟩ := hf
  obtain ⟨f', hf', hb⟩ := h a f hget
  exact ⟨f', ⟨a, ha, hf'⟩, hb⟩

theorem Falls.sourced (h : Falls w w') (hid : Sourced g w id) : Sourced g w' id := by
  refine hid.imp_right (Or.imp_right ?_)
  rintro ⟨f, hf⟩
  obtain ⟨f', hf', -⟩ := h.feeds hf
  exact ⟨f', hf'⟩

theorem Falls.factsBefore (h : Falls w w') (hid : Sourced g w id) :
    (w'.factsBefore g g.predecessors id).Below (w.factsBefore g g.predecessors id) := by
  have fed : (Edge.anyTo g.start id = true ∨ ∃ f, Feeds g w id f) →
      (w'.factsBefore g g.predecessors id).Below (w.factsBefore g g.predecessors id) :=
    fun hfed => (joins_factsBefore g w id).mono (joins_factsBefore g w' id) hfed
      fun _ hf => h.feeds hf
  rcases hid with hstart | hnone | hfed
  · exact fed (Or.inl hstart)
  · rw [factsBefore_congr fun a ha => absurd ha (hnone a)]
    exact .refl _
  · exact fed (Or.inr hfed)

theorem get?_after_change {f : Facts} {a : VertexId} :
    (change g w id queue f).after.get? a = if a = id then some f else w.after.get? a :=
  IdMap.get?_insert ..

namespace Falling

theorem falls_change (h : Falling g table order w) (hv : g.node? id = some (v, es))
    (queue : List VertexId) :
    Falls w (change g w id queue
      ((w.factsBefore g g.predecessors id).afterStmt table v.stmt)) := by
  intro a f hf
  rw [get?_after_change]
  by_cases ha : a = id
  · subst ha
    exact ⟨_, if_pos rfl, h.falling a v es f hv hf⟩
  · exact ⟨f, by rw [if_neg ha, hf], .refl f⟩

/-- A vertex whose facts change is done, and the vertices that join the queue are done already, or they
would still be in front of it. -/
theorem seeds_change (h : Falling g table order w) (hs : Led g order)
    (hq : w.queue = id :: queue) (f : Facts) :
    ∃ done rest tail, order = done ++ rest ∧
      (Worklist.change g w id queue f).queue = rest ++ tail ∧ (∀ a ∈ tail, a ∈ done) ∧
        ∀ a, (∃ f', (Worklist.change g w id queue f).after.get? a = some f') ↔ a ∈ done := by
  obtain ⟨new, hnew, hmem⟩ := foldl_enqueue_eq queue (g.successors id)
  have hin : ∀ a ∈ new, a ∈ order := by
    intro a ha
    exact (hs.all a).2 (hs.valid.linked_has (mem_successors.1 (hmem a ha).1))
  simp only [get?_after_change]
  rcases h.first_turn_or_seeds_done hq with ⟨done, rest, tail, rfl, rfl, htail, hdone⟩ | ⟨hvis, hqueue, hall⟩
  · refine ⟨done ++ [id], rest, tail ++ new, by simp, hnew.trans (List.append_assoc ..), ?_, ?_⟩
    · intro a ha
      rcases List.mem_append.1 ha with ha | ha
      · exact List.mem_append_left _ (htail a ha)
      · have hrest : a ∉ rest := fun hr => (hmem a ha).2 (List.mem_append_left _ hr)
        have := hin a ha
        simp only [List.mem_append, List.mem_cons] at this ⊢
        simp only [hrest, or_false] at this
        simpa using this
    · intro a
      rw [List.mem_append, List.mem_singleton, ← hdone a]
      by_cases ha : a = id
      · simp [ha]
      · simp [ha]
  · refine ⟨order, [], queue ++ new, (List.append_nil _).symm, hnew, ?_, ?_⟩
    · intro a ha
      exact (List.mem_append.1 ha).elim (hqueue a) (hin a)
    · intro a
      rw [← hall a]
      by_cases ha : a = id
      · subst ha
        simpa using hvis
      · simp [ha]

theorem change (h : Falling g table order w) (hs : Led g order) (hq : w.queue = id :: queue)
    (hv : g.node? id = some (v, es)) :
    Falling g table order (Worklist.change g w id queue
      ((w.factsBefore g g.predecessors id).afterStmt table v.stmt)) := by
  have falls := h.falls_change hv queue
  have sourced : ∀ a f, (Worklist.change g w id queue ((w.factsBefore g g.predecessors id).afterStmt
      table v.stmt)).after.get? a = some f → Sourced g w a := by
    intro a f hf
    rw [get?_after_change] at hf
    split at hf <;> rename_i ha
    · exact ha ▸ h.sourced_head hs hq
    · exact h.sourced a f hf
  refine ⟨h.seeds_change hs hq _, fun a f hf => falls.sourced (sourced a f hf), ?_, ?_⟩
  · intro a u ds f hn hf
    have hbelow := (falls.factsBefore (sourced a f hf)).afterStmt table u.stmt
    rw [get?_after_change] at hf
    split at hf <;> rename_i ha
    · subst ha
      cases hf
      cases hn.symm.trans hv
      exact hbelow
    · exact hbelow.trans (h.falling a u ds f hn hf)
  · intro a f hf
    rw [get?_after_change] at hf
    split at hf
    · cases hf
      exact (h.within_before id).afterStmt v.stmt
    · exact h.within a f hf

end Falling

section Potential

def left (table : SymbolTable) (w : Worklist) (a : VertexId) : Nat :=
  match w.after.get? a with
  | none => 4 * table.variableNames.length + 1
  | some f => f.height table.variableNames

/-- The visits that are still to come: those in the queue, and one for each edge of a vertex whenever
what holds after the vertex changes. -/
def potential (g : Graph) (table : SymbolTable) (w : Worklist) : Nat :=
  w.queue.length + (g.ids.map fun a => left table w a * (g.edgesOf a).length).sum

theorem sum_map_add_le {l : List VertexId} {p q : VertexId → Nat} {a : VertexId} {d : Nat}
    (h : ∀ b ∈ l, p b ≤ q b) (ha : a ∈ l) (hd : p a + d ≤ q a) :
    (l.map p).sum + d ≤ (l.map q).sum := by
  induction l with
  | nil => cases ha
  | cons b l ih =>
    obtain ⟨hb, hl⟩ := List.forall_mem_cons.1 h
    simp only [List.map_cons, List.sum_cons]
    rcases List.mem_cons.1 ha with rfl | ha
    · have : (l.map p).sum ≤ (l.map q).sum := List.sum_le_sum hl
      omega
    · have := ih hl ha
      omega

theorem Falling.left_lt (h : Falling g table order w) (hv : g.node? id = some (v, es))
    (hne : ∀ old, w.after.get? id = some old →
      ((w.factsBefore g g.predecessors id).afterStmt table v.stmt).same old = false) :
    ((w.factsBefore g g.predecessors id).afterStmt table v.stmt).height table.variableNames <
      left table w id := by
  unfold left
  split <;> rename_i hold
  · exact Nat.lt_succ_of_le (Facts.height_le _ _)
  · exact (h.falling id v es _ hv hold).height_lt ((h.within_before id).afterStmt v.stmt)
      (h.within id _ hold) (hne _ hold)

/-- Every visit uses up some of the potential. -/
theorem Falling.step (h : Falling g table order w) (hs : Led g order) (hq : w.queue = id :: queue) :
    ∃ w', w.step g table g.predecessors = .ok w' ∧ Falling g table order w' ∧
      potential g table w' < potential g table w := by
  obtain ⟨⟨v, es⟩, hv⟩ := has_iff.1 (h.has_head hs hq)
  rcases step_cases table hq hv with ⟨old, hold, -, hstep⟩ | ⟨hne, hstep⟩
  · refine ⟨_, hstep, h.keep hs hq ⟨old, hold⟩, ?_⟩
    unfold potential
    rw [hq]
    exact Nat.add_lt_add_right (Nat.lt_succ_self _) _
  · refine ⟨_, hstep, h.change hs hq hv, ?_⟩
    have hlt := h.left_lt hv hne
    have hlen := (length_foldl_enqueue_le queue (g.successors id)).trans
      (Nat.add_le_add_left length_successors_le _)
    have hsum := sum_map_add_le (l := g.ids) (a := id) (d := (g.edgesOf id).length)
      (p := fun a => left table (Worklist.change g w id queue
        ((w.factsBefore g g.predecessors id).afterStmt table v.stmt)) a * (g.edgesOf a).length)
      (q := fun a => left table w a * (g.edgesOf a).length)
      (fun a _ => Nat.mul_le_mul_right _ (by
        unfold left
        rw [get?_after_change]
        by_cases ha : a = id
        · subst ha
          rw [if_pos rfl]
          exact Nat.le_of_lt hlt
        · rw [if_neg ha]))
      (mem_ids.2 (h.has_head hs hq)) (by
        have hnew : left table (Worklist.change g w id queue
            ((w.factsBefore g g.predecessors id).afterStmt table v.stmt)) id + 1 ≤ left table w id := by
          rw [left, get?_after_change, if_pos rfl]
          exact hlt
        calc _ = (left table _ id + 1) * (g.edgesOf id).length := by rw [Nat.add_mul, Nat.one_mul]
          _ ≤ _ := Nat.mul_le_mul_right _ hnew)
    unfold potential
    rw [hq, List.length_cons]
    change ((g.successors id).foldl enqueue queue).length + _ < _
    omega

theorem Falling.run {n : Nat} (h : Falling g table order w) (hs : Led g order)
    (hb : potential g table w ≤ n) :
    ∃ w', w.run g table g.predecessors n = .ok w' ∧ w'.queue = [] := by
  induction n generalizing w with
  | zero =>
    have hq : w.queue = [] := by
      rw [potential] at hb
      exact List.length_eq_zero_iff.1 (by omega)
    exact ⟨w, run_of_empty hq 0, hq⟩
  | succ n ih =>
    cases hq : w.queue with
    | nil => exact ⟨w, run_of_empty hq _, hq⟩
    | cons id queue =>
      obtain ⟨w₁, hstep, h₁, hlt⟩ := h.step hs hq
      obtain ⟨w', hrun, hq'⟩ := ih h₁ (by omega)
      exact ⟨w', by rw [run_succ (by simp [hq]) hstep, hrun], hq'⟩

theorem Led.solve (hs : Led g order) (table : SymbolTable) :
    ∃ w, solve g table order = .ok w ∧ w.queue = [] := by
  obtain ⟨w, hrun, hq⟩ := (falling_start : Falling g table order _).run hs le_rfl
  exact ⟨w, solve_of_run hs.valid (fun id hid => (hs.all id).1 hid) hs.distinct hrun, hq⟩

end Potential

end Worklist

namespace Assignment

theorem visitOrder_cases (hg : g.Valid) :
    (∃ order, visitOrder g = .ok (order, []) ∧ g.TopologicalOrder order) ∨
      ∃ notes, visitOrder g = .ok (g.ids, notes) := by
  unfold visitOrder
  rcases topologicalOrder_cases hg with ⟨order, ho, htop⟩ | ⟨done, waiting, ho, -, -⟩
  · exact Or.inl ⟨order, by rw [ho], htop⟩
  · exact Or.inr ⟨_, by rw [ho]⟩

theorem visitOrder_all {notes : List Note} (hg : g.Valid) (h : visitOrder g = .ok (order, notes)) :
    order.Nodup ∧ ∀ id, id ∈ order ↔ g.has id = true := by
  rcases visitOrder_cases hg with ⟨o, ho, htop⟩ | ⟨notes', ho⟩
  · cases ho.symm.trans h
    exact ⟨htop.distinct, htop.all⟩
  · cases ho.symm.trans h
    exact ⟨nodup_ids, fun _ => mem_ids⟩

/-- The worklist empties its queue if it takes up every vertex behind one of those that lead to it, unless
there is none or the start leads to it. -/
theorem queue_empties (table : SymbolTable) (hv : g.problems = [])
    (hled : ∀ order notes, visitOrder g = .ok (order, notes) → ∀ done id rest,
      order = done ++ id :: rest →
      Edge.anyTo g.start id = true ∨ (∀ a, ¬g.Linked a id) ∨ ∃ a ∈ done, g.Linked a id) :
    ∃ order notes w, visitOrder g = .ok (order, notes) ∧ Worklist.solve g table order = .ok w ∧
      w.queue = [] := by
  have valid := valid_of_problems hv
  obtain ⟨order, notes, ho⟩ : ∃ order notes, visitOrder g = .ok (order, notes) := by
    rcases visitOrder_cases valid with ⟨order, ho, -⟩ | ⟨notes, ho⟩
    · exact ⟨order, [], ho⟩
    · exact ⟨g.ids, notes, ho⟩
  obtain ⟨distinct, all⟩ := visitOrder_all valid ho
  have led : Worklist.Led g order := ⟨valid, all, distinct, hled order notes ho⟩
  obtain ⟨w, hsolve, hq⟩ := led.solve table
  exact ⟨order, notes, w, ho, hsolve, hq⟩

/-- A ring of four that can be entered from a fifth vertex at two places, and left at one. -/
def pursuit (source north : VertexId) : Graph where
  nodes := .ofList [
    (source, ⟨.ofStmt source (some (.plain {} (.assign "wind" "fair"))) "home",
      [⟨north, false⟩, ⟨2, false⟩], ⟨0, false⟩⟩),
    (north, ⟨.ofStmt north (some (.plain {} (.output "north"))) "home", [⟨3, false⟩], ⟨0, false⟩⟩),
    (2, ⟨.ofStmt 2 (some (.plain {} (.output "south"))) "home", [⟨4, false⟩], ⟨0, false⟩⟩),
    (3, ⟨.ofStmt 3 (some (.plain {} (.output "east"))) "home", [⟨2, false⟩], ⟨0, false⟩⟩),
    (4, ⟨.ofStmt 4 (some (.plain {} (.output "west"))) "home", [⟨north, false⟩, ⟨sink, false⟩],
      ⟨0, false⟩⟩)]
  exits := .ofList [(4, ())]
  start := [⟨source, false⟩]

/-- With the source first each vertex comes after one that leads to it. -/
theorem queue_empties_pursuit : ∃ order notes w, visitOrder (pursuit 0 1) = .ok (order, notes) ∧
    notes ≠ [] ∧ Worklist.solve (pursuit 0 1) { outcomes := [⟨"wind", ["fair"], ""⟩] } order = .ok w ∧
      w.queue = [] := by
  obtain ⟨note, hvisit⟩ : ∃ note, visitOrder (pursuit 0 1) = .ok ((pursuit 0 1).ids, [note]) := ⟨_, rfl⟩
  have sorted : (pursuit 0 1).ids.Pairwise (· < ·) := by decide +kernel
  have behind : ∀ id ∈ (pursuit 0 1).ids, Edge.anyTo (pursuit 0 1).start id = true ∨
      ∃ a ∈ (pursuit 0 1).ids, a < id ∧ id ∈ (pursuit 0 1).successors a := by decide +kernel
  obtain ⟨order, notes, w, ho, hsolve, hq⟩ := queue_empties (g := pursuit 0 1)
    { outcomes := [⟨"wind", ["fair"], ""⟩] } (by decide +kernel) (by
      intro order notes ho done id rest horder
      cases hvisit.symm.trans ho
      rw [horder] at sorted behind
      rcases behind id (by simp) with hstart | ⟨a, ha, hlt, hlink⟩
      · exact Or.inl hstart
      · refine Or.inr (Or.inr ⟨a, ?_, mem_successors.1 hlink⟩)
        rcases List.mem_append.1 ha with ha | ha
        · exact ha
        · have hle : id ≤ a := by
            rcases List.mem_cons.1 ha with rfl | ha
            · exact Int.le_refl _
            · have later := (List.pairwise_cons.1 (List.pairwise_append.1 sorted).2.1).1 a ha
              exact Int.le_of_lt later
          exact absurd hlt (Int.not_lt.2 hle))
  cases hvisit.symm.trans ho
  exact ⟨_, _, w, hvisit, by simp, hsolve, hq⟩

/-- With the source second the vertices it leads to are told different things for ever: the north began
with nothing, which goes round the ring behind what the source said. -/
theorem not_queue_empties_pursuit : (pursuit 1 0).problems = [] ∧ ∃ order notes,
    visitOrder (pursuit 1 0) = .ok (order, notes) ∧ ∀ visits,
      ({ queue := order } : Worklist).run (pursuit 1 0) { outcomes := [⟨"wind", ["fair"], ""⟩] }
        (pursuit 1 0).predecessors visits = .error .unsettled := by
  have problems : (pursuit 1 0).problems = [] := by decide +kernel
  have valid := valid_of_problems problems
  have fits : Worklist.Fits (pursuit 1 0) { outcomes := [⟨"wind", ["fair"], ""⟩] }
      { queue := (pursuit 1 0).ids } := Worklist.fits_start (fun _ hid => mem_ids.1 hid) nodup_ids
  refine ⟨problems, (pursuit 1 0).ids, _, rfl, fun visits => ?_⟩
  -- after thirteen visits the facts go round once every eight
  have checked : (match ({ queue := (pursuit 1 0).ids } : Worklist).advance (pursuit 1 0)
        { outcomes := [⟨"wind", ["fair"], ""⟩] } 13 with
      | .error _ => false
      | .ok w => match w.advance (pursuit 1 0) { outcomes := [⟨"wind", ["fair"], ""⟩] } 8 with
        | .error _ => false
        | .ok u => u.queue == w.queue && u.after.entries == w.after.entries) = true := by decide +kernel
  split at checked <;> rename_i w hw
  · cases checked
  · split at checked <;> rename_i u hu
    · cases checked
    · simp only [Bool.and_eq_true, beq_iff_eq] at checked
      exact Worklist.unsettled_of_recurrence valid fits (by decide +kernel) hw hu
        (Worklist.state_of_entries checked.1 checked.2) visits

end Assignment

end StoryFlow
