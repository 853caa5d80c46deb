import StoryFlow.Proofs.Assignment.Termination

/-! The worklist ends, and its facts are exact. It is seeded in topological order, so every vertex has a
visited vertex before it when its turn comes; from then on its facts only fall, and whatever they do not
promise some path does not keep. -/

namespace StoryFlow

open Relation
open StoryFlow.Flow
open StoryFlow.Flow.Graph

variable {g : Graph} {table : SymbolTable} {w w' : Worklist} {id : VertexId}
  {order : List VertexId} {x : String}

namespace Worklist

def PathFacts (g : Graph) (table : SymbolTable) (id : VertexId) (f : Facts) : Prop :=
  ∃ vs, g.Reaches vs id ∧ f = Facts.ofPath table vs

def FromStart (g : Graph) (id : VertexId) : Prop :=
  ∃ e ∈ g.start, 0 ≤ e.target ∧ ReflTransGen g.Forward e.target id

theorem FromStart.real (h : FromStart g id) : 0 ≤ id := by
  obtain ⟨e, -, he, hpath⟩ := h
  cases hpath with
  | refl => exact he
  | tail _ hlast =>
    obtain ⟨v, es, -, e, -, -, -, hid⟩ := hlast
    exact hid

theorem FromStart.pathFacts (h : FromStart g id) (table : SymbolTable) : ∃ f, PathFacts g table id f := by
  obtain ⟨e, he, -, hpath⟩ := h
  induction hpath with
  | refl => exact ⟨_, [], ⟨e, he, rfl⟩, rfl⟩
  | tail _ hlast ih =>
    obtain ⟨-, vs, hl, -⟩ := ih
    obtain ⟨v, es, hn, d, hd, -, ht, -⟩ := hlast
    exact ⟨_, vs ++ [v], leads_snoc.2 ⟨_, es, hl, hn, d, hd, ht⟩, rfl⟩

structure Seeded (g : Graph) (order : List VertexId) : Prop where
  valid : g.Valid
  order : g.TopologicalOrder order
  reached : ∀ id, g.has id = true → FromStart g id

theorem FromStart.entered (h : FromStart g id) :
    Edge.anyTo g.start id = true ∨ ∃ a, g.Forward a id := by
  obtain ⟨e, he, -, hpath⟩ := h
  cases hpath with
  | refl => exact Or.inl (Edge.anyTo_iff.2 ⟨e, he, rfl⟩)
  | tail _ hlast => exact Or.inr ⟨_, hlast⟩

theorem Seeded.led (hs : Seeded g order) : Led g order := by
  refine ⟨hs.valid, hs.order.all, hs.order.distinct, fun done id rest horder => ?_⟩
  have hid : g.has id = true := by
    rw [← hs.order.all, horder]
    simp
  refine (hs.reached id hid).entered.imp_right ?_
  rintro ⟨a, ha⟩
  exact Or.inr ⟨a, hs.order.before done id rest horder a ha, ha.linked⟩

/-- The facts can only fall, and they are witnessed by paths. -/
structure Tight (g : Graph) (table : SymbolTable) (order : List VertexId) (w : Worklist) : Prop where
  falling : Falling g table order w
  witnessed : ∀ a v es f, g.node? a = some (v, es) → w.after.get? a = some f →
    Facts.Witnessed (fun h => ∃ b, PathFacts g table a b ∧ h = b.afterStmt table v.stmt) f

theorem tight_start : Tight g table order { queue := order } := ⟨falling_start, by simp⟩

namespace Tight

theorem witnessed_before (h : Tight g table order w) (hr : FromStart g id) (hid : Sourced g w id) :
    Facts.Witnessed (PathFacts g table id) (w.factsBefore g g.predecessors id) := by
  have fed : Edge.anyTo g.start id = true ∨ ∃ f, Feeds g w id f := by
    rcases hid with hstart | hnone | hfed
    · exact Or.inl hstart
    · refine hr.entered.imp_right ?_
      rintro ⟨a, ha⟩
      exact absurd ha.linked (hnone a)
    · exact Or.inr hfed
  refine (joins_factsBefore g w id).witnessed fed (fun hstart => ?_) ?_
  · obtain ⟨e, he, ht⟩ := Edge.anyTo_iff.1 hstart
    exact ⟨[], ⟨e, he, ht⟩, rfl⟩
  · rintro f ⟨a, ⟨v, es, hn, e, he, ht, -⟩, hf⟩
    refine (h.witnessed a v es f hn hf).mono ?_
    rintro _ ⟨_, ⟨vs, hl, rfl⟩, rfl⟩
    exact ⟨vs ++ [v], leads_snoc.2 ⟨a, es, hl, hn, e, he, ht⟩, (Facts.ofPath_snoc vs v).symm⟩

theorem step (h : Tight g table order w) (hs : Seeded g order)
    (hw : w.step g table g.predecessors = .ok w') : Tight g table order w' := by
  cases hq : w.queue with
  | nil =>
    unfold Worklist.step at hw
    simp only [hq] at hw
    cases hw
    exact h
  | cons id queue =>
    have hid := h.falling.has_head hs.led hq
    obtain ⟨⟨v, es⟩, hv⟩ := has_iff.1 hid
    rcases step_cases table hq hv with ⟨old, hold, -, hstep⟩ | ⟨-, hstep⟩
    · cases hstep.symm.trans hw
      exact ⟨h.falling.keep hs.led hq ⟨old, hold⟩, h.witnessed⟩
    · cases hstep.symm.trans hw
      refine ⟨h.falling.change hs.led hq hv, fun a u ds f hn hf => ?_⟩
      rw [get?_after_change] at hf
      split at hf <;> rename_i ha
      · subst ha
        cases hf
        cases hn.symm.trans hv
        have reached := hs.reached a hid
        have before := h.witnessed_before reached (h.falling.sourced_head hs.led hq)
        exact before.afterStmt (reached.pathFacts table) v.stmt
      · exact h.witnessed a u ds f hn hf

theorem run {n : Nat} (h : Tight g table order w) (hs : Seeded g order)
    (hw : w.run g table g.predecessors n = .ok w') : Tight g table order w' := by
  induction n generalizing w with
  | zero =>
    unfold Worklist.run at hw
    split at hw
    · cases hw
      exact h
    · cases hw
  | succ n ih =>
    unfold Worklist.run at hw
    split at hw
    · cases hw
      exact h
    · obtain ⟨w₁, hstep, hrun⟩ := ok_of_bind_ok hw
      exact ih (h.step hs hstep) hrun

end Tight

end Worklist

/-- The facts say of all paths exactly what holds of each of them. -/
structure Facts.Exact (table : SymbolTable) (paths : List Vertex → Prop) (f : Facts) : Prop where
  definite : ∀ x, x ∈ f.definite ↔ ∀ p, paths p → AssignedIn table (p.filterMap Vertex.stmt) x
  possible : ∀ x, x ∈ f.possible ↔ ∃ p, paths p ∧ AssignedIn table (p.filterMap Vertex.stmt) x
  locked : ∀ x, x ∈ f.locked ↔ ∃ p, paths p ∧ LockedIn table (p.filterMap Vertex.stmt) x
  segment : ∀ x, x ∈ f.segment ↔ ∀ p, paths p → TouchedIn table (p.filterMap Vertex.stmt) x

theorem Facts.exact_of_witnessed {paths : List Vertex → Prop} {f : Facts}
    (hb : ∀ p, paths p → f.Below (Facts.ofPath table p))
    (hw : Facts.Witnessed (fun a => ∃ p, paths p ∧ a = Facts.ofPath table p) f) :
    Facts.Exact table paths f := by
  have single := fun p : List Vertex => Facts.mem_ofHistory table (p.filterMap Vertex.stmt)
  refine ⟨fun x => ⟨fun hx p hp => ?_, fun hall => ?_⟩, fun x => ⟨fun hx => ?_, ?_⟩,
    fun x => ⟨fun hx => ?_, ?_⟩, fun x => ⟨fun hx p hp => ?_, fun hall => ?_⟩⟩
  · exact (single p x).1.1 ((hb p hp).definite hx)
  · by_contra hx
    obtain ⟨_, ⟨p, hp, rfl⟩, hno⟩ := hw.definite x hx
    exact hno ((single p x).1.2 (hall p hp))
  · obtain ⟨_, ⟨p, hp, rfl⟩, hin⟩ := hw.possible x hx
    exact ⟨p, hp, (single p x).2.1.1 hin⟩
  · rintro ⟨p, hp, hin⟩
    exact (hb p hp).possible ((single p x).2.1.2 hin)
  · obtain ⟨_, ⟨p, hp, rfl⟩, hin⟩ := hw.locked x hx
    exact ⟨p, hp, (single p x).2.2.1.1 hin⟩
  · rintro ⟨p, hp, hin⟩
    exact (hb p hp).locked ((single p x).2.2.1.2 hin)
  · exact (single p x).2.2.2.1 ((hb p hp).segment hx)
  · by_contra hx
    obtain ⟨_, ⟨p, hp, rfl⟩, hno⟩ := hw.segment x hx
    exact hno ((single p x).2.2.2.2 (hall p hp))

theorem Assignment.analyze_of_solve {order : List VertexId} {notes : List Note}
    (ho : visitOrder g = .ok (order, notes)) (hs : Worklist.solve g table order = .ok w) :
    ∃ report, analyze g table = .ok report ∧ report.before = w.before := by
  unfold analyze
  simp only [ho, bind, Except.bind, hs]
  exact ⟨_, rfl, rfl⟩

/-- On a graph without a cycle of forward edges, all of it reached by them, the worklist ends, and the
facts before every vertex are exact for all paths to it, those along loop edges included. -/
theorem Assignment.analyze_exact {g : Graph} (table : SymbolTable) (hv : g.problems = [])
    (hc : ∀ id, ¬TransGen g.Forward id id)
    (hr : ∀ id, g.has id = true → Worklist.FromStart g id) :
    ∃ order w report, visitOrder g = .ok (order, []) ∧ Worklist.solve g table order = .ok w ∧
      w.queue = [] ∧ analyze g table = .ok report ∧ report.before = w.before ∧
      ∀ id, g.has id = true → ∃ f, report.before.get? id = some f ∧
        Facts.Exact table (fun p => g.Reaches p id) f := by
  have valid := valid_of_problems hv
  obtain ⟨order, horder, htop⟩ := topologicalOrder_ok valid hc
  have hs : Worklist.Seeded g order := ⟨valid, htop, hr⟩
  obtain ⟨w, hsolve, hq⟩ := hs.led.solve table
  have tight := Worklist.tight_start.run hs hsolve
  have stable := ((Worklist.stable_start htop.all).run valid hsolve).1
  have hvisit : visitOrder g = .ok (order, []) := by rw [visitOrder, horder]
  obtain ⟨report, hanalyze, hsame⟩ := analyze_of_solve hvisit hsolve
  refine ⟨order, w, report, hvisit, hsolve, hq, hanalyze, hsame, fun id hid => ?_⟩
  obtain ⟨⟨v, es⟩, hn⟩ := has_iff.1 hid
  obtain ⟨hbefore, f, hafter, -⟩ := stable.settled id v es hn (by rw [hq]; exact List.not_mem_nil)
  refine ⟨_, hsame ▸ hbefore, Facts.exact_of_witnessed (fun p hp => ?_) ?_⟩
  · exact stable.below_ofPath (fun a ha => (hr a ha).real) hq hid hp
  · exact tight.witnessed_before (hr id hid) (tight.falling.sourced id f hafter)

/-- An outcome is assigned in the loop option of a menu, and read after the menu. -/
def revisited : Graph where
  nodes := .ofList [
    (0, ⟨.ofStmt 0 (some (.menu {} .loopSwitch "Well?" [])) "home", [⟨1, false⟩, ⟨2, false⟩], ⟨0, false⟩⟩),
    (1, ⟨.ofStmt 1 (some (.plain {} (.assign "mood" "good"))) "home", [⟨0, true⟩], ⟨0, false⟩⟩),
    (2, ⟨.ofStmt 2 (some (.branchOn {} "mood" [])) "home", [⟨sink, false⟩], ⟨0, false⟩⟩)]
  exits := .ofList [(2, ())]
  start := [⟨0, false⟩]

theorem Assignment.analyze_exact_revisited : ∃ report f,
    analyze revisited { outcomes := [⟨"mood", ["good"], ""⟩] } = .ok report ∧
      report.before.get? 2 = some f ∧
      Facts.Exact { outcomes := [⟨"mood", ["good"], ""⟩] } (fun p => revisited.Reaches p 2) f := by
  have up : ∀ a ∈ revisited.ids, ∀ b ∈ forwardTargets (revisited.edgesOf a), a < b := by decide
  have forward : ∀ a b, revisited.Forward a b → a < b := by
    intro a b h
    exact up a (mem_ids.2 h.linked.has) b (mem_forwardTargets_edgesOf.2 h)
  have along : ∀ a b, TransGen revisited.Forward a b → a < b := by
    intro a b h
    induction h with
    | single h => exact forward _ _ h
    | tail _ h ih => exact Int.lt_trans ih (forward _ _ h)
  have acyclic : ∀ a, ¬TransGen revisited.Forward a a := fun a h => Int.lt_irrefl a (along a a h)
  have near : ∀ a ∈ revisited.ids, a = 0 ∨ a ∈ forwardTargets (revisited.edgesOf 0) := by decide
  have reached : ∀ a, revisited.has a = true → Worklist.FromStart revisited a := by
    intro a ha
    refine ⟨⟨0, false⟩, List.mem_singleton_self _, Int.le_refl 0, ?_⟩
    rcases near a (mem_ids.2 ha) with rfl | ha
    · exact .refl
    · exact .single (mem_forwardTargets_edgesOf.1 ha)
  obtain ⟨-, -, report, -, -, -, hreport, -, exact⟩ :=
    analyze_exact { outcomes := [⟨"mood", ["good"], ""⟩] } (by decide) acyclic reached
  obtain ⟨f, hf, hexact⟩ := exact 2 (by decide)
  exact ⟨report, f, hreport, hf, hexact⟩

end StoryFlow
