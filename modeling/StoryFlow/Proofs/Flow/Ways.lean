import StoryFlow.Proofs.Flow.Copy
import StoryFlow.Proofs.Flow.Order
import StoryFlow.Proofs.Flow.Substitution

/-! Ways through graphs, with loop edges or without. A graph is live when every vertex can be reached
without loop edges, control gets through without them, and it gets out from everywhere. A sequence of live
graphs is live, and so is a live graph with a live graph in the place of one of its vertices. -/

namespace StoryFlow.Flow

def Edge.Open (loops : Bool) (e : Edge) : Prop := e.loop = true → loops = true

theorem Edge.Open.join {loops : Bool} {d r : Edge} (hd : d.Open loops) (hr : r.Open loops) :
    Open loops ⟨r.target, d.loop || r.loop⟩ := by
  intro h
  rcases Bool.or_eq_true_iff.1 h with h | h
  · exact hd h
  · exact hr h

theorem Edge.open_true (e : Edge) : e.Open true := fun _ => rfl

namespace Graph

open Relation

variable {a b c d g r : Graph} {p t : VertexId} {v : Vertex} {es ds repl : List Edge} {loops : Bool}
  {operation : Nat} {mark : Mark}

/-- Control gets from one of the edges to the target. Without `loops` it takes no loop edges. -/
inductive Way (g : Graph) (loops : Bool) : List Edge → VertexId → Prop
  | here {es : List Edge} {e : Edge} : e ∈ es → e.Open loops → Way g loops es e.target
  | next {es next : List Edge} {e : Edge} {v : Vertex} {t : VertexId} : e ∈ es → e.Open loops →
      g.node? e.target = some (v, next) → Way g loops next t → Way g loops es t

namespace Way

theorem from_edges (h : g.Way loops es t) (hs : ∀ e ∈ es, e.Open loops →
    ∃ d ∈ ds, d.Open loops ∧ d.target = e.target) : g.Way loops ds t := by
  cases h with
  | here he ho =>
    obtain ⟨d, hd, hdo, ht⟩ := hs _ he ho
    exact ht ▸ .here hd hdo
  | next he ho hn h =>
    obtain ⟨d, hd, hdo, ht⟩ := hs _ he ho
    exact .next hd hdo (ht ▸ hn) h

theorem includes (hi : g.Includes a) (h : a.Way loops es t) : g.Way loops es t := by
  induction h with
  | here he ho => exact .here he ho
  | next he ho hn _ ih => exact .next he ho (hi _ _ hn) ih

theorem with_loops (h : g.Way loops es t) : g.Way true es t := by
  induction h with
  | here he => exact .here he (Edge.open_true _)
  | next he _ hn _ ih => exact .next he (Edge.open_true _) hn ih

theorem trans (h : g.Way loops es p) (hn : g.node? p = some (v, ds)) (hd : g.Way loops ds t) :
    g.Way loops es t := by
  induction h with
  | here he ho => exact .next he ho hn hd
  | next he ho hn' _ ih => exact .next he ho hn' (ih hn)

theorem leads (h : g.Way loops es t) : ∃ vs, g.Leads es vs t := by
  induction h with
  | here he => exact ⟨[], _, he, rfl⟩
  | next he _ hn _ ih =>
    obtain ⟨vs, hl⟩ := ih
    exact ⟨_ :: vs, _, he, _, hn, hl⟩

theorem forward (hg : g.WellFormed) (h : g.Way false es t) (ht : 0 ≤ t) :
    ∃ e ∈ es, e.loop = false ∧ 0 ≤ e.target ∧ ReflTransGen g.Forward e.target t := by
  induction h with
  | here he ho => exact ⟨_, he, by simpa [Edge.Open] using ho, ht, .refl⟩
  | next he ho hn _ ih =>
    obtain ⟨d, hd, hdo, hdr, hpath⟩ := ih ht
    exact ⟨_, he, by simpa [Edge.Open] using ho, hg.real _ _ hn,
      .head ⟨_, _, hn, d, hd, hdo, rfl, hdr⟩ hpath⟩

section Rewire

theorem rewire_through (ha : a.WellFormed) (hi : g.Includes (rewire mark a repl))
    (h : a.Way loops es p) (hp : p = sink) (hr : g.Way loops repl t) :
    g.Way loops (Edge.redirect es sink repl) t := by
  induction h with
  | here he ho =>
    refine hr.from_edges fun s hs hso => ⟨_, Edge.mem_redirect.2 (Or.inr ⟨_, he, hp, s, hs, rfl⟩), ?_, rfl⟩
    exact ho.join hso
  | next he ho hn _ ih =>
    exact .next (Edge.mem_redirect.2 (Or.inl ⟨he, ha.ne_sink hn⟩)) ho (hi.node?_of_rewire ha hn) (ih hp)

theorem rewire_within (ha : a.WellFormed) (hi : g.Includes (rewire mark a repl))
    (h : a.Way loops es t) (ht : t ≠ sink) : g.Way loops (Edge.redirect es sink repl) t := by
  induction h with
  | here he ho => exact .here (Edge.mem_redirect.2 (Or.inl ⟨he, ht⟩)) ho
  | next he ho hn _ ih =>
    exact .next (Edge.mem_redirect.2 (Or.inl ⟨he, ha.ne_sink hn⟩)) ho (hi.node?_of_rewire ha hn) (ih ht)

end Rewire

theorem copy {ρ : VertexId → VertexId} (hc : c.CopyOf g ρ) (h : g.Way loops es t) :
    c.Way loops (es.map (Edge.rename ρ)) (ρ t) := by
  induction h with
  | here he ho => exact .here (e := Edge.rename ρ _) (List.mem_map_of_mem he) ho
  | next he ho hn _ ih =>
    obtain ⟨w, hw, -, -⟩ := hc.node _ _ _ hn
    exact .next (e := Edge.rename ρ _) (List.mem_map_of_mem he) ho hw ih

section Replace

variable (h : Replaces operation g p b r v es c d) (hb : b.WellFormed) (hgb : g.Apart b)

include h hb

theorem replace_inside {fs : List Edge} (hw : b.Way loops fs t) (ht : t ≠ sink) :
    r.Way loops (Edge.redirect fs sink es) t :=
  hw.rewire_within hb (h.part ▸ h.includes_part) ht

theorem replace_after {fs : List Edge} (hw : b.Way loops fs sink) (hr : r.Way loops es t) :
    r.Way loops (Edge.redirect fs sink es) t :=
  hw.rewire_through hb (h.part ▸ h.includes_part) rfl hr

include hgb

theorem replace_past {fs : List Edge} (hw : g.Way loops fs t) (ht : t ≠ p)
    (through : b.Way loops b.start sink) : r.Way loops (Edge.redirect fs p c.start) t := by
  induction hw with
  | here he ho => exact .here (Edge.mem_redirect.2 (Or.inl ⟨he, ht⟩)) ho
  | @next fs next e w t he ho hn _ ih =>
    by_cases hp : e.target = p
    · cases (hp ▸ hn).symm.trans h.node
      have onward := ih ht
      rw [h.redirect_own] at onward
      have inside := replace_after h hb through onward
      refine inside.from_edges fun s hs hso => ⟨_, Edge.mem_redirect.2 (Or.inr ⟨e, he, hp, s, ?_, rfl⟩),
        ho.join hso, rfl⟩
      rw [h.part]
      exact hs
    · exact .next (Edge.mem_redirect.2 (Or.inl ⟨he, hp⟩)) ho (h.node?_kept hb hgb hn hp) (ih ht)

theorem replace_enter {q : VertexId} {fs : List Edge} (hw : g.Way loops fs q) (hq : q = p)
    (hin : r.Way loops c.start t) : r.Way loops (Edge.redirect fs p c.start) t := by
  induction hw with
  | here he ho =>
    exact hin.from_edges fun s hs hso =>
      ⟨_, Edge.mem_redirect.2 (Or.inr ⟨_, he, hq, s, hs, rfl⟩), ho.join hso, rfl⟩
  | @next fs next e w t he ho hn _ ih =>
    by_cases hp : e.target = p
    · exact hin.from_edges fun s hs hso =>
        ⟨_, Edge.mem_redirect.2 (Or.inr ⟨e, he, hp, s, hs, rfl⟩), ho.join hso, rfl⟩
    · exact .next (Edge.mem_redirect.2 (Or.inl ⟨he, hp⟩)) ho (h.node?_kept hb hgb hn hp) (ih hq)

end Replace

end Way

/-- Every vertex is reached and control gets through, both without loop edges, and from every vertex it
gets out. -/
structure Live (g : Graph) : Prop where
  reached : ∀ id, g.has id = true → g.Way false g.start id
  through : g.Way false g.start sink
  leaves : ∀ id v es, g.node? id = some (v, es) → g.Way true es sink

theorem live_of_isEmpty (h : g.isEmpty = true) : g.Live := by
  refine ⟨fun id hid => ?_, ?_, fun id v es hn => ?_⟩
  · rw [node?_eq_none_iff.1 (node?_of_isEmpty h id)] at hid
    cases hid
  · rw [start_of_isEmpty h]
    exact .here (e := Edge.toSink) (List.mem_singleton_self _) (by simp [Edge.Open, Edge.toSink])
  · rw [node?_of_isEmpty h] at hn
    cases hn

theorem Live.append (h : append operation a b = .ok g) (ha : a.Live) (hb : b.Live)
    (hw : a.WellFormed) (hab : a.Apart b) : g.Live := by
  rcases append_cases h with ⟨_, rfl⟩ | ⟨_, rfl⟩ | ⟨_, rfl, hs, hn, -⟩
  · exact hb
  · exact ha
  · have hia := includes_of_node?_or hn (hab.rewire hw).agree
    have hib := includes_right_of_node?_or hn
    have enter : ∀ {t}, b.Way false b.start t → g.Way false g.start t := by
      intro t ht
      rw [hs]
      exact ha.through.rewire_through hw hia rfl (ht.includes hib)
    refine ⟨fun id hid => ?_, enter hb.through, fun id v es hx => ?_⟩
    · rw [has_of_node?_or hn, has_rewire hw, Bool.or_eq_true] at hid
      rcases hid with hid | hid
      · obtain ⟨x, hx⟩ := has_iff.1 hid
        rw [hs]
        exact (ha.reached id hid).rewire_within hw hia (hw.ne_sink hx)
      · exact enter (hb.reached id hid)
    · rw [hn, Option.or_eq_some_iff] at hx
      rcases hx with hx | ⟨_, hx⟩
      · exact (hb.leaves id v es hx).includes hib
      · rw [node?_rewire hw, Option.map_eq_some_iff] at hx
        obtain ⟨⟨w, ds⟩, hx, heq⟩ := hx
        cases heq
        exact (ha.leaves id w ds hx).rewire_through hw hia rfl (hb.through.with_loops.includes hib)

theorem Live.copy {ρ : VertexId → VertexId} (hc : c.CopyOf g ρ) (hg : g.Live) : c.Live := by
  refine ⟨fun id hid => ?_, ?_, fun id w fs hn => ?_⟩
  · obtain ⟨k, hk, rfl⟩ := hc.only id hid
    rw [hc.start]
    exact (hg.reached k hk).copy hc
  · have hw := hg.through.copy hc
    rw [hc.leave] at hw
    rw [hc.start]
    exact hw
  · obtain ⟨k, v, es, -, hv, rfl, -, -⟩ := hc.node_back hn
    have hw := (hg.leaves k v es hv).copy hc
    rwa [hc.leave] at hw

theorem Live.replace (h : Replaces operation g p b r v es c d) (hg : g.Live) (hb : b.Live)
    (hgw : g.WellFormed) (hbw : b.WellFormed) (hgb : g.Apart b) : r.Live := by
  have hp : sink ≠ p := (h.real hgw).symm
  have hpg := hg.reached p (has_iff.2 ⟨_, h.node⟩)
  have out : r.Way true es sink := by
    have hw := (hg.leaves p v es h.node).replace_past h hbw hgb hp hb.through.with_loops
    rwa [h.redirect_own] at hw
  refine ⟨fun id hid => ?_, ?_, fun id w fs hn => ?_⟩
  · rw [h.start_eq]
    rcases (h.has hbw id).1 hid with ⟨hid, hne⟩ | hid
    · exact (hg.reached id hid).replace_past h hbw hgb hne hb.through
    · obtain ⟨x, hx⟩ := has_iff.1 hid
      refine hpg.replace_enter h hbw hgb rfl ?_
      rw [h.part]
      exact (hb.reached id hid).replace_inside h hbw (hbw.ne_sink hx)
  · rw [h.start_eq]
    exact hg.through.replace_past h hbw hgb hp hb.through
  · rw [h.nodes, Option.or_eq_some_iff] at hn
    rcases hn with hn | ⟨_, hn⟩
    · rw [h.part, node?_rewire hbw, Option.map_eq_some_iff] at hn
      obtain ⟨⟨x, es'⟩, hx, heq⟩ := hn
      cases heq
      exact (hb.leaves id x es' hx).replace_after h hbw out
    · rw [h.rest] at hn
      obtain ⟨-, es', hx, rfl⟩ := node?_detour_eq_some.1 hn
      exact (hg.leaves id w es' hx).replace_past h hbw hgb hp hb.through.with_loops

end Graph

end StoryFlow.Flow
