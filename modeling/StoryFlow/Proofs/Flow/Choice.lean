import StoryFlow.Proofs.Flow.Loops

/-! Choices between graphs. A fork is entered where its branches are, and what hangs on a vertex is
entered along the edges of the vertex; both are joined from parts that may occur several times. What the
parts have of loops and of ways out, the whole has too, as long as some part leads out. -/

namespace StoryFlow.Flow.Graph

open Relation

variable {a b g j r : Graph} {id p t : VertexId} {v : Vertex} {es : List Edge} {e : Edge}
  {src : Option VertexId} {out back : VertexId → Prop} {loops : Bool} {operation : Nat}
  {parts : List Graph}

/-- The vertices are those of the parts, and control enters where it enters one of them. -/
structure JoinOf (j : Graph) (parts : List Graph) : Prop where
  start : ∀ e ∈ j.start, ∃ b ∈ parts, e ∈ b.start
  enter : ∀ b ∈ parts, ∀ e ∈ b.start, ∃ d ∈ j.start, d.target = e.target ∧
    (d.loop = true → e.loop = true)
  nodes : ∀ id x, j.node? id = some x ↔ ∃ b ∈ parts, b.node? id = some x

namespace JoinOf

theorem includes (h : j.JoinOf parts) (hb : b ∈ parts) : j.Includes b :=
  fun id x hx => (h.nodes id x).2 ⟨b, hb, hx⟩

theorem has_iff (h : j.JoinOf parts) : j.has id = true ↔ ∃ b ∈ parts, b.has id = true := by
  simp only [Graph.has_iff, h.nodes]
  constructor
  · rintro ⟨x, b, hb, hx⟩; exact ⟨b, hb, x, hx⟩
  · rintro ⟨b, hb, x, hx⟩; exact ⟨x, b, hb, hx⟩

theorem agree (h : j.JoinOf parts) (hb : ∀ q ∈ parts, q.Agree b) : j.Agree b := by
  intro id x y hx hy
  obtain ⟨q, hq, hx⟩ := (h.nodes id x).1 hx
  exact hb q hq id x y hx hy

theorem edgeFrom (h : j.JoinOf parts) (he : j.EdgeFrom src e) : ∃ b ∈ parts, b.EdgeFrom src e := by
  cases src with
  | none => exact h.start e he
  | some id =>
    obtain ⟨v, es, hn, he⟩ := he
    obtain ⟨b, hb, hn⟩ := (h.nodes id _).1 hn
    exact ⟨b, hb, v, es, hn, he⟩

theorem way (h : j.JoinOf parts) (hb : b ∈ parts) (hw : b.Way loops b.start t) :
    j.Way loops j.start t := by
  refine (hw.includes (h.includes hb)).from_edges fun e he ho => ?_
  obtain ⟨d, hd, ht, hl⟩ := h.enter b hb e he
  exact ⟨d, hd, fun hdl => ho (hl hdl), ht⟩

theorem add (h : j.JoinOf parts) (hn : ∀ id, r.node? id = (b.node? id).or (j.node? id))
    (hab : ∀ q ∈ parts, q.Agree b) (hs : ∀ e ∈ r.start, e ∈ j.start ∨ e ∈ b.start)
    (he : ∀ e, e ∈ j.start ∨ e ∈ b.start → ∃ d ∈ r.start, d.target = e.target ∧
      (d.loop = true → e.loop = true)) : r.JoinOf (parts ++ [b]) := by
  refine ⟨fun e hm => ?_, fun q hq e hm => ?_, fun id x => ?_⟩
  · rcases hs e hm with hm | hm
    · obtain ⟨q, hq, hm⟩ := h.start e hm
      exact ⟨q, List.mem_append_left _ hq, hm⟩
    · exact ⟨b, by simp, hm⟩
  · rcases List.mem_append.1 hq with hq | hq
    · obtain ⟨d, hd, ht, hl⟩ := h.enter q hq e hm
      obtain ⟨d', hd', ht', hl'⟩ := he d (Or.inl hd)
      exact ⟨d', hd', ht'.trans ht, fun hdl => hl (hl' hdl)⟩
    · rw [List.mem_singleton.1 hq] at hm
      exact he e (Or.inr hm)
  · have old : j.node? id = some x → r.node? id = some x :=
      includes_of_node?_or hn (h.agree hab) id x
    constructor
    · intro hx
      rw [hn, Option.or_eq_some_iff] at hx
      rcases hx with hx | ⟨-, hx⟩
      · exact ⟨b, by simp, hx⟩
      · obtain ⟨q, hq, hx⟩ := (h.nodes id x).1 hx
        exact ⟨q, List.mem_append_left _ hq, hx⟩
    · rintro ⟨q, hq, hx⟩
      rcases List.mem_append.1 hq with hq | hq
      · exact old ((h.nodes id x).2 ⟨q, hq, hx⟩)
      · rw [List.mem_singleton.1 hq] at hx
        exact includes_right_of_node?_or hn id x hx

end JoinOf

section Fork

theorem mem_addStart {start : List Edge} {d : Edge} (h : e ∈ addStart start d) : e ∈ start ∨ e = d := by
  unfold addStart at h
  split at h
  · exact Or.inl h
  · simpa using h

theorem mem_foldl_addStart {ds start : List Edge} (h : e ∈ ds.foldl addStart start) :
    e ∈ start ∨ e ∈ ds := by
  induction ds generalizing start with
  | nil => exact Or.inl h
  | cons d ds ih =>
    rcases ih h with h | h
    · rcases mem_addStart h with h | rfl
      · exact Or.inl h
      · exact Or.inr List.mem_cons_self
    · exact Or.inr (List.mem_cons_of_mem _ h)

theorem forkOnto_joinOf {bs : List Graph} (h : forkOnto g bs = .ok r) (hg : g.JoinOf parts)
    (hs : ∀ b ∈ parts ++ bs, ∀ e ∈ b.start, e.loop = false) (hp : (parts ++ bs).Pairwise Apart) :
    r.JoinOf (parts ++ bs) := by
  induction bs generalizing g parts with
  | nil =>
    cases h
    rwa [List.append_nil]
  | cons b bs ih =>
    obtain ⟨nodes, hm, h⟩ := ok_of_bind_ok h
    rw [mergeEntries_eq hm] at h
    rw [List.append_cons] at hs hp ⊢
    refine ih h (hg.add (node?_union _ _) ?_ (fun e => mem_foldl_addStart) fun e he => ?_) hs hp
    · intro q hq
      refine Apart.agree ?_
      have hpairs := (List.pairwise_append.1 (List.pairwise_append.1 hp).1).2.2
      exact hpairs q hq b (List.mem_singleton_self b)
    · -- no start edge is a loop edge, so any edge to the same target will do
      obtain ⟨d, hd, ht⟩ := exists_target_foldl_addStart.2
        (he.imp (fun h => ⟨e, h, rfl⟩) fun h => ⟨e, h, rfl⟩)
      refine ⟨d, hd, ht, fun hdl => ?_⟩
      have hd' : ∃ q ∈ parts ++ [b], d ∈ q.start := by
        rcases mem_foldl_addStart hd with hd | hd
        · obtain ⟨q, hq, hd⟩ := hg.start d hd
          exact ⟨q, List.mem_append_left _ hq, hd⟩
        · exact ⟨b, by simp, hd⟩
      obtain ⟨q, hq, hd⟩ := hd'
      rw [hs q (List.mem_append_left _ hq) d hd] at hdl
      cases hdl

theorem fork_joinOf {bs : List Graph} (h : fork bs = .ok r) (hne : bs ≠ [])
    (hs : ∀ b ∈ bs, ∀ e ∈ b.start, e.loop = false) (hp : bs.Pairwise Apart) : r.JoinOf bs := by
  cases bs with
  | nil => exact absurd rfl hne
  | cons b bs =>
    have none : (⟨∅, ∅, []⟩ : Graph).JoinOf [] := by
      refine ⟨fun e he => ?_, fun b hb => ?_, fun id x => ?_⟩
      · cases he
      · cases hb
      · refine iff_of_false ?_ (by simp)
        intro hx
        cases hx
    exact forkOnto_joinOf h none hs hp

theorem Hub.joinOf_attach (hg : g.Hub p v) (hj : (g.around p).JoinOf parts)
    (hab : ∀ q ∈ parts, q.Agree b) (h : Graph.attach operation g p b = .ok r) :
    (r.around p).JoinOf (parts ++ [b]) := by
  obtain ⟨w, fs, hn, hbp, -, hr, -⟩ := attach_ok h
  cases hn.symm.trans hg.node
  have hstart : (r.around p).start = (g.around p).start ++ b.start :=
    edgesOf_of_node? (by rw [hr, if_pos rfl])
  refine hj.add (fun id => ?_) hab (fun e he => ?_) fun e he => ?_
  · rw [node?_around, node?_around, hr]
    split <;> rename_i hid
    · rw [hid, hbp]; rfl
    · rfl
  · rw [hstart] at he
    exact List.mem_append.1 he
  · refine ⟨e, ?_, rfl, fun hl => hl⟩
    rw [hstart]
    exact List.mem_append.2 he

end Fork

section Loops

theorem JoinOf.partOf (h : j.JoinOf parts) (hc : ∀ b ∈ parts, b.Closed out)
    (ho : ∀ b ∈ parts, ∀ id, out id → b.has id = false)
    (hp : ∀ b ∈ parts, ∀ c ∈ parts, b = c ∨ b.Apart c) (hb : b ∈ parts) : b.PartOf j := by
  refine ⟨fun id v es hn => ⟨es, h.includes hb _ _ hn⟩, fun src e he hin => ?_⟩
  obtain ⟨c, hcp, he⟩ := h.edgeFrom he
  rcases hp c hcp b hb with rfl | apart
  · cases src with
    | none => exact Or.inr ⟨e, he, rfl⟩
    | some x => exact Or.inl ⟨x, e, rfl, he, rfl⟩
  · rcases (hc c hcp).edgeFrom he with hin' | hout
    · rw [apart _ hin'] at hin
      cases hin
    · rw [ho b hb _ hout] at hin
      cases hin

/-- A path that starts in a part stays in it. -/
theorem JoinOf.transGen_forward (h : j.JoinOf parts) (hc : ∀ b ∈ parts, b.Closed out)
    (ho : ∀ b ∈ parts, ∀ id, out id → b.has id = false) (hb : b ∈ parts) {x y : VertexId}
    (hx : b.has x = true) (hxy : TransGen j.Forward x y) :
    TransGen b.Forward x y ∧ (b.has y = true ∨ out y) := by
  have step : ∀ {k l}, b.has k = true → j.Forward k l → b.Forward k l := by
    intro k l hk hkl
    obtain ⟨⟨w, ds⟩, hn⟩ := Graph.has_iff.1 hk
    obtain ⟨w', ds', hn', hrest⟩ := hkl
    cases (h.includes hb _ _ hn).symm.trans hn'
    exact ⟨w, ds, hn, hrest⟩
  have arrive : ∀ {k l}, b.Forward k l → b.has l = true ∨ out l := by
    intro k l hkl
    obtain ⟨e, he, -, rfl, -⟩ := forward_iff.1 hkl
    exact (hc b hb).edgeFrom he
  induction hxy with
  | single hs => exact ⟨.single (step hx hs), arrive (step hx hs)⟩
  | tail _ hs ih =>
    rcases ih.2 with hin | hout
    · exact ⟨ih.1.tail (step hin hs), arrive (step hin hs)⟩
    · obtain ⟨q, hq, hin⟩ := h.has_iff.1 hs.linked.has
      rw [ho q hq _ hout] at hin
      cases hin

theorem Looped.join (h : j.JoinOf parts) (hl : ∀ b ∈ parts, b.Looped back)
    (hc : ∀ b ∈ parts, b.Closed out) (ho : ∀ b ∈ parts, ∀ id, out id → b.has id = false)
    (hp : ∀ b ∈ parts, ∀ c ∈ parts, b = c ∨ b.Apart c) : j.Looped back := by
  refine ⟨fun src e he hle => ?_, fun src e he hb => ?_, fun id hid => ?_⟩
  · obtain ⟨b, hb, he⟩ := h.edgeFrom he
    refine (hl b hb).loops src e he hle |>.imp_right ?_
    rintro ⟨id, hsrc, hr⟩
    exact ⟨id, hsrc, hr.part (h.partOf hc ho hp hb)⟩
  · obtain ⟨b, hbp, he⟩ := h.edgeFrom he
    exact (hl b hbp).backward src e he hb
  · obtain ⟨y, hy, -⟩ := TransGen.head'_iff.1 hid
    obtain ⟨b, hb, hin⟩ := h.has_iff.1 hy.linked.has
    exact (hl b hb).acyclic id (h.transGen_forward hc ho hb hin hid).1

theorem includes_around : g.Includes (g.around p) := by
  intro id x hx
  rw [node?_around] at hx
  split at hx
  · cases hx
  · exact hx

theorem has_around_self : (g.around p).has p = false := by
  rw [← node?_eq_none_iff, node?_around, if_pos rfl]

theorem Hub.edgeFrom (h : g.Hub p v) (he : g.EdgeFrom src e) : (src = none ∧ e = ⟨p, false⟩) ∨
    (src = some p ∧ (g.around p).EdgeFrom none e) ∨
    ∃ x, src = some x ∧ (g.around p).EdgeFrom (some x) e := by
  cases src with
  | none =>
    rw [EdgeFrom, h.start] at he
    exact Or.inl ⟨rfl, List.mem_singleton.1 he⟩
  | some x =>
    obtain ⟨w, ds, hn, he⟩ := he
    by_cases hx : x = p
    · cases (hx ▸ hn).symm.trans h.node
      exact Or.inr (Or.inl ⟨congrArg some hx, he⟩)
    · exact Or.inr (Or.inr ⟨x, rfl, w, ds, by rw [node?_around, if_neg hx, hn], he⟩)

theorem Hub.partOf (h : g.Hub p v) : (g.around p).PartOf g := by
  refine ⟨fun id w ds hn => ⟨ds, includes_around _ _ hn⟩, fun src e he hin => ?_⟩
  rcases h.edgeFrom he with ⟨-, rfl⟩ | ⟨-, he⟩ | ⟨x, hx, he⟩
  · rw [has_around_self] at hin
    cases hin
  · exact Or.inr ⟨e, he, rfl⟩
  · exact Or.inl ⟨x, e, hx, he, rfl⟩

theorem Hub.region (h : g.Hub p v) : g.Region p fun x => (g.around p).has x = true := by
  refine ⟨fun x hx => h.partOf.has hx, fun src e he hin => ?_⟩
  rcases h.edgeFrom he with ⟨-, rfl⟩ | ⟨hx, -⟩ | ⟨x, hx, he⟩
  · rw [has_around_self] at hin
    cases hin
  · exact ⟨p, hx, Or.inr rfl⟩
  · exact ⟨x, hx, Or.inl he.has⟩

/-- The vertex is a layer below what hangs on it. -/
theorem Hub.acyclic (h : g.Hub p v) (hj : (g.around p).Looped (· = p)) :
    ∀ id, ¬TransGen g.Forward id id := by
  refine acyclic_of_layers (t := fun _ => (g.around p).Forward) (fun x => if x = p then 0 else 1)
    not_transGen_lt (fun _ => hj.acyclic) fun x y hxy => ?_
  obtain ⟨e, he, hle, rfl, hreal⟩ := forward_iff.1 hxy
  have other : ∀ src, (g.around p).EdgeFrom src e → e.target ≠ p := by
    intro src he ht
    rw [hj.backward src e he ht] at hle
    cases hle
  rcases h.edgeFrom he with ⟨hx, -⟩ | ⟨hx, he⟩ | ⟨k, hx, he⟩
  · cases hx
  · left
    rw [if_pos (Option.some.inj hx), if_neg (other none he)]
    exact .single Nat.zero_lt_one
  · cases hx
    right
    have hxp : x ≠ p := by
      rintro rfl
      have hin := he.has
      rw [has_around_self] at hin
      cases hin
    rw [if_neg hxp, if_neg (other _ he)]
    exact ⟨rfl, forward_iff.2 ⟨e, he, hle, rfl, hreal⟩⟩

theorem Looped.hub (h : g.Hub p v) (hj : (g.around p).Looped (· = p))
    (hv : v.LoopPrompt ∨ ∀ src e, (g.around p).EdgeFrom src e → e.target ≠ p) : g.SelfLooped := by
  have prompt : ∀ {src e}, (g.around p).EdgeFrom src e → e.target = p →
      ∃ w ds, g.node? e.target = some (w, ds) ∧ w.LoopPrompt := by
    intro src e he ht
    rcases hv with hv | hv
    · exact ⟨v, _, ht ▸ h.node, hv⟩
    · exact absurd ht (hv src e he)
  refine ⟨fun src e he hl => Or.inr ?_, fun src e _ hb => hb.elim, h.acyclic hj⟩
  rcases h.edgeFrom he with ⟨-, rfl⟩ | ⟨hx, he⟩ | ⟨x, hx, he⟩
  · cases hl
  · rcases hj.loops none e he hl with ht | ⟨x, hx, -⟩
    · exact ⟨p, hx, prompt he ht, Or.inl ht.symm⟩
    · cases hx
  · rcases hj.loops (some x) e he hl with ht | ⟨y, hy, hr⟩
    · refine ⟨x, hx, prompt he ht, Or.inr ⟨fun y => (g.around p).has y = true, ?_, he.has⟩⟩
      rw [ht]
      exact h.region
    · exact ⟨y, hx.trans hy, hr.part h.partOf⟩

end Loops

section Ways

/-- Every vertex is reached without loop edges, and control gets from it out or back to `p`. -/
structure Led (b : Graph) (p : VertexId) : Prop where
  reached : ∀ id, b.has id = true → b.Way false b.start id
  leaves : ∀ id v es, b.node? id = some (v, es) → b.Way true es sink ∨ b.Way true es p

theorem Live.led (h : b.Live) (p : VertexId) : b.Led p :=
  ⟨h.reached, fun id v es hn => Or.inl (h.leaves id v es hn)⟩

theorem Live.led_loopTo (h : b.Live) (hb : b.WellFormed) (operation : Nat) (p : VertexId) :
    (b.loopTo operation p).Led p := by
  have hi : (b.loopTo operation p).Includes (b.loopTo operation p) := fun _ _ hx => hx
  refine ⟨fun id hid => ?_, fun id v es hn => Or.inr ?_⟩
  · rw [has_loopTo hb] at hid
    obtain ⟨x, hx⟩ := Graph.has_iff.1 hid
    exact (h.reached id hid).rewire_within hb hi (hb.ne_sink hx)
  · rw [loopTo, node?_rewire hb, Option.map_eq_some_iff] at hn
    obtain ⟨⟨w, ds⟩, hn, heq⟩ := hn
    cases heq
    refine (h.leaves id w ds hn).rewire_through hb hi rfl ?_
    exact .here (e := ⟨p, true⟩) (List.mem_singleton_self _) (Edge.open_true _)

theorem live_of_joinOf (h : r.JoinOf parts) (hl : ∀ b ∈ parts, b.Live) (hne : parts ≠ []) : r.Live := by
  refine ⟨fun id hid => ?_, ?_, fun id v es hn => ?_⟩
  · obtain ⟨b, hb, hid⟩ := h.has_iff.1 hid
    exact h.way hb ((hl b hb).reached id hid)
  · obtain ⟨b, hb⟩ := List.exists_mem_of_ne_nil parts hne
    exact h.way hb (hl b hb).through
  · obtain ⟨b, hb, hn⟩ := (h.nodes id _).1 hn
    exact ((hl b hb).leaves id v es hn).includes (h.includes hb)

theorem Hub.live (h : g.Hub p v) (hj : (g.around p).JoinOf parts) (hl : ∀ b ∈ parts, b.Led p)
    (ht : ∃ b ∈ parts, b.Way false b.start sink) : g.Live := by
  have hi : g.Includes (g.around p) := includes_around
  have enter : ∀ {t}, (g.around p).Way false (g.around p).start t → g.Way false g.start t := by
    intro t hw
    rw [h.start]
    exact .next (e := ⟨p, false⟩) (List.mem_singleton_self _) (by simp [Edge.Open]) h.node
      (hw.includes hi)
  obtain ⟨q, hq, hout⟩ := ht
  have through := hj.way hq hout
  have leave : g.Way true (g.around p).start sink := through.with_loops.includes hi
  refine ⟨fun id hid => ?_, enter through, fun id w es hn => ?_⟩
  · by_cases hid' : id = p
    · rw [h.start, hid']
      exact .here (e := ⟨p, false⟩) (List.mem_singleton_self _) (by simp [Edge.Open])
    · obtain ⟨x, hx⟩ := Graph.has_iff.1 hid
      have hin : (g.around p).has id = true :=
        Graph.has_iff.2 ⟨x, by rw [node?_around, if_neg hid', hx]⟩
      obtain ⟨b, hb, hin⟩ := hj.has_iff.1 hin
      exact enter (hj.way hb ((hl b hb).reached id hin))
  · by_cases hid : id = p
    · cases (hid ▸ hn).symm.trans h.node
      exact leave
    · have hn' : (g.around p).node? id = some (w, es) := by rw [node?_around, if_neg hid, hn]
      obtain ⟨b, hb, hn'⟩ := (hj.nodes id _).1 hn'
      rcases (hl b hb).leaves id w es hn' with hw | hw
      · exact (hw.includes (hj.includes hb)).includes hi
      · exact ((hw.includes (hj.includes hb)).includes hi).trans h.node leave

end Ways

end StoryFlow.Flow.Graph
