import Mathlib.Computability.Language
import StoryFlow.Proofs.Flow.Path

/-! Paths through composed graphs. Each operation is described once, by the vertices of its result; the
paths of the result are then the paths of the operands put together: one after the other for a sequence,
either for a choice, and around a vertex for what is attached to it. -/

namespace StoryFlow

universe u v w

theorem ok_of_bind_ok {ε : Type u} {α : Type v} {β : Type w} {x : Except ε α}
    {f : α → Except ε β} {b : β} (h : x.bind f = .ok b) : ∃ a, x = .ok a ∧ f a = .ok b := by
  cases x with
  | error e => cases h
  | ok a => exact ⟨a, rfl, h⟩

end StoryFlow

namespace StoryFlow.Flow

theorem Edge.anyTo_redirect_self {es repl : List Edge} {t : VertexId} :
    anyTo (redirect es t repl) t = true ↔ anyTo es t = true ∧ anyTo repl t = true := by
  simp only [anyTo_iff, mem_redirect]
  constructor
  · rintro ⟨e, ⟨_, hne⟩ | ⟨d, hd, hdt, r, hr, rfl⟩, ht⟩
    · exact absurd ht hne
    · exact ⟨⟨d, hd, hdt⟩, r, hr, ht⟩
  · rintro ⟨⟨d, hd, hdt⟩, r, hr, ht⟩
    exact ⟨_, Or.inr ⟨d, hd, hdt, r, hr, rfl⟩, ht⟩

theorem mergeEntries_eq {a b m : IdMap Entry} (h : mergeEntries a b = .ok m) : m = a.union b := by
  unfold mergeEntries at h
  split at h
  · cases h
  · cases h; rfl

namespace Graph

variable {a b g : Graph} {out : VertexId → Prop}

theorem has_iff {id : VertexId} : g.has id = true ↔ ∃ x, g.node? id = some x := by
  simp only [has, IdMap.contains_iff, node?, Option.map_eq_some_iff]
  constructor
  · rintro ⟨e, he⟩; exact ⟨e.node, e, he, rfl⟩
  · rintro ⟨_, e, he, _⟩; exact ⟨e, he⟩

theorem entry_eq_ok_iff {id : VertexId} {e : Entry} :
    g.entry id = .ok e ↔ g.nodes.get? id = some e := by
  unfold entry
  split <;> rename_i h <;> simp [h]

theorem node?_eq_none_iff {id : VertexId} : g.node? id = none ↔ g.has id = false := by
  rw [← Bool.not_eq_true, has_iff, ← Option.ne_none_iff_exists', not_not]

/-- A graph that control leaves by the sink only. -/
structure Whole (g : Graph) : Prop where
  wf : g.WellFormed
  closed : g.Closed (· = sink)

theorem Whole.out_none (h : g.Whole) : ∀ id, id = sink → g.node? id = none := by
  rintro id rfl
  exact h.wf.sink_none

def Apart (a b : Graph) : Prop := ∀ id, a.has id = true → b.has id = false

def Agree (a b : Graph) : Prop := ∀ id x y, a.node? id = some x → b.node? id = some y → x = y

theorem Apart.symm (h : a.Apart b) : b.Apart a := by
  intro id hb
  by_contra ha
  rw [Bool.not_eq_false] at ha
  rw [h id ha] at hb
  cases hb

theorem Apart.agree (h : a.Apart b) : a.Agree b := by
  intro id x y hx hy
  have hb := node?_eq_none_iff.2 (h id (has_iff.2 ⟨x, hx⟩))
  rw [hb] at hy
  cases hy

/-- The identities of the vertices were taken from this stretch of the supply. -/
def TakenIn (g : Graph) (lo hi : Nat) : Prop :=
  ∀ id, g.has id = true → (lo : Int) ≤ id ∧ id < (hi : Int)

theorem TakenIn.apart {lo mid hi : Nat} (ha : a.TakenIn lo mid) (hb : b.TakenIn mid hi) : a.Apart b := by
  intro id hid
  by_contra h
  rw [Bool.not_eq_false] at h
  exact absurd ((hb id h).1) (Int.not_le.2 (ha id hid).2)

theorem TakenIn.mono {lo hi lo' hi' : Nat} (h : g.TakenIn lo hi) (hl : lo' ≤ lo) (hh : hi ≤ hi') :
    g.TakenIn lo' hi' := by
  intro id hid
  exact ⟨Int.le_trans (Int.ofNat_le.2 hl) (h id hid).1,
    Int.lt_of_lt_of_le (h id hid).2 (Int.ofNat_le.2 hh)⟩

theorem node?_union (exits : IdSet) (start : List Edge) (id : VertexId) :
    (⟨a.nodes.union b.nodes, exits, start⟩ : Graph).node? id = (b.node? id).or (a.node? id) := by
  simp only [node?, IdMap.get?_union]
  cases b.nodes.get? id <;> simp

theorem includes_of_node?_or (hn : ∀ id, g.node? id = (b.node? id).or (a.node? id))
    (h : a.Agree b) : g.Includes a := by
  intro id x hx
  rw [hn id]
  cases hb : b.node? id with
  | none => simpa using hx
  | some y => rw [h id x y hx hb]; rfl

theorem includes_right_of_node?_or (hn : ∀ id, g.node? id = (b.node? id).or (a.node? id)) :
    g.Includes b := by
  intro id x hx
  rw [hn id, hx]
  rfl

theorem Includes.targets {es : List Edge} (hi : g.Includes a) (h : a.Targets out es) :
    g.Targets out es := by
  intro e he
  rcases h e he with ⟨x, hx⟩ | ho
  · exact Or.inl ⟨x, hi _ _ hx⟩
  · exact Or.inr ho

theorem Targets.mono {out' : VertexId → Prop} {es : List Edge} (h : g.Targets out es)
    (ho : ∀ id, out id → out' id) : g.Targets out' es :=
  fun e he => (h e he).imp_right (ho _)

theorem Closed.mono {out' : VertexId → Prop} (h : g.Closed out) (ho : ∀ id, out id → out' id) :
    g.Closed out' :=
  ⟨h.start.mono ho, fun id v es hx => (h.edges id v es hx).mono ho⟩

theorem natCast_ne_sink (n : Nat) : (n : Int) ≠ sink := by
  intro h
  exact absurd (Int.natCast_nonneg n) (by rw [h]; decide)

/-- A redirected list leads where the list led, but for the old target, and where the replacement
leads. -/
theorem Targets.redirect {out' : VertexId → Prop} {es repl : List Edge} {t : VertexId}
    (h : a.Targets out es) (hi : ∀ id, a.has id = true → id ≠ t → g.has id = true ∨ out' id)
    (ho : ∀ id, out id → id ≠ t → g.has id = true ∨ out' id) (hr : g.Targets out' repl) :
    g.Targets out' (Edge.redirect es t repl) := by
  intro e he
  rcases Edge.mem_redirect.1 he with ⟨hm, hne⟩ | ⟨d, _, _, r, hm, rfl⟩
  · rcases h e hm with hx | hx
    · exact (hi _ (has_iff.2 hx) hne).imp_left has_iff.1
    · exact (ho _ hx hne).imp_left has_iff.1
  · exact hr r hm

section Empty

theorem node?_of_isEmpty (h : g.isEmpty = true) (id : VertexId) : g.node? id = none := by
  simp only [isEmpty, IdMap.size, Bool.and_eq_true, beq_iff_eq, List.length_eq_zero_iff] at h
  simp [node?, IdMap.get?, h.1, IdMap.lookup]

theorem start_of_isEmpty (h : g.isEmpty = true) : g.start = [Edge.toSink] := by
  simp only [isEmpty, Bool.and_eq_true, beq_iff_eq] at h
  exact h.2

theorem reaches_of_isEmpty (h : g.isEmpty = true) {vs : List Vertex} :
    g.Reaches vs sink ↔ vs = [] := by
  unfold Reaches
  rw [start_of_isEmpty h]
  cases vs with
  | nil => simp [Leads, Edge.toSink]
  | cons v vs => simp [Leads, node?_of_isEmpty h]

theorem isEmpty_empty : empty.isEmpty = true := rfl

theorem wellFormed_nil (start : List Edge) : (⟨∅, ∅, start⟩ : Graph).WellFormed where
  own := by intro id v es h; cases h
  real := by intro id x h; cases h
  exits := by
    intro id
    constructor
    · intro h; cases h
    · rintro ⟨v, es, h, _⟩; cases h

theorem whole_empty : empty.Whole := by
  refine ⟨wellFormed_nil _, ?_, ?_⟩
  · intro e he
    rw [List.mem_singleton.1 he]
    exact Or.inr rfl
  · intro id v es h; cases h

end Empty

section Single

theorem single_ok {operation : Nat} {v : Vertex} {es : List Edge}
    (h : single operation v es = .ok g) :
    g.start = [⟨v.id, false⟩] ∧ (∀ id, g.node? id = if id = v.id then some (v, es) else none) ∧
      g.WellFormed := by
  unfold single at h
  split at h <;> rename_i hr
  · cases h
    have hn : ∀ id, node? ⟨.singleton v.id ⟨v, es, ⟨operation, false⟩⟩,
        if Edge.anyTo es sink = true then .singleton v.id () else ∅, [⟨v.id, false⟩]⟩ id =
        if id = v.id then some (v, es) else none := by
      intro id
      rw [node?, IdMap.get?_singleton]
      split <;> rfl
    refine ⟨rfl, hn, ?_, ?_, ?_⟩
    · intro id w ds hx
      rw [hn] at hx
      split at hx <;> rename_i hid
      · cases hx; exact hid.symm
      · cases hx
    · intro id x hx
      rw [hn] at hx
      split at hx <;> rename_i hid
      · subst hid; simpa [VertexId.isReal] using hr
      · cases hx
    · intro id
      simp only [hn]
      by_cases hs : Edge.anyTo es sink = true
      · by_cases hid : id = v.id
        · simp [hs, hid, IdMap.contains]
        · simp [hs, hid, IdMap.contains]
      · by_cases hid : id = v.id <;> simp [hs, hid]
  · cases h

end Single

section Rewire

variable {mark : Mark} {repl : List Edge}

theorem node?_rewire (h : a.WellFormed) (id : VertexId) :
    (rewire mark a repl).node? id =
      (a.node? id).map fun x => (x.1, Edge.redirect x.2 sink repl) := by
  have hx := h.exits id
  simp only [node?, rewire, IdMap.get?_map] at hx ⊢
  cases he : a.nodes.get? id with
  | none => simp
  | some e =>
    rw [he] at hx
    simp only [Option.map_some, Entry.node, Option.some.injEq, Prod.mk.injEq] at hx ⊢
    by_cases hc : a.exits.contains id = true
    · simp [hc]
    · have hs : Edge.anyTo e.edges sink = false := by
        rw [← Bool.not_eq_true]
        exact fun hs => hc (hx.2 ⟨e.vertex, e.edges, ⟨rfl, rfl⟩, hs⟩)
      simp [hc, Edge.redirect_of_not_anyTo hs]

theorem has_rewire (h : a.WellFormed) (id : VertexId) :
    (rewire mark a repl).has id = a.has id := by
  rw [Bool.eq_iff_iff, has_iff, has_iff, node?_rewire h]
  constructor
  · rintro ⟨_, hx⟩
    obtain ⟨y, hy, _⟩ := Option.map_eq_some_iff.1 hx
    exact ⟨y, hy⟩
  · rintro ⟨x, hx⟩; exact ⟨_, by rw [hx]; rfl⟩

theorem WellFormed.rewire (h : a.WellFormed) : (rewire mark a repl).WellFormed where
  own := by
    intro id v es hx
    rw [node?_rewire h, Option.map_eq_some_iff] at hx
    obtain ⟨⟨w, ds⟩, hx, heq⟩ := hx
    cases heq
    exact h.own id w ds hx
  real := by
    intro id x hx
    rw [node?_rewire h, Option.map_eq_some_iff] at hx
    obtain ⟨y, hy, -⟩ := hx
    exact h.real id y hy
  exits := by
    intro id
    have hx := h.exits id
    simp only [node?_rewire h, Option.map_eq_some_iff, Prod.mk.injEq]
    constructor
    · intro hc
      by_cases hr : Edge.anyTo repl sink = true
      · simp only [Graph.rewire, hr, if_true] at hc
        obtain ⟨v, es, hn, hs⟩ := hx.1 hc
        exact ⟨v, _, ⟨(v, es), hn, rfl, rfl⟩, Edge.anyTo_redirect_self.2 ⟨hs, hr⟩⟩
      · simp [Graph.rewire, hr] at hc
    · rintro ⟨v, _, ⟨⟨w, es⟩, hn, rfl, rfl⟩, hs⟩
      obtain ⟨hs, hr⟩ := Edge.anyTo_redirect_self.1 hs
      simpa [Graph.rewire, hr] using hx.2 ⟨w, es, hn, hs⟩

theorem Closed.rewire (hw : a.WellFormed) (hc : a.Closed (· = sink)) :
    (rewire mark a repl).Closed fun id => ∃ r ∈ repl, r.target = id := by
  have go : ∀ es, a.Targets (· = sink) es → (Graph.rewire mark a repl).Targets
      (fun id => ∃ r ∈ repl, r.target = id) (Edge.redirect es sink repl) := by
    intro es he
    refine he.redirect (fun id hid _ => Or.inl ?_) (fun id hid hne => absurd hid hne) ?_
    · rwa [has_rewire hw]
    · exact fun r hr => Or.inr ⟨r, hr, rfl⟩
  refine ⟨go _ hc.start, ?_⟩
  intro id v es hx
  rw [node?_rewire hw, Option.map_eq_some_iff] at hx
  obtain ⟨⟨w, ds⟩, hx, heq⟩ := hx
  cases heq
  exact go _ (hc.edges id w ds hx)

theorem WellFormed.ne_sink (h : a.WellFormed) {id : VertexId} {x : Vertex × List Edge}
    (hn : a.node? id = some x) : id ≠ sink := by
  rintro rfl
  rw [h.sink_none] at hn
  cases hn

theorem Includes.node?_of_rewire (hi : g.Includes (rewire mark a repl)) (hw : a.WellFormed)
    {id : VertexId} {v : Vertex} {es : List Edge} (hn : a.node? id = some (v, es)) :
    g.node? id = some (v, Edge.redirect es sink repl) := by
  apply hi
  rw [node?_rewire hw, hn]
  rfl

theorem leads_rewire_append (hw : a.WellFormed) (hi : g.Includes (rewire mark a repl))
    {t : VertexId} {es : List Edge} {xs ys : List Vertex} (hx : a.Leads es xs sink)
    (hy : g.Leads repl ys t) : g.Leads (Edge.redirect es sink repl) (xs ++ ys) t := by
  induction xs generalizing es with
  | nil =>
    obtain ⟨d, hd, hds⟩ := hx
    exact hy.mono fun r hr => ⟨_, Edge.mem_redirect.2 (Or.inr ⟨d, hd, hds, r, hr, rfl⟩), rfl⟩
  | cons v xs ih =>
    obtain ⟨e, hm, next, hn, hl⟩ := hx
    exact ⟨e, Edge.mem_redirect.2 (Or.inl ⟨hm, hw.ne_sink hn⟩), _,
      hi.node?_of_rewire hw hn, ih hl⟩

theorem leads_rewire_within (hw : a.WellFormed) (hi : g.Includes (rewire mark a repl))
    {t : VertexId} (ht : t ≠ sink) {es : List Edge} {xs : List Vertex} (hx : a.Leads es xs t) :
    g.Leads (Edge.redirect es sink repl) xs t := by
  induction xs generalizing es with
  | nil =>
    obtain ⟨d, hd, rfl⟩ := hx
    exact ⟨d, Edge.mem_redirect.2 (Or.inl ⟨hd, ht⟩), rfl⟩
  | cons v xs ih =>
    obtain ⟨e, hm, next, hn, hl⟩ := hx
    exact ⟨e, Edge.mem_redirect.2 (Or.inl ⟨hm, hw.ne_sink hn⟩), _,
      hi.node?_of_rewire hw hn, ih hl⟩

/-- A path from the part stays in it, or it is a complete path of the part as it was, followed by a path
from the replacement. -/
theorem leads_rewire_cases (hw : a.WellFormed)
    (hc : ∀ id v es, a.node? id = some (v, es) → a.Targets (· = sink) es)
    (hi : g.Includes (rewire mark a repl)) {t : VertexId} {es : List Edge}
    (he : a.Targets (· = sink) es) {vs : List Vertex} (h : g.Leads (Edge.redirect es sink repl) vs t) :
    (a.Leads es vs t ∧ a.has t = true) ∨
      ∃ xs ys, vs = xs ++ ys ∧ a.Leads es xs sink ∧ g.Leads repl ys t := by
  induction vs generalizing es with
  | nil =>
    obtain ⟨e, hm, hte⟩ := h
    rcases Edge.mem_redirect.1 hm with ⟨hm, hne⟩ | ⟨d, hd, hds, r, hr, rfl⟩
    · rcases he e hm with hx | hx
      · exact Or.inl ⟨⟨e, hm, hte⟩, hte ▸ has_iff.2 hx⟩
      · exact absurd hx hne
    · exact Or.inr ⟨[], [], rfl, ⟨d, hd, hds⟩, r, hr, hte⟩
  | cons v vs ih =>
    obtain ⟨e, hm, next, hn, hl⟩ := h
    rcases Edge.mem_redirect.1 hm with ⟨hm, hne⟩ | ⟨d, hd, hds, r, hr, rfl⟩
    · rcases he e hm with ⟨⟨w, ds⟩, hx⟩ | hx
      · cases (hi.node?_of_rewire hw hx).symm.trans hn
        rcases ih (hc _ _ _ hx) hl with ⟨hvs, ht⟩ | ⟨xs, ys, rfl, hxs, hys⟩
        · exact Or.inl ⟨⟨e, hm, ds, hx, hvs⟩, ht⟩
        · exact Or.inr ⟨v :: xs, ys, rfl, ⟨e, hm, ds, hx, hxs⟩, hys⟩
      · exact absurd hx hne
    · exact Or.inr ⟨[], v :: vs, rfl, ⟨d, hd, hds⟩, r, hr, next, hn, hl⟩

/-- A path out of the part is a complete path of the part as it was, followed by a path from the
replacement. -/
theorem leads_rewire (hw : a.WellFormed)
    (hc : ∀ id v es, a.node? id = some (v, es) → a.Targets (· = sink) es)
    (hi : g.Includes (rewire mark a repl)) {t : VertexId} (ht : a.has t = false) {es : List Edge}
    (he : a.Targets (· = sink) es) {vs : List Vertex} :
    g.Leads (Edge.redirect es sink repl) vs t ↔
      ∃ xs ys, vs = xs ++ ys ∧ a.Leads es xs sink ∧ g.Leads repl ys t := by
  constructor
  · intro h
    refine (leads_rewire_cases hw hc hi he h).resolve_left ?_
    rintro ⟨-, hin⟩
    rw [ht] at hin
    cases hin
  · rintro ⟨xs, ys, rfl, hx, hy⟩
    exact leads_rewire_append hw hi hx hy

end Rewire

section Union

theorem wellFormed_of_node?_or (hn : ∀ id, g.node? id = (b.node? id).or (a.node? id))
    (he : ∀ id, g.exits.contains id = (a.exits.contains id || b.exits.contains id))
    (ha : a.WellFormed) (hb : b.WellFormed) (hab : a.Agree b) : g.WellFormed := by
  have cases_of : ∀ id x, g.node? id = some x → a.node? id = some x ∨ b.node? id = some x := by
    intro id x hx
    rw [hn, Option.or_eq_some_iff] at hx
    exact hx.symm.imp_left And.right
  refine ⟨?_, ?_, ?_⟩
  · intro id v es hx
    rcases cases_of _ _ hx with hx | hx
    · exact ha.own _ _ _ hx
    · exact hb.own _ _ _ hx
  · intro id x hx
    rcases cases_of _ _ hx with hx | hx
    · exact ha.real _ _ hx
    · exact hb.real _ _ hx
  · intro id
    rw [he, Bool.or_eq_true, ha.exits, hb.exits]
    constructor
    · rintro (⟨v, es, hx, hs⟩ | ⟨v, es, hx, hs⟩)
      · exact ⟨v, es, includes_of_node?_or hn hab _ _ hx, hs⟩
      · exact ⟨v, es, includes_right_of_node?_or hn _ _ hx, hs⟩
    · rintro ⟨v, es, hx, hs⟩
      exact (cases_of _ _ hx).imp (fun hx => ⟨v, es, hx, hs⟩) fun hx => ⟨v, es, hx, hs⟩

theorem has_of_node?_or (hn : ∀ id, g.node? id = (b.node? id).or (a.node? id)) (id : VertexId) :
    g.has id = (a.has id || b.has id) := by
  rw [Bool.eq_iff_iff, Bool.or_eq_true]
  simp only [has_iff, hn]
  cases b.node? id <;> cases a.node? id <;> simp

theorem contains_union (m n : IdSet) (id : VertexId) :
    (m.union n).contains id = (m.contains id || n.contains id) := by
  simp only [IdMap.contains, IdMap.get?_union]
  cases n.get? id <;> simp

end Union

section Append

variable {operation : Nat}

theorem append_cases (h : append operation a b = .ok g) :
    (a.isEmpty = true ∧ g = b) ∨ (b.isEmpty = true ∧ g = a) ∨
      ∃ r, r = rewire ⟨operation, false⟩ a b.start ∧ g.start = r.start ∧
        (∀ id, g.node? id = (b.node? id).or (r.node? id)) ∧
        ∀ id, g.exits.contains id = (r.exits.contains id || b.exits.contains id) := by
  unfold append at h
  split at h <;> rename_i ha
  · cases h; exact Or.inl ⟨ha, rfl⟩
  · split at h <;> rename_i hb
    · cases h; exact Or.inr (Or.inl ⟨hb, rfl⟩)
    · obtain ⟨nodes, hm, heq⟩ := ok_of_bind_ok h
      cases heq
      rw [mergeEntries_eq hm]
      exact Or.inr (Or.inr ⟨_, rfl, rfl, node?_union _ _, contains_union _ _⟩)

theorem Apart.rewire {mark : Mark} {repl : List Edge} (ha : a.WellFormed) (h : a.Apart b) :
    (rewire mark a repl).Apart b := by
  intro id hid
  exact h id (by rwa [has_rewire ha] at hid)

theorem has_append (h : append operation a b = .ok g) (ha : a.WellFormed) (id : VertexId) :
    g.has id = (a.has id || b.has id) := by
  rcases append_cases h with ⟨he, rfl⟩ | ⟨he, rfl⟩ | ⟨r, rfl, -, hn, -⟩
  · rw [node?_eq_none_iff.1 (node?_of_isEmpty he id), Bool.false_or]
  · rw [node?_eq_none_iff.1 (node?_of_isEmpty he id), Bool.or_false]
  · rw [has_of_node?_or hn, has_rewire ha]

theorem WellFormed.append (h : append operation a b = .ok g) (ha : a.WellFormed)
    (hb : b.WellFormed) (hab : a.Apart b) : g.WellFormed := by
  rcases append_cases h with ⟨_, rfl⟩ | ⟨_, rfl⟩ | ⟨r, rfl, -, hn, he⟩
  · exact hb
  · exact ha
  · exact wellFormed_of_node?_or hn he ha.rewire hb (hab.rewire ha).agree

theorem Closed.sequence {mark : Mark} (ha : a.WellFormed) (hca : a.Closed out) (hcb : b.Closed out)
    (hs : g.start = (Graph.rewire mark a b.start).start)
    (hn : ∀ id, g.node? id = (b.node? id).or ((Graph.rewire mark a b.start).node? id)) :
    g.Closed out := by
  have has : ∀ id, g.has id = (a.has id || b.has id) := by
    intro id
    rw [has_of_node?_or hn, has_rewire ha]
  have second : ∀ es, b.Targets out es → g.Targets out es :=
    fun _ he => (includes_right_of_node?_or hn).targets he
  have first : ∀ es, a.Targets out es → g.Targets out (Edge.redirect es sink b.start) := by
    intro es he
    refine he.redirect (fun id hid _ => Or.inl ?_) (fun _ hid _ => Or.inr hid) (second _ hcb.start)
    rw [has, hid, Bool.true_or]
  refine ⟨hs ▸ first _ hca.start, fun id v es hx => ?_⟩
  rw [hn, Option.or_eq_some_iff] at hx
  rcases hx with hx | ⟨_, hx⟩
  · exact second _ (hcb.edges id v es hx)
  · rw [node?_rewire ha, Option.map_eq_some_iff] at hx
    obtain ⟨⟨w, ds⟩, hx, heq⟩ := hx
    cases heq
    exact first _ (hca.edges id w ds hx)

theorem Closed.append (h : append operation a b = .ok g) (ha : a.WellFormed)
    (hca : a.Closed out) (hcb : b.Closed out) : g.Closed out := by
  rcases append_cases h with ⟨_, rfl⟩ | ⟨_, rfl⟩ | ⟨r, rfl, hs, hn, -⟩
  · exact hcb
  · exact hca
  · exact .sequence ha hca hcb hs hn

theorem Whole.append (h : append operation a b = .ok g) (ha : a.Whole) (hb : b.Whole)
    (hab : a.Apart b) : g.Whole :=
  ⟨.append h ha.wf hb.wf hab, .append h ha.wf ha.closed hb.closed⟩

theorem TakenIn.append {lo hi lo' hi' n m : Nat} (h : append operation a b = .ok g)
    (hw : a.WellFormed) (ha : a.TakenIn lo hi) (hb : b.TakenIn lo' hi') (hlo : n ≤ lo ∧ n ≤ lo')
    (hhi : hi ≤ m ∧ hi' ≤ m) : g.TakenIn n m := by
  intro id hid
  rw [has_append h hw, Bool.or_eq_true] at hid
  rcases hid with hid | hid
  · exact ha.mono hlo.1 hhi.1 id hid
  · exact hb.mono hlo.2 hhi.2 id hid

/-- A complete path of a sequence is a complete path of the first graph, then one of the second. -/
theorem reaches_append (h : append operation a b = .ok g) (ha : a.Whole) (hb : b.Whole)
    (hab : a.Apart b) {vs : List Vertex} : g.Reaches vs sink ↔
      ∃ xs ys, vs = xs ++ ys ∧ a.Reaches xs sink ∧ b.Reaches ys sink := by
  have hout := (Whole.append h ha hb hab).out_none
  rcases append_cases h with ⟨he, rfl⟩ | ⟨he, rfl⟩ | ⟨r, rfl, hs, hn, -⟩
  · simp [reaches_of_isEmpty he]
  · simp [reaches_of_isEmpty he]
  · unfold Reaches
    rw [hs]
    refine (leads_rewire ha.wf ha.closed.edges (includes_of_node?_or hn (hab.rewire ha.wf).agree)
      (node?_eq_none_iff.1 ha.wf.sink_none) ha.closed.start).trans ?_
    simp only [leads_of_includes (includes_right_of_node?_or hn) hb.closed.edges hout
      hb.closed.start]

end Append

section Fork

theorem exists_target_foldl_addStart {ds start : List Edge} {t : VertexId} :
    (∃ e ∈ ds.foldl addStart start, e.target = t) ↔
      (∃ e ∈ start, e.target = t) ∨ ∃ e ∈ ds, e.target = t := by
  induction ds generalizing start with
  | nil => simp
  | cons d ds ih =>
    rw [List.foldl_cons, ih]
    have one : (∃ e ∈ addStart start d, e.target = t) ↔
        (∃ e ∈ start, e.target = t) ∨ d.target = t := by
      unfold addStart
      split <;> rename_i hd
      · constructor
        · exact Or.inl
        · rintro (h | h)
          · exact h
          · rw [hd.1] at h
            exact h ▸ Edge.anyTo_iff.1 hd.2
      · simp [or_and_right, exists_or]
    rw [one]
    simp [or_assoc]

theorem leads_of_node?_or (hn : ∀ id, g.node? id = (b.node? id).or (a.node? id))
    (hab : a.Agree b) (hca : a.Closed out) (hcb : b.Closed out)
    (ho : ∀ id, out id → g.node? id = none) {es : List Edge}
    (hs : ∀ t, (∃ e ∈ es, e.target = t) ↔
      (∃ e ∈ a.start, e.target = t) ∨ ∃ e ∈ b.start, e.target = t)
    {vs : List Vertex} {t : VertexId} : g.Leads es vs t ↔ a.Reaches vs t ∨ b.Reaches vs t := by
  have split : g.Leads es vs t ↔ g.Leads (a.start ++ b.start) vs t := by
    have same : ∀ s, (∃ e ∈ es, e.target = s) ↔ ∃ e ∈ a.start ++ b.start, e.target = s := by
      intro s
      rw [hs]
      simp [or_and_right, exists_or]
    constructor
    · exact fun h => h.mono fun e he => (same _).1 ⟨e, he, rfl⟩
    · exact fun h => h.mono fun e he => (same _).2 ⟨e, he, rfl⟩
  rw [split, leads_append, leads_of_includes (includes_of_node?_or hn hab) hca.edges ho hca.start,
    leads_of_includes (includes_right_of_node?_or hn) hcb.edges ho hcb.start]
  rfl

theorem closed_of_node?_or (hn : ∀ id, g.node? id = (b.node? id).or (a.node? id))
    (hab : a.Agree b) (hca : a.Closed out) (hcb : b.Closed out)
    (hs : ∀ t, (∃ e ∈ g.start, e.target = t) → (∃ e ∈ a.start, e.target = t) ∨
      ∃ e ∈ b.start, e.target = t) : g.Closed out := by
  have hia := includes_of_node?_or hn hab
  have hib := includes_right_of_node?_or hn
  constructor
  · intro e he
    rcases hs _ ⟨e, he, rfl⟩ with ⟨d, hd, ht⟩ | ⟨d, hd, ht⟩
    · exact ht ▸ hia.targets hca.start d hd
    · exact ht ▸ hib.targets hcb.start d hd
  · intro id v es hx
    rw [hn, Option.or_eq_some_iff] at hx
    rcases hx with hx | ⟨_, hx⟩
    · exact hib.targets (hcb.edges id v es hx)
    · exact hia.targets (hca.edges id v es hx)

theorem choice_ok {start : List Edge} (ha : a.Whole) (hb : b.Whole) (hab : a.Apart b)
    (hs : ∀ t, (∃ e ∈ start, e.target = t) ↔
      (∃ e ∈ a.start, e.target = t) ∨ ∃ e ∈ b.start, e.target = t)
    (hg : g = ⟨a.nodes.union b.nodes, a.exits.union b.exits, start⟩) :
    g.Whole ∧ (∀ id, g.has id = (a.has id || b.has id)) ∧ (g.Includes a ∧ g.Includes b) ∧
      ∀ vs t, g.Reaches vs t ↔ a.Reaches vs t ∨ b.Reaches vs t := by
  subst hg
  have hn := node?_union (a := a) (b := b) (a.exits.union b.exits) start
  have hw := wellFormed_of_node?_or hn (contains_union _ _) ha.wf hb.wf hab.agree
  have hc := closed_of_node?_or hn hab.agree ha.closed hb.closed fun t => (hs t).1
  refine ⟨⟨hw, hc⟩, has_of_node?_or hn, ⟨includes_of_node?_or hn hab.agree,
    includes_right_of_node?_or hn⟩, fun vs t => ?_⟩
  exact leads_of_node?_or hn hab.agree ha.closed hb.closed (Whole.out_none ⟨hw, hc⟩) hs

theorem forkOnto_ok {bs : List Graph} {r : Graph} (h : forkOnto g bs = .ok r) (hg : g.Whole)
    (hw : ∀ b ∈ bs, b.Whole) (hp : (g :: bs).Pairwise Apart) :
    r.Whole ∧ (∀ id, r.has id = true ↔ g.has id = true ∨ ∃ b ∈ bs, b.has id = true) ∧
      (∀ b ∈ g :: bs, r.Includes b) ∧
      ∀ vs t, r.Reaches vs t ↔ g.Reaches vs t ∨ ∃ b ∈ bs, b.Reaches vs t := by
  induction bs generalizing g with
  | nil =>
    cases h
    exact ⟨hg, by simp, fun b hb _ _ hx => List.mem_singleton.1 hb ▸ hx, by simp⟩
  | cons b bs ih =>
    obtain ⟨nodes, hm, h⟩ := ok_of_bind_ok h
    rw [mergeEntries_eq hm] at h
    obtain ⟨hgs, hbs⟩ := List.pairwise_cons.1 hp
    generalize heq : (⟨g.nodes.union b.nodes, g.exits.union b.exits,
      b.start.foldl addStart g.start⟩ : Graph) = m at h
    obtain ⟨hcw, hch, ⟨hcg, hcb⟩, hcr⟩ := choice_ok hg (hw b List.mem_cons_self) (hgs b List.mem_cons_self)
      (fun _ => exists_target_foldl_addStart) heq.symm
    have apart : ∀ c ∈ bs, m.Apart c := by
      intro c hc id hid
      rw [hch, Bool.or_eq_true] at hid
      rcases hid with hid | hid
      · exact hgs c (List.mem_cons_of_mem _ hc) id hid
      · exact (List.pairwise_cons.1 hbs).1 c hc id hid
    obtain ⟨hrw, hrh, hri, hrr⟩ := ih h hcw (fun c hc => hw c (List.mem_cons_of_mem _ hc))
      (List.pairwise_cons.2 ⟨apart, (List.pairwise_cons.1 hbs).2⟩)
    obtain ⟨hrm, hri⟩ := List.forall_mem_cons.1 hri
    refine ⟨hrw, fun id => ?_, ?_, fun vs t => ?_⟩
    · rw [hrh, hch, Bool.or_eq_true, or_assoc]
      simp
    · refine List.forall_mem_cons.2 ⟨fun id x hx => hrm id x (hcg id x hx), ?_⟩
      exact List.forall_mem_cons.2 ⟨fun id x hx => hrm id x (hcb id x hx), hri⟩
    · rw [hrr, hcr, or_assoc]
      simp

/-- A path of a choice is a path of one of its branches. -/
theorem fork_ok {bs : List Graph} {r : Graph} (h : fork bs = .ok r) (hne : bs ≠ [])
    (hw : ∀ b ∈ bs, b.Whole) (hp : bs.Pairwise Apart) :
    r.Whole ∧ (∀ id, r.has id = true ↔ ∃ b ∈ bs, b.has id = true) ∧ (∀ b ∈ bs, r.Includes b) ∧
      ∀ vs t, r.Reaches vs t ↔ ∃ b ∈ bs, b.Reaches vs t := by
  cases bs with
  | nil => exact absurd rfl hne
  | cons b bs =>
    have none : (⟨∅, ∅, []⟩ : Graph).Whole := by
      refine ⟨wellFormed_nil _, ?_, ?_⟩
      · intro e he; cases he
      · intro id v es hx; cases hx
    obtain ⟨hrw, hrh, hri, hrr⟩ := forkOnto_ok h none hw
      (List.pairwise_cons.2 ⟨fun _ _ _ hid => (by cases hid), hp⟩)
    refine ⟨hrw, fun id => ?_, (List.forall_mem_cons.1 hri).2, fun vs t => ?_⟩
    · rw [hrh]
      exact or_iff_right fun hid => by cases hid
    · rw [hrr]
      refine or_iff_right fun hv => ?_
      cases vs with
      | nil => obtain ⟨e, he, _⟩ := hv; cases he
      | cons v vs => obtain ⟨e, he, _⟩ := hv; cases he

end Fork

section Attach

variable {p : VertexId} {v : Vertex} {operation : Nat}

def around (g : Graph) (p : VertexId) : Graph := ⟨g.nodes.erase p, g.exits, g.edgesOf p⟩

theorem node?_around (id : VertexId) :
    (g.around p).node? id = if id = p then none else g.node? id := by
  rw [node?, around, IdMap.get?_erase]
  split <;> rfl

theorem edgesOf_of_node? {es : List Edge} (h : g.node? p = some (v, es)) : g.edgesOf p = es := by
  obtain ⟨e, he, heq⟩ := Option.map_eq_some_iff.1 h
  cases heq
  simp [edgesOf, edges?, he]

theorem Apart.agree_around (h : a.Apart b) (p : VertexId) : (a.around p).Agree b := by
  intro id x y hx hy
  rw [node?_around] at hx
  split at hx
  · cases hx
  · exact h.agree id x y hx hy

/-- A graph that starts at one vertex, and where control comes back to that vertex or leaves. -/
structure Hub (g : Graph) (p : VertexId) (v : Vertex) : Prop where
  wf : g.WellFormed
  start : g.start = [⟨p, false⟩]
  node : g.node? p = some (v, (g.around p).start)
  closed : (g.around p).Closed fun id => id = sink ∨ id = p

theorem Hub.out_none (h : g.Hub p v) : ∀ id, id = sink ∨ id = p → (g.around p).node? id = none := by
  rintro id (rfl | rfl)
  · rw [node?_around, h.wf.sink_none, ite_self]
  · rw [node?_around, if_pos rfl]

theorem Hub.whole (h : g.Hub p v) : g.Whole := by
  have lift : ∀ es, (g.around p).Targets (fun id => id = sink ∨ id = p) es →
      g.Targets (· = sink) es := by
    intro es he e hm
    rcases he e hm with ⟨x, hx⟩ | hx | hx
    · rw [node?_around] at hx
      split at hx
      · cases hx
      · exact Or.inl ⟨x, hx⟩
    · exact Or.inr hx
    · exact Or.inl ⟨_, hx ▸ h.node⟩
  refine ⟨h.wf, ?_, ?_⟩
  · rw [h.start]
    intro e he
    rw [List.mem_singleton.1 he]
    exact Or.inl ⟨_, h.node⟩
  · intro id w es hx
    by_cases hid : id = p
    · have heq := (hid ▸ hx).symm.trans h.node
      cases heq
      exact lift _ h.closed.start
    · exact lift _ (h.closed.edges id w es (by rw [node?_around, if_neg hid, hx]))

theorem attach_ok {r : Graph} (h : attach operation g p b = .ok r) :
    ∃ v es, g.node? p = some (v, es) ∧ b.node? p = none ∧ r.start = g.start ∧
      (∀ id, r.node? id = if id = p then some (v, es ++ b.start)
        else (b.node? id).or (g.node? id)) ∧
      ∀ id, r.exits.contains id = true ↔ g.exits.contains id = true ∨
        b.exits.contains id = true ∨ (id = p ∧ Edge.anyTo b.start sink = true) := by
  obtain ⟨e, he, h⟩ := ok_of_bind_ok h
  have hget := entry_eq_ok_iff.1 he
  split at h <;> rename_i hb
  · cases h
  · obtain ⟨nodes, hm, heq⟩ := ok_of_bind_ok h
    cases heq
    rw [mergeEntries_eq hm]
    refine ⟨e.vertex, e.edges, by rw [node?, hget]; rfl, ?_, rfl, fun id => ?_, fun id => ?_⟩
    · rw [node?_eq_none_iff]
      simpa using hb
    · rw [node?, IdMap.get?_insert]
      split
      · rfl
      · exact node?_union g.exits g.start id
    · by_cases hs : Edge.anyTo b.start sink = true
      · simp only [hs, if_true, IdMap.contains_iff, IdMap.get?_insert]
        by_cases hid : id = p
        · simp [hid]
        · simp [hid, ← IdMap.contains_iff, contains_union, -IdMap.get?_union]
      · simp [hs, contains_union]

theorem WellFormed.attach {r : Graph} (hg : g.WellFormed) (hb : b.WellFormed)
    (hab : (g.around p).Agree b) (h : attach operation g p b = .ok r) : r.WellFormed := by
  obtain ⟨v, es, hn, hbp, -, hr, hx⟩ := attach_ok h
  have cases_of : ∀ id x, id ≠ p → r.node? id = some x →
      g.node? id = some x ∨ b.node? id = some x := by
    intro id x hid hx
    rw [hr, if_neg hid, Option.or_eq_some_iff] at hx
    exact hx.symm.imp_left And.right
  have of_old : ∀ id x, id ≠ p → g.node? id = some x → r.node? id = some x := by
    intro id x hid hx
    rw [hr, if_neg hid]
    cases hy : b.node? id with
    | none => exact hx
    | some y => exact congrArg some (hab id x y (by rw [node?_around, if_neg hid, hx]) hy).symm
  refine ⟨?_, ?_, ?_⟩
  · intro id w ds hid
    by_cases hp : id = p
    · rw [hr, if_pos hp] at hid
      cases hid
      exact hp ▸ hg.own _ _ _ hn
    · exact (cases_of _ _ hp hid).elim (hg.own _ _ _) (hb.own _ _ _)
  · intro id x hid
    by_cases hp : id = p
    · exact hp ▸ hg.real _ _ hn
    · exact (cases_of _ _ hp hid).elim (hg.real _ _) (hb.real _ _)
  · intro id
    rw [hx, hg.exits, hb.exits]
    by_cases hp : id = p
    · subst hp
      simp only [hn, hbp, hr, if_true, Option.some.injEq, Prod.mk.injEq]
      simp [Edge.anyTo]
    · constructor
      · rintro (⟨w, ds, hw, hs⟩ | ⟨w, ds, hw, hs⟩ | ⟨hid, _⟩)
        · exact ⟨w, ds, of_old _ _ hp hw, hs⟩
        · exact ⟨w, ds, by rw [hr, if_neg hp, hw]; rfl, hs⟩
        · exact absurd hid hp
      · rintro ⟨w, ds, hw, hs⟩
        rcases cases_of _ _ hp hw with hw | hw
        · exact Or.inl ⟨w, ds, hw, hs⟩
        · exact Or.inr (Or.inl ⟨w, ds, hw, hs⟩)

theorem Hub.attach {r : Graph} (hg : g.Hub p v) (hb : b.WellFormed)
    (hc : b.Closed fun id => id = sink ∨ id = p) (hab : (g.around p).Agree b)
    (h : attach operation g p b = .ok r) :
    r.Hub p v ∧ (∀ id, r.has id = (g.has id || b.has id)) ∧
      (∀ id, (r.around p).node? id = (b.node? id).or ((g.around p).node? id)) ∧
      ∀ vs t, (r.around p).Reaches vs t ↔ (g.around p).Reaches vs t ∨ b.Reaches vs t := by
  obtain ⟨w, es, hn, hbp, hs, hr, hx⟩ := attach_ok h
  have heq := hn.symm.trans hg.node
  cases heq
  have hra : ∀ id, (r.around p).node? id = (b.node? id).or ((g.around p).node? id) := by
    intro id
    rw [node?_around, node?_around, hr]
    split <;> rename_i hid
    · rw [hid, hbp]; rfl
    · rfl
  have hrs : (r.around p).start = (g.around p).start ++ b.start :=
    edgesOf_of_node? (by rw [hr, if_pos rfl])
  have hst : ∀ t, (∃ e ∈ (r.around p).start, e.target = t) ↔
      (∃ e ∈ (g.around p).start, e.target = t) ∨ ∃ e ∈ b.start, e.target = t := by
    intro t
    rw [hrs]
    simp [or_and_right, exists_or]
  have hub : r.Hub p v := by
    refine ⟨.attach hg.wf hb hab h, hs.trans hg.start, ?_, ?_⟩
    · rw [hr, if_pos rfl, hrs]
    · exact closed_of_node?_or hra hab hg.closed hc fun t => (hst t).1
  refine ⟨hub, fun id => ?_, hra, fun vs t => ?_⟩
  · rw [Bool.eq_iff_iff, Bool.or_eq_true]
    simp only [has_iff, hr]
    split <;> rename_i hid
    · rw [hid, hg.node]; simp
    · cases b.node? id <;> cases g.node? id <;> simp
  · exact leads_of_node?_or hra hab hg.closed hc hub.out_none hst

/-- A path that does not end at the vertex avoids it, or comes to it a first time and goes on along its
edges. -/
theorem leads_around {es ds : List Edge} (hp : g.node? p = some (v, es)) {t : VertexId}
    {vs : List Vertex} : g.Leads ds vs t ↔ (g.around p).Leads ds vs t ∨
      ∃ xs ys, vs = xs ++ v :: ys ∧ (g.around p).Leads ds xs p ∧ g.Leads es ys t := by
  induction vs generalizing ds with
  | nil => simp [Leads]
  | cons w vs ih =>
    constructor
    · rintro ⟨e, he, next, hn, hl⟩
      by_cases hid : e.target = p
      · have heq := (hid ▸ hn).symm.trans hp
        cases heq
        exact Or.inr ⟨[], vs, rfl, ⟨e, he, hid⟩, hl⟩
      · have hn' : (g.around p).node? e.target = some (w, next) := by
          rw [node?_around, if_neg hid, hn]
        rcases ih.1 hl with hl | ⟨xs, ys, rfl, hx, hy⟩
        · exact Or.inl ⟨e, he, next, hn', hl⟩
        · exact Or.inr ⟨w :: xs, ys, rfl, ⟨e, he, next, hn', hx⟩, hy⟩
    · rintro (⟨e, he, next, hn, hl⟩ | ⟨xs, ys, hv, hx, hy⟩)
      · rw [node?_around] at hn
        split at hn
        · cases hn
        · exact ⟨e, he, next, hn, ih.2 (Or.inl hl)⟩
      · cases xs with
        | nil =>
          obtain ⟨rfl, rfl⟩ := List.cons.inj hv
          obtain ⟨e, he, hid⟩ := hx
          exact ⟨e, he, es, hid ▸ hp, hy⟩
        | cons x xs =>
          obtain ⟨rfl, rfl⟩ := List.cons.inj hv
          obtain ⟨e, he, next, hn, hl⟩ := hx
          rw [node?_around] at hn
          split at hn
          · cases hn
          · exact ⟨e, he, next, hn, ih.2 (Or.inr ⟨xs, ys, rfl, hl, hy⟩)⟩

end Attach

section Loop

variable {p : VertexId} {operation : Nat}

theorem WellFormed.loopTo (ha : a.WellFormed) : (a.loopTo operation p).WellFormed := ha.rewire

theorem has_loopTo (ha : a.WellFormed) (id : VertexId) :
    (a.loopTo operation p).has id = a.has id := has_rewire ha id

theorem Closed.loopTo (ha : a.Whole) : (a.loopTo operation p).Closed (· = p) := by
  have h : (a.loopTo operation p).Closed _ := Closed.rewire ha.wf ha.closed
  have one : ∀ id, (∃ r ∈ [(⟨p, true⟩ : Edge)], r.target = id) → id = p := by
    rintro id ⟨r, hr, rfl⟩
    rw [List.mem_singleton.1 hr]
  exact ⟨h.start.mono one, fun id v es hx => (h.edges id v es hx).mono one⟩

theorem reaches_loopTo (ha : a.Whole) (hp : a.has p = false) {t : VertexId} (ht : a.has t = false)
    {vs : List Vertex} : (a.loopTo operation p).Reaches vs t ↔ t = p ∧ a.Reaches vs sink := by
  refine (leads_rewire ha.wf ha.closed.edges (fun _ _ hx => hx) ht ha.closed.start).trans ?_
  have hnone : (a.loopTo operation p).node? p = none := by
    rw [node?_eq_none_iff, has_loopTo ha.wf, hp]
  constructor
  · rintro ⟨xs, ys, rfl, hx, hy⟩
    cases ys with
    | nil =>
      obtain ⟨e, he, rfl⟩ := hy
      rw [List.mem_singleton.1 he, List.append_nil]
      exact ⟨rfl, hx⟩
    | cons y ys =>
      obtain ⟨e, he, next, hn, _⟩ := hy
      rw [List.mem_singleton.1 he] at hn
      have heq := hnone.symm.trans hn
      cases heq
  · rintro ⟨rfl, hx⟩
    exact ⟨vs, [], (List.append_nil vs).symm, hx, ⟨t, true⟩, List.mem_singleton_self _, rfl⟩

end Loop

end Graph

end StoryFlow.Flow
