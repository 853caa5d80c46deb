import StoryFlow.Proofs.Flow.Composition

/-! The statements that are read along the paths of a graph, as a language. The operations on graphs
become the operations on languages: a sequence is a product, a choice a sum, and a vertex that control
comes back to a star. -/

namespace StoryFlow.Flow.Graph

open Computability

variable {a b g : Graph} {p : VertexId} {v : Vertex} {s : Stmt}

def Reads (vs : List Vertex) (w : List Stmt) : Prop := vs.map Vertex.stmt = w.map some

theorem reads_nil {w : List Stmt} : Reads [] w ↔ w = [] := by
  cases w <;> simp [Reads]

theorem reads_cons {vs : List Vertex} {w : List Stmt} :
    Reads (v :: vs) w ↔ ∃ s u, w = s :: u ∧ v.stmt = some s ∧ Reads vs u := by
  cases w with
  | nil => simp [Reads]
  | cons t w => simp [Reads]

theorem reads_append {xs ys : List Vertex} {w : List Stmt} :
    Reads (xs ++ ys) w ↔ ∃ u u', w = u ++ u' ∧ Reads xs u ∧ Reads ys u' := by
  induction xs generalizing w with
  | nil => simp [reads_nil]
  | cons x xs ih =>
    simp only [List.cons_append, reads_cons, ih]
    constructor
    · rintro ⟨s, _, rfl, hs, u, u', rfl, hu, hu'⟩
      exact ⟨s :: u, u', rfl, ⟨s, u, rfl, hs, hu⟩, hu'⟩
    · rintro ⟨_, u', rfl, ⟨s, u, rfl, hs, hu⟩, hu'⟩
      exact ⟨s, u ++ u', rfl, hs, u, u', rfl, hu, hu'⟩

def wordsFrom (g : Graph) (es : List Edge) (t : VertexId) : Language Stmt :=
  {w | ∃ vs, g.Leads es vs t ∧ Reads vs w}

def wordsTo (g : Graph) (t : VertexId) : Language Stmt := g.wordsFrom g.start t

def words (g : Graph) : Language Stmt := g.wordsTo sink

theorem mem_wordsTo {t : VertexId} {w : List Stmt} :
    w ∈ g.wordsTo t ↔ ∃ vs, g.Reaches vs t ∧ Reads vs w := Iff.rfl

/-- After these statements were read, control can come to a vertex with the statement. -/
def Passes (g : Graph) (u : List Stmt) (s : Stmt) : Prop :=
  ∃ id v es, g.node? id = some (v, es) ∧ v.stmt = some s ∧ u ∈ g.wordsTo id

theorem words_of_isEmpty (h : g.isEmpty = true) : g.words = 1 := by
  ext w
  rw [words, mem_wordsTo, Language.mem_one]
  simp [reaches_of_isEmpty h, reads_nil]

theorem words_append {operation : Nat} (h : append operation a b = .ok g) (ha : a.Whole)
    (hb : b.Whole) (hab : a.Apart b) : g.words = a.words * b.words := by
  ext w
  simp only [words, mem_wordsTo, reaches_append h ha hb hab, Language.mem_mul]
  constructor
  · rintro ⟨_, ⟨xs, ys, rfl, hx, hy⟩, hw⟩
    obtain ⟨u, u', rfl, hu, hu'⟩ := reads_append.1 hw
    exact ⟨u, ⟨xs, hx, hu⟩, u', ⟨ys, hy, hu'⟩, rfl⟩
  · rintro ⟨u, ⟨xs, hx, hu⟩, u', ⟨ys, hy, hu'⟩, rfl⟩
    exact ⟨xs ++ ys, ⟨xs, ys, rfl, hx, hy⟩, reads_append.2 ⟨u, u', rfl, hu, hu'⟩⟩

theorem mem_words_fork {bs : List Graph} (h : fork bs = .ok g) (hne : bs ≠ [])
    (hw : ∀ b ∈ bs, b.Whole) (hp : bs.Pairwise Apart) {w : List Stmt} :
    w ∈ g.words ↔ ∃ b ∈ bs, w ∈ b.words := by
  simp only [words, mem_wordsTo, (fork_ok h hne hw hp).2.2.2]
  constructor
  · rintro ⟨vs, ⟨b, hb, hv⟩, hr⟩; exact ⟨b, hb, vs, hv, hr⟩
  · rintro ⟨b, hb, vs, hv, hr⟩; exact ⟨vs, ⟨b, hb, hv⟩, hr⟩

theorem wordsTo_of_reaches_or {r : Graph} {t : VertexId}
    (h : ∀ vs, r.Reaches vs t ↔ a.Reaches vs t ∨ b.Reaches vs t) :
    r.wordsTo t = a.wordsTo t + b.wordsTo t := by
  ext w
  simp only [Language.mem_add, mem_wordsTo, h, or_and_right, exists_or]

theorem wordsTo_loopTo {operation : Nat} (ha : a.Whole) (hp : a.has p = false) :
    (a.loopTo operation p).wordsTo p = a.words := by
  ext w
  simp [words, mem_wordsTo, reaches_loopTo ha hp hp]

theorem words_loopTo {operation : Nat} (ha : a.Whole) (hp : a.has p = false) (hs : p ≠ sink) :
    (a.loopTo operation p).words = 0 := by
  ext w
  have ht : a.has sink = false := node?_eq_none_iff.1 ha.wf.sink_none
  simp [words, mem_wordsTo, reaches_loopTo ha hp ht, hs.symm]

theorem Closed.target {out : VertexId → Prop} (hc : g.Closed out) {vs : List Vertex}
    {t : VertexId} (h : g.Reaches vs t) : g.has t = true ∨ out t := by
  have go : ∀ (vs : List Vertex) (es : List Edge), g.Targets out es → g.Leads es vs t →
      g.has t = true ∨ out t := by
    intro vs
    induction vs with
    | nil =>
      rintro es he ⟨e, hm, rfl⟩
      exact (he e hm).imp_left has_iff.2
    | cons v vs ih =>
      rintro es he ⟨e, hm, next, hn, hl⟩
      exact ih next (hc.edges _ _ _ hn) hl
  exact go vs g.start hc.start h

theorem wordsTo_eq_zero (ha : a.Whole) (hp : a.has p = false) (hs : p ≠ sink) :
    a.wordsTo p = 0 := by
  ext w
  rw [mem_wordsTo]
  refine iff_of_false ?_ (Language.notMem_zero w)
  rintro ⟨vs, hv, _⟩
  rcases ha.closed.target hv with h | h
  · rw [hp] at h; cases h
  · exact hs h

/-- Around a hub: the statement of the vertex, any number of ways back to it, and a way out. -/
theorem Hub.words (h : g.Hub p v) (hv : v.stmt = some s) :
    g.words = {[s]} * (((g.around p).wordsTo p * {[s]})∗ * (g.around p).wordsTo sink) := by
  have enter : g.words = {[s]} * g.wordsFrom (g.around p).start sink := by
    ext w
    rw [Graph.words, mem_wordsTo, Language.mem_mul]
    constructor
    · rintro ⟨vs, hr, hw⟩
      rw [Reaches, h.start] at hr
      cases vs with
      | nil =>
        obtain ⟨e, he, hes⟩ := hr
        rw [List.mem_singleton.1 he] at hes
        have := h.wf.real _ _ h.node
        exact absurd this (by rw [show p = sink from hes]; decide)
      | cons x vs =>
        obtain ⟨e, he, next, hn, hl⟩ := hr
        rw [List.mem_singleton.1 he] at hn
        have heq := hn.symm.trans h.node
        cases heq
        obtain ⟨t, u, rfl, ht, hu⟩ := reads_cons.1 hw
        rw [hv] at ht
        cases ht
        exact ⟨[s], rfl, u, ⟨vs, hl, hu⟩, rfl⟩
    · rintro ⟨x, hx, u, ⟨vs, hl, hu⟩, rfl⟩
      obtain rfl : x = [s] := hx
      refine ⟨v :: vs, ?_, reads_cons.2 ⟨s, u, rfl, hv, hu⟩⟩
      rw [Reaches, h.start]
      exact ⟨_, List.mem_singleton_self _, _, h.node, hl⟩
  rw [enter]
  congr 1
  refine (Language.self_eq_mul_add_iff ?_).1 ?_
  · rw [Language.mem_mul]
    rintro ⟨x, _, y, hy, hxy⟩
    obtain rfl : y = [s] := hy
    simp at hxy
  · ext w
    rw [Language.mem_add, Language.mem_mul]
    constructor
    · rintro ⟨vs, hl, hw⟩
      rcases (leads_around h.node).1 hl with hl | ⟨xs, ys, rfl, hx, hy⟩
      · exact Or.inr ⟨vs, hl, hw⟩
      · obtain ⟨u, tail, rfl, hu, ht⟩ := reads_append.1 hw
        obtain ⟨t, u', rfl, hvt, hu'⟩ := reads_cons.1 ht
        rw [hv] at hvt
        cases hvt
        exact Or.inl ⟨u ++ [s], Language.append_mem_mul ⟨xs, hx, hu⟩ rfl, u', ⟨ys, hy, hu'⟩,
          (List.append_cons ..).symm⟩
    · rintro (⟨back, hb, u', ⟨ys, hy, hu'⟩, rfl⟩ | ⟨vs, hl, hw⟩)
      · obtain ⟨u, ⟨xs, hx, hu⟩, t, ht, rfl⟩ := Language.mem_mul.1 hb
        obtain rfl : t = [s] := ht
        refine ⟨xs ++ v :: ys, (leads_around h.node).2 (Or.inr ⟨xs, ys, rfl, hx, hy⟩), ?_⟩
        exact reads_append.2 ⟨u, s :: u', by simp, hu, reads_cons.2 ⟨s, u', rfl, hv, hu'⟩⟩
      · exact ⟨vs, (leads_around h.node).2 (Or.inl hl), hw⟩

end StoryFlow.Flow.Graph
