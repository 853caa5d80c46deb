import StoryFlow.Flow.Visible
import StoryFlow.Proofs.Flow.Order

/-! The search behind invisible vertices. Whatever cycles a graph has, every edge of its visible view stands
for a way past invisible vertices only, with a loop edge on it if the edge is one. Of the ways there are the
view has each that takes no edge of a cycle of invisible vertices. A way along such a cycle may be lost: the
search turns back at a vertex it is still in, and remembers what it has found until then as if it were all. -/

namespace StoryFlow

universe u v w

theorem ok_bind {ε : Type u} {α : Type v} {β : Type w} {x : Except ε α} {f : α → Except ε β} {a : α}
    {b : β} (h : x = .ok a) (hf : f a = .ok b) : x.bind f = .ok b := by
  rw [h]
  exact hf

theorem foldlM_total {ε : Type u} {σ : Type v} {α : Type w} {f : σ → α → Except ε σ}
    {P : List α → σ → Prop} {l : List α} {s : σ} (h₀ : P [] s)
    (hstep : ∀ done e s, e ∈ l → P done s → ∃ s', f s e = .ok s' ∧ P (done ++ [e]) s') :
    ∃ s', l.foldlM f s = .ok s' ∧ P l s' := by
  have go : ∀ (rest done : List α) (s : σ), (∀ e ∈ rest, e ∈ l) → P done s →
      ∃ s', rest.foldlM f s = .ok s' ∧ P (done ++ rest) s' := by
    intro rest
    induction rest with
    | nil => exact fun done s _ hs => ⟨s, rfl, by rwa [List.append_nil]⟩
    | cons e rest ih =>
      intro done s hin hs
      obtain ⟨he, hrest⟩ := List.forall_mem_cons.1 hin
      obtain ⟨s₁, hs₁, hP⟩ := hstep done e s he hs
      obtain ⟨s', hs', hP'⟩ := ih _ s₁ hrest hP
      rw [List.append_assoc] at hP'
      refine ⟨s', ?_, hP'⟩
      rw [List.foldlM_cons, hs₁]
      exact hs'
  exact go l [] s (fun _ he => he) h₀

end StoryFlow

namespace StoryFlow.Flow

open Relation

section Merging

variable {old new es ds : List Edge} {e d : Edge} {t : VertexId} {loop : Bool}

/-- Some edge leads where this one leads, and is a loop edge if this one is. -/
def Edge.Covered (ds : List Edge) (e : Edge) : Prop :=
  ∃ d ∈ ds, d.target = e.target ∧ (e.loop = true → d.loop = true)

theorem Edge.covered_of_mem (h : e ∈ ds) : Covered ds e := ⟨e, h, rfl, id⟩

theorem Edge.Covered.trans (h : Covered es e) (hd : ∀ c ∈ es, Covered ds c) : Covered ds e := by
  obtain ⟨c, hc, ht, hl⟩ := h
  obtain ⟨d, hd, ht', hl'⟩ := hd c hc
  exact ⟨d, hd, ht'.trans ht, fun h => hl' (hl h)⟩

structure Edge.Merges (old new r : List Edge) : Prop where
  origin : r ⊆ old ++ new
  covered : ∀ c ∈ old ++ new, Covered r c

theorem Edge.merges_append (old new : List Edge) : Merges old new (old ++ new) :=
  ⟨fun _ hd => hd, fun _ hc => covered_of_mem hc⟩

theorem Edge.Merges.trans {mid r : List Edge} (h : Merges old new mid) (h' : Merges mid ds r) :
    Merges old (new ++ ds) r := by
  refine ⟨fun d hd => ?_, fun c hc => ?_⟩
  · rw [← List.append_assoc]
    refine List.mem_append.2 ((List.mem_append.1 (h'.origin hd)).imp_left fun hd => h.origin hd)
  · rw [← List.append_assoc] at hc
    rcases List.mem_append.1 hc with hc | hc
    · exact (h.covered c hc).trans fun d hd => h'.covered d (List.mem_append_left _ hd)
    · exact h'.covered c (List.mem_append_right _ hc)

theorem mem_orLoop (h : d ∈ orLoop e.target e.loop es) : d ∈ es ∨ d = e := by
  induction es with
  | nil => cases h
  | cons c es ih =>
    unfold orLoop at h
    split at h <;> rename_i ht
    · rcases List.mem_cons.1 h with rfl | h
      · cases hc : c.loop with
        | true => exact Or.inl (List.mem_cons.2 (Or.inl (by rw [Bool.true_or, ← hc])))
        | false => exact Or.inr (by rw [Bool.false_or, ht])
      · exact Or.inl (List.mem_cons_of_mem _ h)
    · rcases List.mem_cons.1 h with rfl | h
      · exact Or.inl List.mem_cons_self
      · exact (ih h).imp_left (List.mem_cons_of_mem _)

theorem anyTo_orLoop {s : VertexId} : Edge.anyTo (orLoop t loop es) s = Edge.anyTo es s := by
  induction es with
  | nil => rfl
  | cons c es ih =>
    simp only [Edge.anyTo] at ih
    unfold orLoop
    split
    · simp [Edge.anyTo]
    · simp [Edge.anyTo, ih]

theorem covered_orLoop (h : d ∈ es) : Edge.Covered (orLoop t loop es) d := by
  induction es with
  | nil => cases h
  | cons c es ih =>
    unfold orLoop
    split
    · rcases List.mem_cons.1 h with rfl | h
      · exact ⟨_, List.mem_cons_self, rfl, fun hl => by rw [hl, Bool.true_or]⟩
      · exact Edge.covered_of_mem (List.mem_cons_of_mem _ h)
    · rcases List.mem_cons.1 h with rfl | h
      · exact Edge.covered_of_mem List.mem_cons_self
      · exact (ih h).trans fun b hb => Edge.covered_of_mem (List.mem_cons_of_mem _ hb)

theorem covered_orLoop_self (h : Edge.anyTo es e.target = true) :
    Edge.Covered (orLoop e.target e.loop es) e := by
  induction es with
  | nil => cases h
  | cons c es ih =>
    unfold orLoop
    split <;> rename_i ht
    · exact ⟨_, List.mem_cons_self, ht, fun hl => by rw [hl, Bool.or_true]⟩
    · have hrest : Edge.anyTo es e.target = true := by simpa [Edge.anyTo, ht] using h
      exact (ih hrest).trans fun b hb => Edge.covered_of_mem (List.mem_cons_of_mem _ hb)

theorem merges_orLoop (h : Edge.anyTo es e.target = true) :
    Edge.Merges es [e] (orLoop e.target e.loop es) := by
  refine ⟨fun d hd => ?_, fun c hc => ?_⟩
  · exact List.mem_append.2 ((mem_orLoop hd).imp_right List.mem_singleton.2)
  · rcases List.mem_append.1 hc with hc | hc
    · exact covered_orLoop hc
    · rw [List.mem_singleton.1 hc]
      exact covered_orLoop_self h

theorem merges_joinEdge (es : List Edge) (e : Edge) : Edge.Merges es [e] (joinEdge es e) := by
  unfold joinEdge
  split <;> rename_i h
  · exact merges_orLoop h
  · exact Edge.merges_append es [e]

theorem merges_foldl_joinEdge (old new : List Edge) : Edge.Merges old new (new.foldl joinEdge old) := by
  induction new generalizing old with
  | nil => simpa using Edge.merges_append old []
  | cons e new ih => exact (merges_joinEdge old e).trans (ih _)

def Graph.Collapsing.Tracks (c : Graph.Collapsing) : Prop :=
  ∀ t ∈ c.expanded, Edge.anyTo c.edges t = true

theorem Edge.Merges.anyTo {r : List Edge} (h : Merges old new r) {c : Edge} (hc : c ∈ old ++ new) :
    Edge.anyTo r c.target = true := by
  obtain ⟨d, hd, ht, -⟩ := h.covered c hc
  exact Edge.anyTo_iff.2 ⟨d, hd, ht⟩

theorem Graph.Collapsing.Tracks.direct {c : Graph.Collapsing} (h : c.Tracks) (e : Edge) :
    Edge.Merges c.edges [e] (c.direct e).edges ∧ (c.direct e).Tracks := by
  unfold Graph.Collapsing.direct
  split <;> rename_i he
  · refine ⟨merges_orLoop (h _ (by simpa using he)), fun t ht => ?_⟩
    rw [anyTo_orLoop]
    exact h t ht
  · refine ⟨Edge.merges_append _ _, fun t ht => ?_⟩
    obtain ⟨d, hd, hdt⟩ := Edge.anyTo_iff.1 (h t ht)
    exact Edge.anyTo_iff.2 ⟨d, List.mem_append_left _ hd, hdt⟩

theorem Graph.Collapsing.Tracks.indirect {c : Graph.Collapsing} (h : c.Tracks) (es : List Edge) :
    Edge.Merges c.edges es (es.foldl Collapsing.indirect c).edges ∧
      (es.foldl Collapsing.indirect c).Tracks := by
  induction es generalizing c with
  | nil => exact ⟨by simpa using Edge.merges_append c.edges [], h⟩
  | cons e es ih =>
    have one := merges_joinEdge c.edges e
    obtain ⟨merges, tracks⟩ := ih (c := c.indirect e) (fun t ht => by
      rcases List.mem_cons.1 ht with rfl | ht
      · exact one.anyTo (by simp)
      · obtain ⟨d, hd, hdt⟩ := Edge.anyTo_iff.1 (h t ht)
        exact hdt ▸ one.anyTo (List.mem_append_left _ hd))
    exact ⟨one.trans merges, tracks⟩

end Merging

namespace Graph

variable {g r : Graph} {id t : VertexId} {v : Vertex} {es ds done part : List Edge} {e : Edge}
  {l : Bool} {operation : Nat} {found : Found} {enter : VertexId → Prop}

def Unseen (g : Graph) (id : VertexId) : Prop :=
  ∃ v es, g.node? id = some (v, es) ∧ v.visible = false

/-- An edge between invisible vertices. A cycle of such edges is a cycle without a visible vertex. -/
def Hidden (g : Graph) (a b : VertexId) : Prop := g.Unseen a ∧ g.Unseen b ∧ g.Linked a b

/-- One of the edges leads, past invisible vertices only, to a target that is not one. The flag says
whether one of the edges on the way is a loop edge. -/
inductive Past (g : Graph) : Bool → List Edge → VertexId → Prop where
  | here {es : List Edge} {e : Edge} : e ∈ es → ¬g.Unseen e.target → Past g e.loop es e.target
  | past {es ds : List Edge} {e : Edge} {v : Vertex} {l : Bool} {t : VertexId} : e ∈ es →
      g.node? e.target = some (v, ds) → v.visible = false → Past g l ds t → Past g (e.loop || l) es t

/-- The edge leads to the target as in `Past`, and the way takes no edge from which control can come back to
where the edge starts without seeing anything. -/
inductive Straight (g : Graph) : Bool → Edge → VertexId → Prop where
  | here {e : Edge} : ¬g.Unseen e.target → Straight g e.loop e e.target
  | past {e d : Edge} {v : Vertex} {es : List Edge} {l : Bool} {t : VertexId} :
      g.node? e.target = some (v, es) → v.visible = false → d ∈ es →
      ¬ReflTransGen g.Hidden d.target e.target → Straight g l d t → Straight g (e.loop || l) e t

theorem Past.mono (h : g.Past l es t) (hs : es ⊆ ds) : g.Past l ds t := by
  cases h with
  | here he ht => exact .here (hs he) ht
  | past he hn hv h => exact .past (hs he) hn hv h

/-- The edges `ds` stand for ways from the edges `es`, and cover the straight ones that begin with an edge
to a place that may be entered. -/
structure Finds (g : Graph) (enter : VertexId → Prop) (es ds : List Edge) : Prop where
  sound : ∀ d ∈ ds, g.Past d.loop es d.target
  covers : ∀ e ∈ es, enter e.target → ∀ l t, g.Straight l e t → Edge.Covered ds ⟨t, l⟩

theorem finds_nil (g : Graph) (enter : VertexId → Prop) : g.Finds enter [] [] :=
  ⟨by simp, by simp⟩

theorem Finds.merge {old new r : List Edge} (ho : g.Finds enter done old) (hn : g.Finds enter part new)
    (hr : Edge.Merges old new r) : g.Finds enter (done ++ part) r := by
  refine ⟨fun d hd => ?_, fun e he hin l t hs => ?_⟩
  · rcases List.mem_append.1 (hr.origin hd) with hd | hd
    · exact (ho.sound d hd).mono (List.subset_append_left _ _)
    · exact (hn.sound d hd).mono (List.subset_append_right _ _)
  · rcases List.mem_append.1 he with he | he
    · exact (ho.covers e he hin l t hs).trans fun c hc => hr.covered c (List.mem_append_left _ hc)
    · exact (hn.covers e he hin l t hs).trans fun c hc => hr.covered c (List.mem_append_right _ hc)

theorem finds_direct (enter : VertexId → Prop) (ht : ¬g.Unseen e.target) : g.Finds enter [e] [e] := by
  refine ⟨fun d hd => ?_, fun c hc _ l t hs => ?_⟩
  · rw [List.mem_singleton.1 hd]
    exact .here (List.mem_singleton_self e) ht
  · rw [List.mem_singleton.1 hc] at hs
    cases hs with
    | here _ => exact Edge.covered_of_mem (List.mem_singleton_self e)
    | past hn hv _ _ _ => exact absurd ⟨_, _, hn, hv⟩ ht

theorem Finds.through (hn : g.node? e.target = some (v, es)) (hv : v.visible = false)
    (sound : ∀ d ∈ ds, g.Past d.loop es d.target)
    (h : enter e.target → g.Finds (fun t => ¬ReflTransGen g.Hidden t e.target) es ds) :
    g.Finds enter [e] (ds.map (through e)) := by
  refine ⟨fun d hd => ?_, fun c hc hin l t hs => ?_⟩
  · obtain ⟨c, hc, rfl⟩ := List.mem_map.1 hd
    exact .past (List.mem_singleton_self e) hn hv (sound c hc)
  · rw [List.mem_singleton.1 hc] at hs hin
    cases hs with
    | here ht => exact absurd ⟨v, es, hn, hv⟩ ht
    | past hn' _ hd hback hs =>
      cases hn.symm.trans hn'
      obtain ⟨d, hd, ht, hl⟩ := (h hin).covers _ hd hback _ _ hs
      refine ⟨_, List.mem_map_of_mem hd, ht, fun hloop => ?_⟩
      rw [Bool.or_eq_true] at hloop
      exact Bool.or_eq_true _ _ ▸ hloop.imp_right hl

theorem shows_cases (hreal : ∀ id, g.has id = true → 0 ≤ id) (ht : 0 ≤ t → g.has t = true) :
    (g.shows t = .ok true ∧ ¬g.Unseen t) ∨
      (g.shows t = .ok false ∧ ∃ v es, g.node? t = some (v, es) ∧ v.visible = false) := by
  unfold Graph.shows
  by_cases hr : 0 ≤ t
  · obtain ⟨⟨v, es⟩, hn⟩ := has_iff.1 (ht hr)
    obtain ⟨entry, hget, heq⟩ := Option.map_eq_some_iff.1 hn
    cases heq
    rw [if_pos (by simpa [VertexId.isReal] using hr), entry_eq_ok_iff.2 hget]
    cases hv : entry.vertex.visible with
    | true =>
      refine Or.inl ⟨congrArg Except.ok hv, ?_⟩
      rintro ⟨w, ds, hw, hno⟩
      cases hn.symm.trans hw
      rw [hv] at hno
      cases hno
    | false => exact Or.inr ⟨congrArg Except.ok hv, _, _, hn, hv⟩
  · rw [if_neg (by simpa [VertexId.isReal] using hr)]
    refine Or.inl ⟨rfl, ?_⟩
    rintro ⟨w, ds, hw, -⟩
    exact hr (hreal t (has_iff.2 ⟨_, hw⟩))

def FindsBehind (g : Graph) (id : VertexId) (ds : List Edge) : Prop :=
  ∃ v es, g.node? id = some (v, es) ∧ g.Finds (fun t => ¬ReflTransGen g.Hidden t id) es ds

def Recalls (g : Graph) (found : Found) : Prop :=
  ∀ id ds, found.get? id = some ds → g.FindsBehind id ds

theorem Recalls.insert (h : g.Recalls found) (hid : g.FindsBehind id ds) :
    g.Recalls (found.insert id ds) := by
  intro k ds' hk
  rw [IdMap.get?_insert] at hk
  split at hk <;> rename_i heq
  · cases hk
    exact heq ▸ hid
  · exact h k ds' hk

section Searching

variable (hg : g.Valid) (hreal : ∀ id, g.has id = true → 0 ≤ id)

include hg hreal

/-- The vertices that the search is still in lead to the one it is at. It finds nothing where it comes back
to one of them, but then the edge it took is on a cycle. There is room for one more vertex. -/
theorem behind_finds (depth : Nat) (active : List VertexId) (hf : g.Recalls found)
    (hn : g.node? id = some (v, es)) (hv : v.visible = false) (hd : active.Nodup)
    (ha : ∀ a ∈ active, g.has a = true ∧ TransGen g.Hidden a id)
    (hdepth : active.length + depth = g.size + 1) :
    ∃ ds found', g.behind depth active id found = .ok (ds, found') ∧
      (∀ d ∈ ds, g.Past d.loop es d.target) ∧ (id ∉ active → g.FindsBehind id ds) ∧
      g.Recalls found' := by
  induction depth generalizing active id v es found with
  | zero =>
    have hle := (hd.subperm fun a hm => mem_ids.2 (ha a hm).1).length_le
    rw [length_ids] at hle
    omega
  | succ depth ih =>
    unfold Graph.behind
    split <;> rename_i hget
    · obtain ⟨w, ds, hw, hc⟩ := hf id _ hget
      cases hn.symm.trans hw
      exact ⟨_, _, rfl, hc.sound, fun _ => ⟨v, es, hn, hc⟩, hf⟩
    split <;> rename_i hin
    · exact ⟨[], found, rfl, by simp, fun hno => absurd (by simpa using hin) hno, hf⟩
    obtain ⟨entry, hentry, heq⟩ := Option.map_eq_some_iff.1 hn
    cases heq
    rw [entry_eq_ok_iff.2 hentry]
    obtain ⟨⟨ds, found'⟩, hfold, hc, hf'⟩ := foldlM_total (l := entry.edges) (s := (([] : List Edge), found))
      (f := fun (state : List Edge × Found) (e : Edge) => do
        if ← g.shows e.target then return (joinEdge state.1 e, state.2)
        else
          let r ← Graph.behind g depth (id :: active) e.target state.2
          return (r.1.foldl (fun edges t => joinEdge edges (Flow.through e t)) state.1, r.2))
      (P := fun done s => g.Finds (fun t => ¬ReflTransGen g.Hidden t id) done s.1 ∧ g.Recalls s.2)
      ⟨g.finds_nil _, hf⟩ (by
        rintro done e ⟨old, found⟩ he ⟨hc, hf⟩
        have htarget : 0 ≤ e.target → g.has e.target = true := hg.edges id _ _ hn e he
        rcases shows_cases hreal htarget with ⟨hshow, ht⟩ | ⟨hshow, w, ws, hw, hwv⟩
        · refine ⟨(joinEdge old e, found), ok_bind hshow rfl, ?_, hf⟩
          exact hc.merge (finds_direct _ ht) (merges_joinEdge old e)
        · have step : g.Hidden id e.target :=
            ⟨⟨_, _, hn, hv⟩, ⟨w, ws, hw, hwv⟩, _, _, hn, e, he, rfl, hreal _ (has_iff.2 ⟨_, hw⟩)⟩
          have next : ∀ a ∈ id :: active, g.has a = true ∧ TransGen g.Hidden a e.target := by
            refine List.forall_mem_cons.2 ⟨⟨has_iff.2 ⟨_, hn⟩, .single step⟩, fun a hm => ?_⟩
            exact ⟨(ha a hm).1, (ha a hm).2.tail step⟩
          obtain ⟨ts, found', hbehind, sound, hts, hf'⟩ := ih (id :: active) hf hw hwv
            (List.nodup_cons.2 ⟨by simpa using hin, hd⟩) next (by rw [List.length_cons]; omega)
          refine ⟨(ts.foldl (fun edges t => joinEdge edges (Flow.through e t)) old, found'),
            ok_bind hshow (ok_bind hbehind rfl), ?_, hf'⟩
          rw [← List.foldl_map]
          refine hc.merge (Finds.through hw hwv sound fun hback => ?_) (merges_foldl_joinEdge _ _)
          have fresh : e.target ∉ id :: active := by
            intro hm
            rcases List.mem_cons.1 hm with heq | hm
            · exact hback (heq ▸ .refl)
            · exact hback (ha _ hm).2.to_reflTransGen
          obtain ⟨w', ws', hw', hfinds⟩ := hts fresh
          cases hw.symm.trans hw'
          exact hfinds)
    have hfinds : g.FindsBehind id ds := ⟨_, _, hn, hc⟩
    exact ⟨ds, found'.insert id ds, ok_bind rfl (ok_bind hfold rfl), hc.sound, fun _ => hfinds,
      hf'.insert hfinds⟩

theorem collapse_finds (hf : g.Recalls found)
    (ht : ∀ e ∈ es, 0 ≤ e.target → g.has e.target = true) :
    ∃ ds found', g.collapse es found = .ok (ds, found') ∧ g.Finds (fun _ => True) es ds ∧
      g.Recalls found' := by
  obtain ⟨⟨c, found'⟩, hfold, hc, -, hf'⟩ := foldlM_total (l := es) (s := (({} : Collapsing), found))
    (f := fun (state : Collapsing × Found) (e : Edge) => do
      if ← g.shows e.target then return (state.1.direct e, state.2)
      else
        let r ← Graph.behind g (g.size + 1) [] e.target state.2
        return (r.1.foldl (fun c t => c.indirect (Flow.through e t)) state.1, r.2))
    (P := fun done s => g.Finds (fun _ => True) done s.1.edges ∧ s.1.Tracks ∧ g.Recalls s.2)
    ⟨g.finds_nil _, by simp [Collapsing.Tracks], hf⟩ (by
      rintro done e ⟨c, found⟩ he ⟨hc, tracks, hf⟩
      rcases shows_cases hreal (ht e he) with ⟨hshow, hseen⟩ | ⟨hshow, w, ws, hw, hwv⟩
      · obtain ⟨merges, tracks⟩ := tracks.direct e
        exact ⟨_, ok_bind hshow rfl, hc.merge (finds_direct _ hseen) merges, tracks, hf⟩
      · obtain ⟨ts, found', hbehind, sound, hts, hf'⟩ :=
          behind_finds hg hreal (g.size + 1) [] hf hw hwv List.nodup_nil (by simp) (by simp)
        obtain ⟨merges, tracks⟩ := tracks.indirect (ts.map (Flow.through e))
        rw [List.foldl_map] at merges tracks
        obtain ⟨w', ws', hw', hfinds⟩ := hts List.not_mem_nil
        cases hw.symm.trans hw'
        exact ⟨_, ok_bind hshow (ok_bind hbehind rfl),
          hc.merge (Finds.through hw hwv sound fun _ => hfinds) merges, tracks, hf'⟩)
  exact ⟨c.edges, found', ok_bind hfold rfl, hc, hf'⟩

theorem collapseEntries_finds (operation : Nat) {rest : List (VertexId × Entry)} (made : IdMap Entry)
    (hl : ∀ p ∈ rest, p ∈ g.nodes.entries) (hd : rest.Pairwise fun p q => p.1 ≠ q.1)
    (hf : g.Recalls found) :
    ∃ nodes found', collapseEntries g operation rest made found = .ok (nodes, found') ∧
      g.Recalls found' ∧
      (∀ id, (∀ d, (id, d) ∈ rest → d.vertex.visible = false) → nodes.get? id = made.get? id) ∧
      ∀ id d, (id, d) ∈ rest → d.vertex.visible = true → ∃ e, nodes.get? id = some e ∧
        e.vertex = d.vertex ∧ g.Finds (fun _ => True) d.edges e.edges := by
  induction rest generalizing made found with
  | nil => exact ⟨made, found, rfl, hf, fun _ _ => rfl, by simp⟩
  | cons entry rest ih =>
    obtain ⟨key, d⟩ := entry
    obtain ⟨hin, hrest⟩ := List.forall_mem_cons.1 hl
    obtain ⟨apart, hd⟩ := List.pairwise_cons.1 hd
    have hn := node?_of_mem_entries hin
    unfold Graph.collapseEntries
    split <;> rename_i hv
    · obtain ⟨ds, found₁, hcollapse, hc, hf₁⟩ := collapse_finds hg hreal hf (hg.edges key _ _ hn)
      obtain ⟨nodes, found', hentries, hf', old, new⟩ := ih _ hrest hd hf₁
      refine ⟨nodes, found', ok_bind hcollapse hentries, hf', fun id hid => ?_, fun id d' hd' hv' => ?_⟩
      · have hne : id ≠ key := by
          rintro rfl
          rw [hid d List.mem_cons_self] at hv
          cases hv
        rw [old id fun d' hd' => hid d' (List.mem_cons_of_mem _ hd'), IdMap.get?_insert, if_neg hne]
      · rcases List.mem_cons.1 hd' with heq | hd'
        · cases heq
          refine ⟨⟨d.vertex, ds, ⟨operation, false⟩⟩, ?_, rfl, hc⟩
          rw [old key fun d' hd' => absurd rfl (apart (_, d') hd'), IdMap.get?_insert, if_pos rfl]
        · exact new id d' hd' hv'
    · obtain ⟨nodes, found', hentries, hf', old, new⟩ := ih _ hrest hd hf
      refine ⟨nodes, found', hentries, hf', fun id hid => ?_, fun id d' hd' hv' => ?_⟩
      · exact old id fun d' hd' => hid d' (List.mem_cons_of_mem _ hd')
      · rcases List.mem_cons.1 hd' with heq | hd'
        · cases heq
          exact absurd hv' hv
        · exact new id d' hd' hv'

/-- The view has the visible vertices, each with edges for what was found behind its own. -/
theorem view_finds (operation : Nat) : ∃ r, removeInvisible operation g = .ok r ∧
    g.Finds (fun _ => True) g.start r.start ∧
    (∀ id v es, g.node? id = some (v, es) → v.visible = true →
      ∃ ds, r.node? id = some (v, ds) ∧ g.Finds (fun _ => True) es ds) ∧
    ∀ id v ds, r.node? id = some (v, ds) → ∃ es, g.node? id = some (v, es) ∧ v.visible = true := by
  have distinct : g.nodes.entries.Pairwise fun p q => p.1 ≠ q.1 :=
    g.nodes.sorted.imp fun h => Int.ne_of_lt h
  obtain ⟨nodes, found, hnodes, hf, old, new⟩ := collapseEntries_finds hg hreal operation ∅
    (fun _ hp => hp) distinct (show g.Recalls ∅ by
      intro id ds hid
      cases hid)
  obtain ⟨start, found', hstart, hc, -⟩ := collapse_finds hg hreal hf hg.start
  refine ⟨_, ok_bind hnodes (ok_bind hstart rfl), hc, fun id v es hn hv => ?_, fun id v ds hn => ?_⟩
  · obtain ⟨d, hd, heq⟩ := Option.map_eq_some_iff.1 hn
    cases heq
    obtain ⟨e, he, hev, hfinds⟩ := new id d (IdMap.get?_eq_some_iff.1 hd) hv
    refine ⟨e.edges, ?_, hfinds⟩
    rw [node?, he, Option.map_some, Entry.node, hev]
  · obtain ⟨e, he, heq⟩ := Option.map_eq_some_iff.1 hn
    cases heq
    have some : ∃ d, (id, d) ∈ g.nodes.entries ∧ d.vertex.visible = true := by
      by_contra hno
      rw [old id fun d hd => by simpa using fun hv => hno ⟨d, hd, hv⟩] at he
      cases he
    obtain ⟨d, hd, hv⟩ := some
    obtain ⟨e', he', hev, -⟩ := new id d hd hv
    cases he.symm.trans he'
    refine ⟨d.edges, ?_, hev ▸ hv⟩
    rw [hev]
    exact node?_of_mem_entries hd

def Untangled (g : Graph) (es : List Edge) : Prop :=
  ∀ e ∈ es, ∀ id, ReflTransGen g.Hidden e.target id → ¬TransGen g.Hidden id id

omit hg in
theorem Untangled.straight (hu : g.Untangled es) (h : g.Past l es t) : ∃ e ∈ es, g.Straight l e t := by
  induction h with
  | here he ht => exact ⟨_, he, .here ht⟩
  | @past es ds e v l t he hn hv _ ih =>
    have unseen : g.Unseen e.target := ⟨v, ds, hn, hv⟩
    have step : ∀ d ∈ ds, g.Unseen d.target → g.Hidden e.target d.target := by
      rintro d hd ⟨w, ws, hw, hwv⟩
      exact ⟨unseen, ⟨w, ws, hw, hwv⟩, v, ds, hn, d, hd, rfl, hreal _ (has_iff.2 ⟨_, hw⟩)⟩
    -- a target that can be seen leads nowhere along hidden edges
    have along : ∀ d ∈ ds, ∀ id, g.Unseen id → ReflTransGen g.Hidden d.target id →
        TransGen g.Hidden e.target id := by
      intro d hd id hid hreach
      rcases hreach.cases_head with heq | ⟨b, hfirst, -⟩
      · exact .single (heq ▸ step d hd (heq ▸ hid))
      · exact .head' (step d hd hfirst.1) hreach
    obtain ⟨d, hd, hs⟩ := ih fun d hd id hreach hcycle => by
      obtain ⟨b, hfirst, -⟩ := TransGen.head'_iff.1 hcycle
      exact hu e he id (along d hd id hfirst.1 hreach).to_reflTransGen hcycle
    exact ⟨e, he, .past hn hv hd (fun hback => hu e he _ .refl (along d hd _ unseen hback)) hs⟩

end Searching

/-- The edges `ds` lead to the nearest targets behind the edges `es`. All of them do so, whatever cycles
there are, and all ways that take no edge of a cycle of invisible vertices are covered. Where no such cycle
lies behind the edges, they lead exactly to what can be reached past invisible vertices, with a loop edge
exactly where there is a way with a loop edge. -/
structure Nearest (g : Graph) (es ds : List Edge) : Prop where
  sound : ∀ d ∈ ds, g.Past d.loop es d.target
  covers : ∀ e ∈ es, ∀ l t, g.Straight l e t → Edge.Covered ds ⟨t, l⟩
  targets : g.Untangled es → ∀ t, (∃ d ∈ ds, d.target = t) ↔ ∃ l, g.Past l es t
  loops : g.Untangled es → ∀ t, (∃ d ∈ ds, d.target = t ∧ d.loop = true) ↔ g.Past true es t

theorem Finds.nearest (hreal : ∀ id, g.has id = true → 0 ≤ id) (h : g.Finds (fun _ => True) es ds) :
    g.Nearest es ds := by
  have covers : ∀ e ∈ es, ∀ l t, g.Straight l e t → Edge.Covered ds ⟨t, l⟩ :=
    fun e he => h.covers e he trivial
  refine ⟨h.sound, covers, fun hu t => ⟨?_, ?_⟩, fun hu t => ⟨?_, fun hp => ?_⟩⟩
  · rintro ⟨d, hd, rfl⟩
    exact ⟨d.loop, h.sound d hd⟩
  · rintro ⟨l, hp⟩
    obtain ⟨e, he, hs⟩ := hu.straight hreal hp
    obtain ⟨d, hd, ht, -⟩ := covers e he l t hs
    exact ⟨d, hd, ht⟩
  · rintro ⟨d, hd, rfl, hl⟩
    exact hl ▸ h.sound d hd
  · obtain ⟨e, he, hs⟩ := hu.straight hreal hp
    obtain ⟨d, hd, ht, hl⟩ := covers e he true t hs
    exact ⟨d, hd, ht, hl rfl⟩

/-- In the view of a valid graph the start and every visible vertex lead to what is nearest behind their
edges in the graph. -/
theorem removeInvisible_nearest {g : Graph} (operation : Nat) (hreal : ∀ id, g.has id = true → 0 ≤ id)
    (hv : g.problems = []) : ∃ r, removeInvisible operation g = .ok r ∧ g.Nearest g.start r.start ∧
      ∀ id v es, g.node? id = some (v, es) → v.visible = true →
        ∃ ds, r.node? id = some (v, ds) ∧ g.Nearest es ds := by
  obtain ⟨r, hr, hstart, hshown, -⟩ := view_finds (valid_of_problems hv) hreal operation
  refine ⟨r, hr, hstart.nearest hreal, fun id v es hn hvis => ?_⟩
  obtain ⟨ds, hds, hfinds⟩ := hshown id v es hn hvis
  exact ⟨ds, hds, hfinds.nearest hreal⟩

/-- Two invisible vertices that lead on to a visible one, one of them by way of a loop edge, and two that
lead to each other. -/
def thicket : Graph where
  nodes := .ofList [
    (0, ⟨⟨0, none, true, []⟩, [⟨1, false⟩], ⟨0, false⟩⟩),
    (1, ⟨⟨1, none, false, []⟩, [⟨2, true⟩, ⟨3, false⟩], ⟨0, false⟩⟩),
    (2, ⟨⟨2, none, false, []⟩, [⟨3, false⟩, ⟨sink, false⟩], ⟨0, false⟩⟩),
    (3, ⟨⟨3, none, true, []⟩, [⟨4, false⟩], ⟨0, false⟩⟩),
    (4, ⟨⟨4, none, false, []⟩, [⟨5, false⟩, ⟨0, false⟩], ⟨0, false⟩⟩),
    (5, ⟨⟨5, none, false, []⟩, [⟨4, false⟩, ⟨sink, false⟩], ⟨0, false⟩⟩)]
  exits := .ofList [(2, ()), (5, ())]
  start := [⟨0, false⟩]

/-- What is behind the first vertex is found although there is a cycle further on. -/
theorem removeInvisible_nearest_thicket : thicket.problems = [] ∧ ∃ r v ds,
    removeInvisible 1 thicket = .ok r ∧ r.node? 0 = some (v, ds) ∧ thicket.Untangled [⟨1, false⟩] ∧
      (∀ t, (∃ d ∈ ds, d.target = t) ↔ ∃ l, thicket.Past l [⟨1, false⟩] t) ∧
      ∀ t, (∃ d ∈ ds, d.target = t ∧ d.loop = true) ↔ thicket.Past true [⟨1, false⟩] t := by
  have problems : thicket.problems = [] := by decide +kernel
  have real : ∀ id, thicket.has id = true → 0 ≤ id := forall_has (by decide +kernel)
  have up : ∀ a ∈ thicket.ids, a < 3 → (thicket.vertex? a).any Vertex.visible = false →
      ∀ b ∈ thicket.successors a, (thicket.vertex? b).any Vertex.visible = false → a < b ∧ b < 3 := by
    decide +kernel
  have unseen : ∀ id, thicket.Unseen id → (thicket.vertex? id).any Vertex.visible = false := by
    rintro id ⟨v, es, hn, hv⟩
    rw [vertex?_of_node? hn]
    exact hv
  have step : ∀ a b, thicket.Hidden a b → a < 3 → a < b ∧ b < 3 := by
    rintro a b ⟨ha, hb, hlink⟩ hlt
    exact up a (mem_ids.2 hlink.has) hlt (unseen a ha) b (mem_successors.2 hlink) (unseen b hb)
  have rises : ∀ a b, TransGen thicket.Hidden a b → a < 3 → a < b ∧ b < 3 := by
    intro a b h hlt
    induction h with
    | single h => exact step a _ h hlt
    | tail _ h ih => exact ⟨ih.1.trans (step _ _ h ih.2).1, (step _ _ h ih.2).2⟩
  have untangled : thicket.Untangled [⟨1, false⟩] := by
    intro e he id hreach hcycle
    rw [List.mem_singleton.1 he] at hreach
    have low : id < 3 := by
      rcases reflTransGen_iff_eq_or_transGen.1 hreach with rfl | hreach
      · decide
      · exact (rises _ _ hreach (by decide)).2
    exact Int.lt_irrefl id (rises id id hcycle low).1
  obtain ⟨r, hr, -, shown⟩ := removeInvisible_nearest (g := thicket) 1 real problems
  obtain ⟨ds, hds, nearest⟩ := shown 0 _ _ rfl rfl
  exact ⟨problems, r, _, ds, hr, hds, untangled, nearest.targets untangled, nearest.loops untangled⟩

/-- Two invisible vertices that lead to each other, one of them to a visible vertex as well, and the other
one out of the graph. -/
def eddy : Graph where
  nodes := .ofList [
    (0, ⟨⟨0, none, true, []⟩, [⟨1, false⟩], ⟨0, false⟩⟩),
    (1, ⟨⟨1, none, false, []⟩, [⟨2, false⟩, ⟨0, false⟩], ⟨0, false⟩⟩),
    (2, ⟨⟨2, none, false, []⟩, [⟨1, false⟩, ⟨sink, false⟩], ⟨0, false⟩⟩)]
  exits := .ofList [(2, ())]
  start := [⟨2, false⟩]

/-- When the search from the visible vertex comes to the second invisible vertex, it is still in the first
one. What it finds there is all that the start is told later, although the visible vertex can be reached. -/
theorem not_removeInvisible_nearest_eddy : eddy.problems = [] ∧ ∃ r, removeInvisible 1 eddy = .ok r ∧
    ¬∀ t, (∃ d ∈ r.start, d.target = t) ↔ ∃ l, eddy.Past l eddy.start t := by
  refine ⟨by decide +kernel, _, rfl, fun h => ?_⟩
  have seen : ¬eddy.Unseen 0 := by
    rintro ⟨v, es, hn, hv⟩
    cases (show eddy.node? 0 = some (⟨0, none, true, []⟩, [⟨1, false⟩]) from rfl).symm.trans hn
    cases hv
  have way : eddy.Past false eddy.start 0 :=
    .past (e := ⟨2, false⟩) List.mem_cons_self rfl rfl
      (.past (e := ⟨1, false⟩) List.mem_cons_self rfl rfl
        (.here (e := ⟨0, false⟩) (List.mem_cons_of_mem _ List.mem_cons_self) seen))
  obtain ⟨d, hd, ht⟩ := (h 0).2 ⟨false, way⟩
  rw [List.mem_singleton.1 hd] at ht
  cases ht

end Graph

end StoryFlow.Flow
