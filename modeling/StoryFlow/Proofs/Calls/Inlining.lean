import StoryFlow.Calls.Program
import StoryFlow.Proofs.Calls.Order
import StoryFlow.Proofs.Calls.Unfolding
import StoryFlow.Proofs.Scene.Meaning

/-! The program graph does what the story does with every call unfolded. The first call of a scene takes
over the vertices of its graph and every further call gets a copy, so the graphs that are still to be
used never share a vertex with the graph at hand. -/

namespace StoryFlow.Program

open StoryFlow.Flow
open StoryFlow.Flow.Graph

variable {graphs : SceneGraphs} {x x' : Expansion}

/-- The expanded scenes do what they should, and what is still to be used stays apart: the graphs at
hand and the expanded graphs that no call has taken over yet. -/
structure Stocked (graphs : SceneGraphs) (x : Expansion) (live : List Graph) : Prop where
  expanded : ∀ p ∈ x.graphs, Expanded graphs p.1 p.2
  taken : ∀ p ∈ x.graphs, p.2.TakenIn 0 x.supply.identities
  liveTaken : ∀ g ∈ live, g.TakenIn 0 x.supply.identities
  liveApart : live.Pairwise Apart
  between : ∀ g ∈ live, ∀ p ∈ x.graphs, p.1 ∉ x.used → g.Apart p.2
  unused : ∀ p ∈ x.graphs, ∀ q ∈ x.graphs, p.1 ≠ q.1 → p.1 ∉ x.used → q.1 ∉ x.used →
    p.2.Apart q.2

theorem mem_of_graph? {name : String} {h : Graph} (hh : x.graph? name = some h) :
    (name, h) ∈ x.graphs := by
  obtain ⟨⟨key, g⟩, hf, rfl⟩ := Option.map_eq_some_iff.1 hh
  have hk : key = name := by simpa using List.find?_some hf
  exact hk ▸ List.mem_of_find?_eq_some hf

/-- The graph that goes in the place of a call: the graph of the scene itself as long as it was not
used, else a copy with identities that nothing else has. -/
structure Supplied (x : Expansion) (callee : String) (h c : Graph) (s : Supply) : Prop where
  copy : ∃ ρ, c.CopyOf h ρ
  le : x.supply.identities ≤ s.identities
  owner : (callee ∉ x.used ∧ ∀ id, c.has id = true → h.has id = true) ∨
    c.TakenIn x.supply.identities s.identities

theorem expandCall_cases {caller callee : String} {p : VertexId} {g g' : Graph}
    (h : expandCall caller callee p g x = .ok (g', x')) : ∃ b c s s', x.graph? callee = some b ∧
      (if x.used.contains callee then x.supply.relabel (fun v => some (v.nested caller)) b
        else x.supply.perform fun operation => b.map operation fun v => some (v.nested caller)) =
          .ok (c, s) ∧
      s.perform (fun operation => g.replace operation p c) = .ok (g', s') ∧
      x'.graphs = x.graphs ∧ x'.used = callee :: x.used ∧ x'.supply = s' := by
  unfold expandCall at h
  split at h <;> rename_i b hb
  · cases h
  have h₁ := ofFault_ok h
  dsimp only at h₁
  split at h₁ <;> rename_i hused
  · obtain ⟨⟨c, s⟩, hc, h₂⟩ := ok_of_bind_ok h₁
    obtain ⟨⟨r, s'⟩, hr, h₃⟩ := ok_of_bind_ok h₂
    cases h₃
    exact ⟨b, c, s, s', hb, by rw [if_pos hused]; exact hc, hr, rfl, rfl, rfl⟩
  · obtain ⟨⟨c, s⟩, hc, h₂⟩ := ok_of_bind_ok h₁
    obtain ⟨⟨r, s'⟩, hr, h₃⟩ := ok_of_bind_ok h₂
    cases h₃
    exact ⟨b, c, s, s', hb, by rw [if_neg hused]; exact hc, hr, rfl, rfl, rfl⟩

theorem supplied_ok {caller callee : String} {h c : Graph} {s : Supply} (hw : h.Whole)
    (hc : (if x.used.contains callee then x.supply.relabel (fun v => some (v.nested caller)) h
      else x.supply.perform fun operation => h.map operation fun v => some (v.nested caller)) =
        .ok (c, s)) : Supplied x callee h c s := by
  have nested : ∀ v w : Vertex, some (v.nested caller) = some w → w.stmt = v.stmt := by
    rintro v w heq
    cases heq
    rfl
  split at hc <;> rename_i hused
  · obtain ⟨hr, hs⟩ := perform_ok hc
    have hs : s.identities = x.supply.identities + h.size := hs
    have hcopy := relabel_copyOf hr hw.wf nested
    exact ⟨⟨_, hcopy⟩, by omega, Or.inr (hs ▸ hcopy.takenIn)⟩
  · obtain ⟨hm, hs⟩ := perform_ok hc
    have hcopy := map_copyOf hm hw.wf nested
    refine ⟨⟨_, hcopy⟩, hs.ge, Or.inl ⟨by simpa using hused, fun id hid => ?_⟩⟩
    obtain ⟨k, hk, rfl⟩ := hcopy.only id hid
    exact hk

theorem Supplied.apart {live : List Graph} {callee : String} {h c : Graph} {s : Supply}
    (hc : Supplied x callee h c s) (hx : Stocked graphs x live) (hm : (callee, h) ∈ x.graphs) :
    (∀ g ∈ live, g.Apart c) ∧
      ∀ p ∈ x.graphs, p.1 ≠ callee → p.1 ∉ x.used → c.Apart p.2 := by
  rcases hc.owner with ⟨hused, hin⟩ | hfresh
  · constructor
    · intro g hg id hid
      by_contra hno
      have hb := hx.between g hg _ hm hused id hid
      rw [hin id (by simpa using hno)] at hb
      cases hb
    · intro p hp hne hpu id hid
      exact hx.unused _ hm p hp hne.symm hused hpu id (hin id hid)
  · constructor
    · exact fun g hg => (hx.liveTaken g hg).apart hfresh
    · exact fun p hp _ _ => ((hx.taken p hp).apart hfresh).symm

theorem expandCall_ok {caller callee name : String} {p : VertexId} {ids : List VertexId}
    {g g' : Graph} {live : List Graph} (h : expandCall caller callee p g x = .ok (g', x'))
    (hx : Stocked graphs x (g :: live)) (hg : Expanding graphs name (p :: ids) g)
    (hp : (g.vertex? p).bind Vertex.callee? = some callee) :
    Expanding graphs name ids g' ∧ Stocked graphs x' (g' :: live) := by
  obtain ⟨b, c, s₁, _, hb, hc, hr, hgraphs, hused, rfl⟩ := expandCall_cases h
  have hm := mem_of_graph? hb
  have hbe := hx.expanded _ hm
  have hs := supplied_ok hbe.whole hc
  obtain ⟨hr, hs₂⟩ := perform_ok hr
  obtain ⟨ρ, hcopy⟩ := hs.copy
  have hce := hbe.copy hcopy
  obtain ⟨liveAway, unusedAway⟩ := hs.apart hx hm
  have hgc := liveAway g List.mem_cons_self
  obtain ⟨v, es, c', d, hrep⟩ := replace_ok hr
  -- the replaced vertex is the call that was found
  obtain ⟨st, hst, hcall⟩ : ∃ st, v.stmt = some st ∧ st.callee? = some callee := by
    obtain ⟨e, he, heq⟩ := Option.map_eq_some_iff.1 hrep.node
    cases heq
    rw [Graph.vertex?, he] at hp
    exact Option.bind_eq_some_iff.1 hp
  have whole := hce.whole
  have has := hrep.has whole.wf
  obtain ⟨gAway, liveApart⟩ := List.pairwise_cons.1 hx.liveApart
  have grow : ∀ a : Graph, a.TakenIn 0 x.supply.identities → a.TakenIn 0 x'.supply.identities :=
    fun a ha => ha.mono le_rfl (hs₂ ▸ hs.le)
  have rTaken : g'.TakenIn 0 x'.supply.identities := by
    intro id hid
    rcases (has id).1 hid with ⟨hid, -⟩ | hid
    · exact grow g (hx.liveTaken g List.mem_cons_self) id hid
    · rcases hs.owner with ⟨-, hin⟩ | hfresh
      · exact grow b (hx.taken _ hm) id (hin id hid)
      · exact (hs₂ ▸ hfresh.mono (Nat.zero_le _) le_rfl) id hid
  have notUsed : ∀ n, n ∉ callee :: x.used → n ≠ callee ∧ n ∉ x.used := by
    intro n hn
    exact ⟨fun hc => hn (hc ▸ List.mem_cons_self), fun hu => hn (List.mem_cons_of_mem _ hu)⟩
  have rAway : ∀ a : Graph, g.Apart a → c.Apart a → g'.Apart a := by
    intro a hga hca id hid
    rcases (has id).1 hid with ⟨hid, -⟩ | hid
    · exact hga id hid
    · exact hca id hid
  refine ⟨hg.replace hrep hce hgc hst hcall, ?_⟩
  rw [← hused] at notUsed
  constructor <;> try rw [hgraphs]
  · exact hx.expanded
  · exact fun q hq => grow _ (hx.taken q hq)
  · refine List.forall_mem_cons.2 ⟨rTaken, fun a ha => grow a ?_⟩
    exact hx.liveTaken a (List.mem_cons_of_mem _ ha)
  · refine List.pairwise_cons.2 ⟨fun a ha => rAway a (gAway a ha) ?_, liveApart⟩
    exact (liveAway a (List.mem_cons_of_mem _ ha)).symm
  · refine List.forall_mem_cons.2 ⟨fun q hq hu => ?_, fun a ha q hq hu => ?_⟩
    · obtain ⟨hne, hu⟩ := notUsed _ hu
      exact rAway _ (hx.between g List.mem_cons_self q hq hu) (unusedAway q hq hne hu)
    · exact hx.between a (List.mem_cons_of_mem _ ha) q hq (notUsed _ hu).2
  · intro q hq k hk hne hqu hku
    exact hx.unused q hq k hk hne (notUsed _ hqu).2 (notUsed _ hku).2

theorem expandCalls_ok {caller name : String} {ids : List VertexId} {g g' : Graph}
    {live : List Graph} (h : expandCalls caller ids g x = .ok (g', x'))
    (hx : Stocked graphs x (g :: live)) (hg : Expanding graphs name ids g) :
    Expanded graphs name g' ∧ Stocked graphs x' (g' :: live) := by
  induction ids generalizing g x with
  | nil =>
    cases h
    exact ⟨hg.finish, hx⟩
  | cons p ids ih =>
    unfold expandCalls at h
    split at h <;> rename_i hp
    · exact ih h hx (hg.skip hp)
    · obtain ⟨⟨g₁, x₁⟩, hcall, h₁⟩ := ok_of_bind_ok h
      obtain ⟨hg₁, hx₁⟩ := expandCall_ok hcall hx hg hp
      exact ih h₁ hx₁ hg₁

theorem Stocked.store {name : String} {g : Graph} {live : List Graph}
    (hx : Stocked graphs x (g :: live)) (hg : Expanded graphs name g) :
    Stocked graphs { x with graphs := (name, g) :: x.graphs } live := by
  obtain ⟨away, apart⟩ := List.pairwise_cons.1 hx.liveApart
  have taken := List.forall_mem_cons.1 hx.liveTaken
  have between := List.forall_mem_cons.1 hx.between
  refine ⟨List.forall_mem_cons.2 ⟨hg, hx.expanded⟩,
    List.forall_mem_cons.2 ⟨taken.1, hx.taken⟩, taken.2, apart, fun a ha => ?_, ?_⟩
  · exact List.forall_mem_cons.2 ⟨fun _ => (away a ha).symm, between.2 a ha⟩
  · refine List.forall_mem_cons.2 ⟨?_, fun p hp => ?_⟩
    · exact List.forall_mem_cons.2 ⟨fun hne => absurd rfl hne, fun q hq _ _ => between.1 q hq⟩
    · refine List.forall_mem_cons.2 ⟨fun _ hpu _ => ?_, hx.unused p hp⟩
      exact (between.1 p hp hpu).symm

theorem expandScenes_ok {names : List String} (h : expandScenes graphs names x = .ok x')
    (hs : graphs.Separate) (hx : Stocked graphs x (names.filterMap graphs.graph?)) :
    Stocked graphs x' [] := by
  induction names generalizing x with
  | nil => cases h; exact hx
  | cons name rest ih =>
    unfold expandScenes at h
    split at h <;> rename_i g hg
    · cases h
    obtain ⟨⟨g', x₁⟩, hcalls, h₁⟩ := ok_of_bind_ok h
    rw [List.filterMap_cons_some hg] at hx
    have hw := hs.whole _ (SceneGraphs.mem_of_graph? hg) g rfl
    obtain ⟨hg', hx₁⟩ := expandCalls_ok hcalls hx (.start hg hw)
    exact ih h₁ (hx₁.store hg')

theorem stocked_start (hs : graphs.Separate) {names : List String} (hn : names.Nodup) :
    Stocked graphs { supply := graphs.supply } (names.filterMap graphs.graph?) := by
  refine ⟨by simp, by simp, ?_, ?_, by simp, by simp⟩
  · intro g hg
    obtain ⟨name, -, hg⟩ := List.mem_filterMap.1 hg
    exact hs.taken _ (SceneGraphs.mem_of_graph? hg) g rfl
  · rw [List.pairwise_filterMap]
    exact hn.imp fun hne a ha b hb => hs.apart_of_ne ha hb hne

theorem expandScenes_of_assemble {story : Story} {scenes : SceneGraphs} {program : Program} {g : Graph}
    (ha : assemble story scenes scenes.supply = .ok program) (hg : program.graph = some g) :
    ∃ entry x, story.entryScene? = some entry ∧
      expandScenes scenes (story.callGraph.walk.finished.filter
        (story.callGraph.reachable entry.name).contains) { supply := scenes.supply } = .ok x ∧
      x.graph? entry.name = some g := by
  unfold assemble at ha
  split at ha <;> rename_i entry hentry
  · cases ha
    cases hg
  · dsimp only at ha
    split at ha
    · cases ha
      cases hg
    · obtain ⟨⟨g', x⟩, hexpand, ha⟩ := ok_of_bind_ok ha
      cases ha
      cases hg
      obtain ⟨x₁, hscenes, hexpand⟩ := ok_of_bind_ok hexpand
      split at hexpand <;> rename_i g'' hfound
      · cases hexpand
      · split at hexpand
        · cases hexpand
        · cases hexpand
          exact ⟨entry, x, hentry, hscenes, hfound⟩

theorem stocked_build {story : Story} {table : SymbolTable} {supply : Supply} {scenes : SceneGraphs}
    (hb : story.build table supply = .ok scenes) (reached : String → Bool) :
    Stocked scenes { supply := scenes.supply }
      ((story.callGraph.walk.finished.filter reached).filterMap scenes.graph?) :=
  stocked_start (SceneGraphs.separate_build hb)
    ((CallGraph.nodup_finished_walk Story.declared_callGraph).filter _)

/-- The program graph is the graph of the entry scene, expanded. -/
theorem expanded_of_assemble {story : Story} {table : SymbolTable} {supply : Supply}
    {scenes : SceneGraphs} {program : Program} {g : Graph}
    (hb : story.build table supply = .ok scenes)
    (ha : assemble story scenes scenes.supply = .ok program) (hg : program.graph = some g) :
    ∃ entry, story.entryScene? = some entry ∧ Expanded scenes entry.name g := by
  obtain ⟨entry, x, hentry, hscenes, hfound⟩ := expandScenes_of_assemble ha hg
  have hx := expandScenes_ok hscenes (SceneGraphs.separate_build hb) (stocked_build hb _)
  exact ⟨entry, hentry, hx.expanded _ (mem_of_graph? hfound)⟩

/-- What is read along the complete paths of the program graph is what is read along those of the entry
scene with every call unfolded, each occurrence for itself. No call is left, and a call of a scene without
statements leaves nothing behind. -/
theorem words_eq_unfolded {story : Story} {table : SymbolTable} {supply : Supply}
    {scenes : SceneGraphs} {program : Program} {g : Graph}
    (hb : story.build table supply = .ok scenes)
    (ha : assemble story scenes scenes.supply = .ok program) (hg : program.graph = some g) :
    (∃ entry h, story.entryScene? = some entry ∧ scenes.graph? entry.name = some h ∧
      g.words = unfolded scenes h) ∧
    (∀ v ∈ g.vertices, v.callee? = none) ∧
    ∀ name h, scenes.graph? name = some h → h.isEmpty = true → expansions scenes name = 1 := by
  obtain ⟨entry, hentry, he⟩ := expanded_of_assemble hb ha hg
  obtain ⟨h, hh⟩ := he.built
  refine ⟨⟨entry, h, hentry, hh, he.words.trans (expansions_eq hh)⟩, ?_, ?_⟩
  · intro v hv
    obtain ⟨⟨id, e⟩, hm, rfl⟩ := List.mem_map.1 hv
    refine he.final id e.vertex e.edges ?_
    rw [node?, IdMap.get?_eq_some_iff.2 hm]
    rfl
  · intro name h hn hempty
    rw [expansions_eq hn, unfolded_of_isEmpty hempty]

/-- Two calls of one scene, one of them in a loop option. The scene calls one without statements. -/
def journey : Story where
  scenes := [
    ⟨{}, "home", true, [
      .menu {} .loopSwitch "Well?" [
        ⟨{}, "walk", true, [.plain {} (.output "on"), .plain {} (.call "road")]⟩,
        ⟨{}, "rest", false, []⟩],
      .plain {} (.call "road")]⟩,
    ⟨{}, "road", false, [.plain {} (.output "dust"), .plain {} (.call "fork")]⟩,
    ⟨{}, "fork", false, []⟩]

theorem words_eq_unfolded_journey : ∃ scenes program g h,
    journey.build {} {} = .ok scenes ∧ assemble journey scenes scenes.supply = .ok program ∧
    program.graph = some g ∧ scenes.graph? "home" = some h ∧ g.words = unfolded scenes h := by
  have built : (match journey.build {} {} with
      | .error _ => false
      | .ok scenes =>
        match assemble journey scenes scenes.supply with
        | .error _ => false
        | .ok program => program.graph.isSome) = true := by decide +kernel
  split at built <;> rename_i scenes hb
  · cases built
  split at built <;> rename_i program ha
  · cases built
  obtain ⟨g, hg⟩ := Option.isSome_iff_exists.1 built
  obtain ⟨⟨entry, h, he, hh, hw⟩, -, -⟩ := words_eq_unfolded hb ha hg
  cases he
  exact ⟨scenes, program, g, h, hb, ha, hg, hh, hw⟩

end StoryFlow.Program
