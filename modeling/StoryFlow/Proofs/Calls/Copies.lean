import Mathlib.Data.Set.Finite.Lattice
import StoryFlow.Proofs.Calls.Assembly
import StoryFlow.Proofs.Scene.Vertices

/-! Where the vertices of an expanded graph come from. A path of calls leads from the scene to a scene that
is called, directly or not, and the expanded graph has one copy of each vertex of that scene for the path.
The first call of a scene takes over what was made for it, so one of the copies keeps the identities of
the scene. -/

namespace StoryFlow

open StoryFlow.Flow
open StoryFlow.Flow.Graph

/-- A call as a place: the vertex of the call in the graph of the caller. -/
structure CallPoint where
  caller : String
  vertex : VertexId
  deriving DecidableEq

/-- The calls lead from the one scene to the other, each made in the scene that the call before it
leads to. -/
inductive CallPath (graphs : SceneGraphs) : String → List CallPoint → String → Prop where
  | here (name : String) : CallPath graphs name [] name
  | call {caller callee name : String} {h : Graph} {id : VertexId} {v : Vertex}
      {path : List CallPoint} : graphs.graph? caller = some h → h.Holds id v →
      v.callee? = some callee → CallPath graphs callee path name →
      CallPath graphs caller (⟨caller, id⟩ :: path) name

def chainAlong (path : List CallPoint) (scene : String) : List String :=
  scene :: (path.map CallPoint.caller).reverse

def Flow.Vertex.copied (v : Vertex) (path : List CallPoint) (scene : String) (id : VertexId) : Vertex :=
  { v with id, chain := chainAlong path scene }

/-- The vertex, which is not a call, stands in the scene at the end of the path of calls. -/
structure Occurs (graphs : SceneGraphs) (name : String) (place : List CallPoint × VertexId)
    (scene : String) (v : Vertex) : Prop where
  path : CallPath graphs name place.1 scene
  held : ∃ h, graphs.graph? scene = some h ∧ h.Holds place.2 v
  plain : v.callee? = none

/-- What is read before control enters the scene at the end of the path of calls. -/
inductive Prelude (graphs : SceneGraphs) : String → List CallPoint → List Stmt → Prop where
  | here (name : String) : Prelude graphs name [] []
  | call {caller callee : String} {h : Graph} {id : VertexId} {v : Vertex} {path : List CallPoint}
      {w u before : List Stmt} : graphs.graph? caller = some h → h.Holds id v →
      v.callee? = some callee → w ∈ h.wordsTo id → Unfolds graphs w u →
      Prelude graphs callee path before → Prelude graphs caller (⟨caller, id⟩ :: path) (u ++ before)

/-- What is read, calls unfolded, before control comes to the vertex at the place: what is read before it
enters the scene, and then in the scene. -/
def Approaches (graphs : SceneGraphs) (name : String) (place : List CallPoint × VertexId) (h : Graph)
    (e : List Stmt) : Prop :=
  ∃ before w u, Prelude graphs name place.1 before ∧ w ∈ h.wordsTo place.2 ∧ Unfolds graphs w u ∧
    e = before ++ u

variable {graphs : SceneGraphs} {name scene callee : String} {ids : List VertexId}
  {place place' : List CallPoint × VertexId} {p u : VertexId} {v w : Vertex} {b c g h r : Graph}
  {copy inner : List CallPoint × VertexId → VertexId} {ρ : VertexId → VertexId}

theorem CallPath.end_unique {path : List CallPoint} {scene' : String}
    (h : CallPath graphs name path scene) (h' : CallPath graphs name path scene') : scene = scene' := by
  induction h with
  | here => cases h'; rfl
  | call hg hv hc _ ih =>
    cases h' with
    | call hg' hv' hc' h' =>
      cases hg.symm.trans hg'
      cases hv.unique hv'
      cases hc.symm.trans hc'
      exact ih h'

/-- The vertices of a graph whose calls at the given vertices are still to be expanded. -/
def Placed (graphs : SceneGraphs) (name : String) (ids : List VertexId)
    (place : List CallPoint × VertexId) (scene : String) (v : Vertex) : Prop :=
  match place.1 with
  | [] => scene = name ∧ (∃ h, graphs.graph? name = some h ∧ h.Holds place.2 v) ∧
      (v.callee? = none ∨ place.2 ∈ ids)
  | point :: _ => point.vertex ∉ ids ∧ Occurs graphs name place scene v

theorem placed_nil_iff : Placed graphs name [] place scene v ↔ Occurs graphs name place scene v := by
  obtain ⟨path, u⟩ := place
  cases path with
  | nil =>
    simp only [Placed, List.not_mem_nil, or_false]
    constructor
    · rintro ⟨rfl, hv, hc⟩
      exact ⟨.here _, hv, hc⟩
    · rintro ⟨hp, hv, hc⟩
      cases hp
      exact ⟨rfl, hv, hc⟩
  | cons point path => simp [Placed]

/-- The vertices of the graph are the copies of the vertices that were placed, one for each place. -/
structure Copies (placed : List CallPoint × VertexId → String → Vertex → Prop)
    (copy : List CallPoint × VertexId → VertexId) (g : Graph) : Prop where
  into : ∀ place scene v, placed place scene v →
    g.Holds (copy place) (v.copied place.1 scene (copy place))
  injective : ∀ place scene v place' scene' v', placed place scene v → placed place' scene' v' →
    copy place = copy place' → place = place'
  onto : ∀ id, g.has id = true → ∃ place scene v, placed place scene v ∧ copy place = id

structure Copied (graphs : SceneGraphs) (name : String) (copy : List CallPoint × VertexId → VertexId)
    (g : Graph) : Prop where
  copies : Copies (Occurs graphs name) copy g
  top : ∀ u, copy ([], u) = u
  reads : ∀ place scene v h e, Occurs graphs name place scene v → graphs.graph? scene = some h →
    (e ∈ g.wordsTo (copy place) ↔ Approaches graphs name place h e)

structure Copying (graphs : SceneGraphs) (name : String) (ids : List VertexId)
    (copy : List CallPoint × VertexId → VertexId) (g : Graph) : Prop where
  copies : Copies (Placed graphs name ids) copy g
  top : ∀ u, copy ([], u) = u
  reads : ∀ place scene v h e, Placed graphs name ids place scene v → graphs.graph? scene = some h →
    ((∃ x ∈ g.wordsTo (copy place), Unfolds graphs x e) ↔ Approaches graphs name place h e)

namespace Copying

theorem start (hg : graphs.graph? name = some g) (hm : g.MadeIn name) :
    Copying graphs name g.ids Prod.snd g := by
  have only : ∀ place scene v, Placed graphs name g.ids place scene v →
      place.1 = [] ∧ scene = name ∧ g.Holds place.2 v := by
    rintro ⟨path, u⟩ scene v hp
    cases path with
    | nil =>
      obtain ⟨rfl, ⟨h, hh, hv⟩, -⟩ := hp
      cases hg.symm.trans hh
      exact ⟨rfl, rfl, hv⟩
    | cons point path =>
      obtain ⟨hno, hoccurs⟩ := hp
      cases hoccurs.path with
      | call hh hv _ _ =>
        cases hg.symm.trans hh
        exact absurd (mem_ids.2 hv.has) hno
  refine ⟨⟨fun place scene v hp => ?_, ?_, fun id hid => ?_⟩, fun _ => rfl, ?_⟩
  · obtain ⟨hnil, rfl, hv⟩ := only place scene v hp
    have made := hm _ _ hv
    have same : v.copied place.1 scene place.2 = v := by
      rw [hnil, made]
      rfl
    rwa [same]
  · rintro ⟨path, u⟩ scene v ⟨path', u'⟩ scene' v' hp hp' heq
    obtain ⟨rfl, -, -⟩ := only _ _ _ hp
    obtain ⟨rfl, -, -⟩ := only _ _ _ hp'
    exact congrArg (Prod.mk []) heq
  · obtain ⟨⟨v, es⟩, hn⟩ := has_iff.1 hid
    exact ⟨([], id), name, v, ⟨rfl, ⟨g, hg, es, hn⟩, Or.inr (mem_ids.2 hid)⟩, rfl⟩
  · rintro ⟨path, u⟩ scene v h e hp hh
    obtain ⟨rfl, rfl, -⟩ := only _ _ _ hp
    cases hg.symm.trans hh
    constructor
    · rintro ⟨x, hx, he⟩
      exact ⟨[], x, e, .here _, hx, he, rfl⟩
    · rintro ⟨before, w, u, hb, hw, hu, rfl⟩
      cases hb
      exact ⟨w, hw, hu⟩

theorem own (hc : Copying graphs name ids copy g) (hg : graphs.graph? name = some h) (hv : h.Holds p v)
    (hp : v.callee? = none ∨ p ∈ ids) : g.Holds p (v.copied [] name p) := by
  have placed : Placed graphs name ids ([], p) name v := ⟨rfl, ⟨h, hg, hv⟩, hp⟩
  have held := hc.copies.into _ _ _ placed
  rwa [hc.top] at held

theorem skip (hc : Copying graphs name (p :: ids) copy g)
    (hp : (g.vertex? p).bind Vertex.callee? = none) : Copying graphs name ids copy g := by
  have plain : ∀ h v, graphs.graph? name = some h → h.Holds p v → v.callee? = none := by
    intro h v hg hv
    obtain ⟨es, hn⟩ := hc.own hg hv (Or.inr List.mem_cons_self)
    obtain ⟨e, he, heq⟩ := Option.map_eq_some_iff.1 hn
    have hvertex : e.vertex = v.copied [] name p := congrArg Prod.fst heq
    rw [Graph.vertex?, he] at hp
    have hnone : e.vertex.callee? = none := hp
    rw [hvertex] at hnone
    exact hnone
  have same : ∀ place scene v, Placed graphs name ids place scene v ↔
      Placed graphs name (p :: ids) place scene v := by
    rintro ⟨path, u⟩ scene v
    cases path with
    | nil =>
      refine and_congr_right fun _ => and_congr_right fun hplace => ?_
      obtain ⟨h, hg, hv⟩ := hplace
      rw [List.mem_cons]
      constructor
      · exact Or.imp_right Or.inr
      · rintro (hc | rfl | hm)
        · exact Or.inl hc
        · exact Or.inl (plain h v hg hv)
        · exact Or.inr hm
    | cons point path =>
      refine and_congr_left fun hoccurs => not_congr ?_
      rw [List.mem_cons]
      refine ⟨Or.inr, fun hm => hm.resolve_left ?_⟩
      rintro rfl
      cases hoccurs.path with
      | call hg hv hcall _ => cases (plain _ _ hg hv).symm.trans hcall
  have placed : Placed graphs name ids = Placed graphs name (p :: ids) := by
    funext place scene v
    exact propext (same place scene v)
  refine ⟨?_, hc.top, ?_⟩
  · rw [placed]
    exact hc.copies
  · rw [placed]
    exact hc.reads

theorem finish (hc : Copying graphs name [] copy g) (hf : Final g) : Copied graphs name copy g := by
  have placed : Placed graphs name [] = Occurs graphs name := by
    funext place scene v
    exact propext placed_nil_iff
  refine ⟨placed ▸ hc.copies, hc.top, ?_⟩
  intro place scene v h e hp hg
  rw [← hc.reads place scene v h e (placed_nil_iff.2 hp) hg]
  constructor
  · exact fun he => ⟨e, he, (hf.unfolds_iff he).2 rfl⟩
  · rintro ⟨x, hx, he⟩
    rwa [(hf.unfolds_iff hx).1 he]

end Copying

section Replace

/-- The identities after the call at a vertex was replaced: what is placed behind the call has those of
the graph that was put in. -/
def reroute (p : VertexId) (ρ : VertexId → VertexId) (inner copy : List CallPoint × VertexId → VertexId)
    (place : List CallPoint × VertexId) : VertexId :=
  match place.1 with
  | [] => copy place
  | point :: path => if point.vertex = p then ρ (inner (path, place.2)) else copy place

/-- A place is behind the call that is expanded, or it had its vertex before. -/
theorem placed_cases (hd : (p :: ids).Nodup) (hg : graphs.graph? name = some h) (hv : h.Holds p v)
    (hcall : v.callee? = some callee) :
    Placed graphs name ids place scene w ↔
      (Placed graphs name (p :: ids) place scene w ∧ place ≠ ([], p)) ∨
        ∃ path, place.1 = ⟨name, p⟩ :: path ∧ Occurs graphs callee (path, place.2) scene w := by
  obtain ⟨hfresh, -⟩ := List.nodup_cons.1 hd
  obtain ⟨path, u⟩ := place
  cases path with
  | nil =>
    simp only [Placed, List.mem_cons, reduceCtorEq, false_and, exists_false, or_false, ne_eq,
      Prod.mk.injEq, true_and]
    constructor
    · rintro ⟨rfl, ⟨h', hg', hw⟩, hu⟩
      refine ⟨⟨rfl, ⟨h', hg', hw⟩, hu.imp_right Or.inr⟩, ?_⟩
      rintro rfl
      cases hg.symm.trans hg'
      cases hv.unique hw
      exact hu.elim (fun hno => by rw [hno] at hcall; cases hcall) hfresh
    · rintro ⟨⟨rfl, hw, hu⟩, hne⟩
      exact ⟨rfl, hw, hu.imp_right fun hu => hu.resolve_left hne⟩
  | cons point path =>
    simp only [Placed, List.mem_cons, not_or, ne_eq, Prod.mk.injEq, reduceCtorEq, false_and,
      not_false_eq_true, and_true, List.cons.injEq]
    constructor
    · rintro ⟨hno, hoccurs⟩
      by_cases hp : point.vertex = p
      · obtain ⟨hpath, held, plain⟩ := hoccurs
        cases hpath with
        | call hg' hv' hcall' hpath =>
          cases hp
          cases hg.symm.trans hg'
          cases hv.unique hv'
          cases hcall.symm.trans hcall'
          exact Or.inr ⟨path, ⟨rfl, rfl⟩, hpath, held, plain⟩
      · exact Or.inl ⟨⟨hp, hno⟩, hoccurs⟩
    · rintro (⟨⟨-, hno⟩, hoccurs⟩ | ⟨path, ⟨rfl, rfl⟩, hoccurs⟩)
      · exact ⟨hno, hoccurs⟩
      · exact ⟨hfresh, .call hg hv hcall hoccurs.path, hoccurs.held, hoccurs.plain⟩

variable {operation : Nat} {mark : Mark} {es : List Edge} {c' d : Graph} {st : Stmt}

theorem holds_recast (hc : c.Recast b ρ mark fun v => some (v.nested name)) (hv : b.Holds p v) :
    c.Holds (ρ p) { v.nested name with id := ρ p } := by
  obtain ⟨ds, hn⟩ := hv
  obtain ⟨e, he, heq⟩ := Option.map_eq_some_iff.1 hn
  cases heq
  obtain ⟨w, hw, hget⟩ := hc.entry p e he
  cases hw
  exact ⟨_, by rw [node?, hget]; rfl⟩

theorem nested_copied (path : List CallPoint) (id : VertexId) :
    { (v.copied path scene id).nested name with id := ρ id } =
      v.copied (⟨name, p⟩ :: path) scene (ρ id) := by
  simp [Vertex.copied, Vertex.nested, chainAlong]

theorem Copying.holds_call (hc : Copying graphs name ids copy g) (hg : graphs.graph? name = some h)
    (hn : g.node? p = some (v, es)) (hcall : v.callee? = some callee) :
    ∃ w, h.Holds p w ∧ w.callee? = some callee := by
  obtain ⟨⟨path, u⟩, scene, w, hplaced, hplace⟩ := hc.copies.onto p (has_iff.2 ⟨_, hn⟩)
  have hw := hc.copies.into _ _ _ hplaced
  rw [hplace] at hw
  have hwcall : w.callee? = some callee :=
    (congrArg Vertex.callee? (hw.unique ⟨es, hn⟩)).trans hcall
  cases path with
  | nil =>
    obtain ⟨-, ⟨h', hg', hw'⟩, -⟩ := hplaced
    cases hg.symm.trans hg'
    rw [hc.top] at hplace
    exact ⟨w, hplace ▸ hw', hwcall⟩
  | cons point path => cases hplaced.2.plain.symm.trans hwcall

theorem Copying.replace (hc : Copying graphs name (p :: ids) copy g) (hd : (p :: ids).Nodup)
    (hr : Replaces operation g p c r v es c' d) (hgw : g.Whole) (hgc : g.Apart c)
    (hst : v.stmt = some st) (hcall : st.callee? = some callee) (hg : graphs.graph? name = some h)
    (hb : Copied graphs callee inner b) (hbw : b.Whole) (hrecast : c.Recast b ρ mark fun v =>
      some (v.nested name)) (hce : Expanded graphs callee c) :
    Copying graphs name ids (reroute p ρ inner copy) r := by
  have hcopy : c.CopyOf b ρ := hrecast.copyOf hbw.wf (by
    rintro v w hw
    cases hw
    rfl)
  have hvcall : v.callee? = some callee := by
    rw [Vertex.callee?, hst]
    exact hcall
  obtain ⟨w, hw, hwcall⟩ := hc.holds_call hg hr.node hvcall
  have self : Placed graphs name (p :: ids) ([], p) name w :=
    ⟨rfl, ⟨h, hg, hw⟩, Or.inr List.mem_cons_self⟩
  -- what was placed before is not the call, and keeps its identity
  have old : ∀ place scene w', Placed graphs name (p :: ids) place scene w' → place ≠ ([], p) →
      reroute p ρ inner copy place = copy place ∧ copy place ≠ p := by
    intro place scene w' hplaced hne
    refine ⟨?_, fun heq => hne ?_⟩
    · obtain ⟨path, u⟩ := place
      cases path with
      | nil => rfl
      | cons point path =>
        have hno : point.vertex ∉ p :: ids := hplaced.1
        exact if_neg (List.ne_of_not_mem_cons hno)
    · exact hc.copies.injective _ _ _ _ _ _ hplaced self (heq.trans (hc.top p).symm)
  have new : ∀ path u, reroute p ρ inner copy (⟨name, p⟩ :: path, u) = ρ (inner (path, u)) :=
    fun path u => if_pos rfl
  have inside : ∀ path u scene w', Occurs graphs callee (path, u) scene w' →
      b.has (inner (path, u)) = true := fun path u scene w' ho => (hb.copies.into _ _ _ ho).has
  refine ⟨⟨?_, ?_, fun id hid => ?_⟩, fun u => hc.top u, ?_⟩
  · intro place scene w' hplaced
    rcases (placed_cases hd hg hw hwcall).1 hplaced with ⟨hplaced, hne⟩ | ⟨path, hpath, hoccurs⟩
    · obtain ⟨hsame, hother⟩ := old _ _ _ hplaced hne
      rw [hsame]
      obtain ⟨ds, hn⟩ := hc.copies.into _ _ _ hplaced
      exact ⟨_, hr.node?_kept hce.whole.wf hgc hn hother⟩
    · obtain ⟨path', u⟩ := place
      cases hpath
      rw [new]
      have hin := holds_recast hrecast (hb.copies.into _ _ _ hoccurs)
      rw [nested_copied (p := p)] at hin
      obtain ⟨ds, hn⟩ := (holds_rewire ⟨operation, true⟩ es hce.whole.wf).2 hin
      exact ⟨ds, hr.includes_part _ _ (hr.part ▸ hn)⟩
  · intro place scene w' place' scene' w'' hplaced hplaced' heq
    rcases (placed_cases hd hg hw hwcall).1 hplaced with ⟨hplaced, hne⟩ | ⟨path, hpath, hoccurs⟩ <;>
      rcases (placed_cases hd hg hw hwcall).1 hplaced' with ⟨hplaced', hne'⟩ | ⟨path', hpath', hoccurs'⟩
    · rw [(old _ _ _ hplaced hne).1, (old _ _ _ hplaced' hne').1] at heq
      exact hc.copies.injective _ _ _ _ _ _ hplaced hplaced' heq
    · obtain ⟨q', u'⟩ := place'
      cases hpath'
      rw [(old _ _ _ hplaced hne).1, new] at heq
      have hin := (hc.copies.into _ _ _ hplaced).has
      have hout := (holds_recast hrecast (hb.copies.into _ _ _ hoccurs')).has
      rw [heq] at hin
      rw [hgc _ hin] at hout
      cases hout
    · obtain ⟨q, u⟩ := place
      cases hpath
      rw [(old _ _ _ hplaced' hne').1, new] at heq
      have hin := (hc.copies.into _ _ _ hplaced').has
      have hout := (holds_recast hrecast (hb.copies.into _ _ _ hoccurs)).has
      rw [← heq] at hin
      rw [hgc _ hin] at hout
      cases hout
    · obtain ⟨q, u⟩ := place
      obtain ⟨q', u'⟩ := place'
      cases hpath
      cases hpath'
      rw [new, new] at heq
      have hinner := hrecast.injective _ _ (inside _ _ _ _ hoccurs) (inside _ _ _ _ hoccurs') heq
      cases hb.copies.injective _ _ _ _ _ _ hoccurs hoccurs' hinner
      rfl
  · rcases (hr.has hce.whole.wf id).1 hid with ⟨hid, hne⟩ | hid
    · obtain ⟨place, scene, w', hplaced, rfl⟩ := hc.copies.onto id hid
      have hother : place ≠ ([], p) := by
        rintro rfl
        exact hne (hc.top p)
      exact ⟨place, scene, w', (placed_cases hd hg hw hwcall).2 (Or.inl ⟨hplaced, hother⟩),
        (old _ _ _ hplaced hother).1⟩
    · obtain ⟨k, hk, rfl⟩ := hrecast.only id hid
      obtain ⟨⟨path, u⟩, scene, w', hoccurs, rfl⟩ := hb.copies.onto k hk
      exact ⟨(⟨name, p⟩ :: path, u), scene, w',
        (placed_cases hd hg hw hwcall).2 (Or.inr ⟨path, rfl, hoccurs⟩), new path u⟩
  · intro place scene w' h' e hplaced hg'
    rcases (placed_cases hd hg hw hwcall).1 hplaced with ⟨hplaced, hne⟩ | ⟨path, hpath, hoccurs⟩
    · obtain ⟨hsame, hother⟩ := old _ _ _ hplaced hne
      rw [hsame, ← hc.reads _ _ _ _ _ hplaced hg']
      constructor
      · rintro ⟨y, hy, hye⟩
        exact wordsTo_of_kept hr hgw hce hgc hst hcall (hgc _ (hc.copies.into _ _ _ hplaced).has) hy hye
      · rintro ⟨y, hy, hye⟩
        exact wordsTo_kept hr hgw hce hgc hst hcall hy hother hye
    · obtain ⟨path', u⟩ := place
      cases hpath
      have hin := inside _ _ _ _ hoccurs
      have reads : c.wordsTo (ρ (inner (path, u))) = b.wordsTo (inner (path, u)) :=
        hcopy.wordsTo_eq hbw (Or.inl hin)
      rw [new]
      constructor
      · rintro ⟨y, hy, hye⟩
        obtain ⟨w₀, hw₀, x, hx, e₀, he₀, rfl⟩ := wordsTo_of_inside hr hgw hce hgc hst hcall
          (holds_recast hrecast (hb.copies.into _ _ _ hoccurs)).has hy hye
        rw [reads, hb.reads _ _ _ _ _ hoccurs hg'] at hx
        obtain ⟨before, x', u', hbefore, hx', hu', rfl⟩ := hx
        rw [← hc.top p] at hw₀
        obtain ⟨_, w₁, u₁, hnil, hw₁, hu₁, rfl⟩ := (hc.reads _ _ _ _ _ self hg).1 ⟨w₀, hw₀, he₀⟩
        cases hnil
        exact ⟨_, x', u', .call hg hw hwcall hw₁ hu₁ hbefore, hx', hu', (List.append_assoc ..).symm⟩
      · rintro ⟨before, x, u', hbefore, hx, hu', rfl⟩
        cases hbefore with
        | call hg₀ hv₀ hcall₀ hw₀ hu₀ hbefore =>
          cases hg.symm.trans hg₀
          cases hw.unique hv₀
          cases hwcall.symm.trans hcall₀
          obtain ⟨y, hy, hyu⟩ := (hc.reads _ _ _ _ _ self hg).2 ⟨[], _, _, .here name, hw₀, hu₀, rfl⟩
          have hx := (hb.reads _ _ _ _ _ hoccurs hg').2 ⟨_, x, u', hbefore, hx, hu', rfl⟩
          rw [← reads] at hx
          rw [hc.top, List.nil_append] at *
          rw [List.append_assoc]
          exact wordsTo_inside hr hgw hce hgc hst hcall hy hyu hx (hcopy.ne_sink hin)

end Replace

end StoryFlow
