import Mathlib.Data.Set.Card
import StoryFlow.Proofs.Calls.Walk
import StoryFlow.Proofs.Calls.Withholding

/-! How often a scene occurs. Without cycles the walk counts every scene before those it calls, so when a
scene hands its count on, all calls of it have been counted. What has been counted up to then are the paths
of calls that end in a scene that was looked at, and in the end these are all paths. Counts wrap at 64
bits. -/

namespace StoryFlow

open Relation

variable {story : Story} {a b x entry : String} {path : List Nat} {place : Nat}

namespace Story

def written (story : Story) (name : String) : List String :=
  ((story.scene? name).map fun s => s.calls.map CallStmt.scene).getD []

/-- Where a path of calls leads. Each place counts the call statements of the scene that the path has come
to, so two calls of one scene are different paths. -/
def follow (story : Story) : String → List Nat → Option String
  | name, [] => some name
  | name, place :: rest => (story.written name)[place]?.bind fun callee => story.follow callee rest

def callPaths (story : Story) (a b : String) : Set (List Nat) := {path | story.follow a path = some b}

noncomputable def timesCalled (story : Story) (entry name : String) : Int :=
  ((story.callPaths entry name).ncard : Int).bmod Int64.size

theorem follow_snoc : story.follow a (path ++ [place]) =
    (story.follow a path).bind fun b => (story.written b)[place]? := by
  induction path generalizing a with
  | nil => simp [follow]
  | cons first rest ih => simp [follow, ih, Option.bind_assoc]

theorem calls_iff_mem_written : story.Calls a b ↔ b ∈ story.written a ∧ (story.scene? b).isSome := by
  unfold Calls written
  cases story.scene? a <;> simp

theorem callees_callGraph (name : String) : story.callGraph.callees name =
    (story.written name).filter fun b => (story.scene? b).isSome := by
  unfold written
  rw [CallGraph.callees, sites_callGraph]
  cases story.scene? name with
  | none => rfl
  | some s => simp [callSites, List.filter_map, Function.comp_def]

theorem scene?_isSome_of_written (h : b ∈ story.written a) : (story.scene? a).isSome := by
  unfold written at h
  cases hs : story.scene? a with
  | none => simp [hs] at h
  | some s => rfl

theorem transGen_of_follow (hb : (story.scene? b).isSome) (h : story.follow a path = some b)
    (hne : path ≠ []) : TransGen story.Calls a b := by
  induction path using List.reverseRecOn generalizing b with
  | nil => exact absurd rfl hne
  | append_singleton init place ih =>
    rw [follow_snoc, Option.bind_eq_some_iff] at h
    obtain ⟨x, hx, hplace⟩ := h
    have hm := List.mem_of_getElem? hplace
    have hcall : story.Calls x b := calls_iff_mem_written.2 ⟨hm, hb⟩
    by_cases hinit : init = []
    · subst hinit
      cases hx
      exact .single hcall
    · exact .tail (ih (scene?_isSome_of_written hm) hx hinit) hcall

end Story

section Places

theorem ncard_places_eq (l : List String) (b : String) :
    {place : Nat | l[place]? = some b}.Finite ∧ {place : Nat | l[place]? = some b}.ncard = l.count b := by
  induction l with
  | nil => simp
  | cons a rest ih =>
    obtain ⟨finite, count⟩ := ih
    have later : (Nat.succ '' {place : Nat | rest[place]? = some b}).ncard = rest.count b := by
      rw [Set.ncard_image_of_injective _ Nat.succ_injective, count]
    by_cases hab : a = b
    · have split : {place : Nat | (a :: rest)[place]? = some b} =
          {0} ∪ Nat.succ '' {place : Nat | rest[place]? = some b} := by
        ext place
        cases place <;> simp [hab]
      have apart : Disjoint {0} (Nat.succ '' {place : Nat | rest[place]? = some b}) := by
        simp
      refine ⟨split ▸ (Set.finite_singleton 0).union (finite.image _), ?_⟩
      rw [split, Set.ncard_union_eq apart (Set.finite_singleton 0) (finite.image _), later,
        Set.ncard_singleton, hab, List.count_cons_self, Nat.add_comm]
    · have split : {place : Nat | (a :: rest)[place]? = some b} =
          Nat.succ '' {place : Nat | rest[place]? = some b} := by
        ext place
        cases place <;> simp [hab]
      rw [split, later, List.count_cons_of_ne hab]
      exact ⟨finite.image _, rfl⟩

end Places

namespace Story

variable {callers : List String}

/-- The paths of calls whose last call, if any, stands in one of the given scenes. -/
def arriving (story : Story) (entry : String) (callers : List String) (b : String) : Set (List Nat) :=
  {path | story.follow entry path = some b ∧
    (path = [] ∨ ∃ x ∈ callers, story.follow entry path.dropLast = some x)}

theorem arriving_nil : story.arriving entry [] b = if entry = b then {[]} else ∅ := by
  ext path
  by_cases hb : entry = b
  · simp only [arriving, hb, if_true, List.not_mem_nil, false_and, exists_false, or_false,
      Set.mem_ofPred_eq, Set.mem_singleton_iff, and_iff_right_iff_imp]
    intro hpath
    rw [hpath, follow]
  · simp only [arriving, hb, if_false, List.not_mem_nil, false_and, exists_false, or_false,
      Set.mem_ofPred_eq, Set.mem_empty_iff_false, iff_false, not_and]
    intro hfollow hpath
    rw [hpath, follow] at hfollow
    exact hb (Option.some.inj hfollow)

theorem arriving_eq (h : ∀ x, b ∈ story.written x → x ∈ callers) :
    story.arriving entry callers b = story.callPaths entry b := by
  ext path
  refine and_iff_left_of_imp fun hpath => ?_
  rcases List.eq_nil_or_concat path with rfl | ⟨init, place, rfl⟩
  · exact Or.inl rfl
  · rw [List.concat_eq_append, follow_snoc, Option.bind_eq_some_iff] at hpath
    obtain ⟨x, hx, hplace⟩ := hpath
    exact Or.inr ⟨x, h x (List.mem_of_getElem? hplace), by simpa using hx⟩

/-- One more caller: each path to it goes on along each of its calls. -/
theorem arriving_snoc (hx : x ∉ callers) (hfin : (story.callPaths entry x).Finite)
    (hb : (story.arriving entry callers b).Finite) :
    (story.arriving entry (callers ++ [x]) b).Finite ∧
      (story.arriving entry (callers ++ [x]) b).ncard = (story.arriving entry callers b).ncard +
        (story.written x).count b * (story.callPaths entry x).ncard := by
  obtain ⟨finite, count⟩ := ncard_places_eq (story.written x) b
  let extend : List Nat × Nat → List Nat := fun q => q.1 ++ [q.2]
  let longer := story.callPaths entry x ×ˢ {place : Nat | (story.written x)[place]? = some b}
  have injective : Function.Injective extend := by
    intro q q' heq
    obtain ⟨hinit, hplace⟩ := List.append_inj' heq rfl
    exact Prod.ext hinit (List.singleton_inj.1 hplace)
  have split : story.arriving entry (callers ++ [x]) b =
      story.arriving entry callers b ∪ extend '' longer := by
    ext path
    constructor
    · rintro ⟨hpath, hlast⟩
      rcases List.eq_nil_or_concat path with rfl | ⟨init, place, rfl⟩
      · exact Or.inl ⟨hpath, Or.inl rfl⟩
      · rw [List.concat_eq_append] at hpath hlast ⊢
        obtain ⟨y, hy, hinit⟩ := hlast.resolve_left (by simp)
        rcases List.mem_append.1 hy with hy | hy
        · exact Or.inl ⟨hpath, Or.inr ⟨y, hy, hinit⟩⟩
        · rw [List.mem_singleton.1 hy, List.dropLast_concat] at hinit
          rw [follow_snoc, hinit] at hpath
          exact Or.inr ⟨(init, place), ⟨hinit, hpath⟩, rfl⟩
    · rintro (⟨hpath, hlast⟩ | ⟨⟨init, place⟩, ⟨hinit, hplace⟩, rfl⟩)
      · refine ⟨hpath, hlast.imp_right ?_⟩
        rintro ⟨y, hy, hinit⟩
        exact ⟨y, List.mem_append_left _ hy, hinit⟩
      · have hinit : story.follow entry init = some x := hinit
        refine ⟨?_, Or.inr ⟨x, List.mem_append_right _ List.mem_cons_self, ?_⟩⟩
        · rw [follow_snoc, hinit]
          exact hplace
        · rw [List.dropLast_concat, hinit]
  have apart : Disjoint (story.arriving entry callers b) (extend '' longer) := by
    refine Set.disjoint_left.2 ?_
    rintro path ⟨-, hlast⟩ ⟨⟨init, place⟩, ⟨hinit, -⟩, rfl⟩
    obtain ⟨y, hy, hfollow⟩ := hlast.resolve_left (by simp [extend])
    rw [List.dropLast_concat] at hfollow
    cases Option.some.inj (hfollow.symm.trans hinit)
    exact hx hy
  have added := (hfin.prod finite).image extend
  rw [split, Set.ncard_union_eq apart hb added, Set.ncard_image_of_injective _ injective,
    Set.ncard_prod, count, Nat.mul_comm]
  exact ⟨hb.union added, rfl⟩

end Story

namespace Program

open StoryFlow.CallGraph

variable {counts : Counts} {calls : CallGraph} {name key : String} {n : Nat}

theorem countOf_addCount (m : Int64) :
    countOf (addCount counts key m) name = countOf counts name + if key = name then m else 0 := by
  induction counts with
  | nil => by_cases hk : key = name <;> simp [addCount, countOf, hk]
  | cons first rest ih =>
    obtain ⟨known, k⟩ := first
    unfold countOf at ih ⊢
    by_cases hk : known = key
    · by_cases hn : key = name <;> simp [addCount, hk, hn]
    · by_cases hn : known = name
      · subst hn
        simp [addCount, hk, Ne.symm hk]
      · simpa [addCount, hk, hn] using ih

theorem countOf_foldl_addCount {callees : List String} {caller : String} (hself : caller ∉ callees)
    (hn : countOf counts caller = Int64.ofNat n) :
    countOf (callees.foldl (fun counts callee => addCount counts callee (countOf counts caller)) counts)
      name = countOf counts name + Int64.ofNat (callees.count name * n) := by
  induction callees generalizing counts with
  | nil => simp
  | cons callee rest ih =>
    rw [List.mem_cons, not_or] at hself
    have kept : countOf (addCount counts callee (countOf counts caller)) caller = Int64.ofNat n := by
      rw [countOf_addCount, if_neg (Ne.symm hself.1), Int64.add_zero, hn]
    rw [List.foldl_cons, ih hself.2 kept, countOf_addCount, hn]
    by_cases hname : callee = name
    · rw [if_pos hname, hname, List.count_cons_self, Nat.add_mul, Nat.one_mul, Int64.add_assoc,
        ← Int64.ofNat_add, Nat.add_comm]
    · rw [if_neg hname, Int64.add_zero, List.count_cons_of_ne hname]

def CallersFirst (story : Story) (order : List String) : Prop :=
  ∀ l x r, order = l ++ x :: r → ∀ caller, story.Calls caller x → caller ∈ l

/-- What is counted are the paths of calls that end in a scene that was looked at. -/
structure Counted (story : Story) (entry : String) (done : List String) (counts : Counts) : Prop where
  finite : ∀ x ∈ done, (story.callPaths entry x).Finite
  arriving : ∀ name, (story.scene? name).isSome → (story.arriving entry done name).Finite ∧
    countOf counts name = Int64.ofNat (story.arriving entry done name).ncard

theorem counted_start (story : Story) (entry : String) : Counted story entry [] [(entry, 1)] := by
  refine ⟨by simp, fun name _ => ?_⟩
  rw [Story.arriving_nil]
  by_cases hname : entry = name <;> simp [hname, countOf]

theorem Counted.spread {done : List String} (h : Counted story entry done counts) (hx : x ∉ done)
    (hdeclared : (story.scene? x).isSome) (hself : ¬story.Calls x x)
    (hcallers : ∀ caller, story.Calls caller x → caller ∈ done) :
    Counted story entry (done ++ [x]) (spread story.callGraph counts x) := by
  have all : story.arriving entry done x = story.callPaths entry x := by
    apply Story.arriving_eq
    intro caller hm
    exact hcallers caller (Story.calls_iff_mem_written.2 ⟨hm, hdeclared⟩)
  obtain ⟨finite, count⟩ := h.arriving x hdeclared
  rw [all] at finite count
  constructor
  · intro y hy
    rcases List.mem_append.1 hy with hy | hy
    · exact h.finite y hy
    · exact List.mem_singleton.1 hy ▸ finite
  · intro name hname
    obtain ⟨known, counted⟩ := h.arriving name hname
    obtain ⟨more, total⟩ := Story.arriving_snoc hx finite known
    refine ⟨more, ?_⟩
    have own : x ∉ story.callGraph.callees x := by
      rw [Story.callees_callGraph, List.mem_filter]
      rintro ⟨hm, hd⟩
      exact hself (Story.calls_iff_mem_written.2 ⟨hm, hd⟩)
    rw [Program.spread, countOf_foldl_addCount own count, counted, ← Int64.ofNat_add, total,
      Story.callees_callGraph, List.count_filter]
    exact hname

theorem counted_foldl {done rest : List String} (h : Counted story entry done counts)
    (hd : (done ++ rest).Nodup) (hdeclared : ∀ x ∈ rest, (story.scene? x).isSome)
    (hself : ∀ x, ¬story.Calls x x) (horder : CallersFirst story (done ++ rest)) :
    Counted story entry (done ++ rest) (rest.foldl (spread story.callGraph) counts) := by
  induction rest generalizing done counts with
  | nil => simpa using h
  | cons x rest ih =>
    obtain ⟨hx, hdeclared⟩ := List.forall_mem_cons.1 hdeclared
    have hnew : x ∉ done := fun hm => (List.nodup_append.1 hd).2.2 x hm x List.mem_cons_self rfl
    have next := h.spread hnew hx (hself x) (horder done x rest rfl)
    rw [List.append_cons] at hd horder ⊢
    exact ih next hd hdeclared horder

theorem mem_names_of_calls (h : story.Calls a b) : a ∈ story.callGraph.names := by
  obtain ⟨s, hs, -⟩ := h
  obtain ⟨hmem, rfl⟩ := Story.mem_of_scene? hs
  exact Story.mem_names_callGraph hmem

theorem callersFirst_reverse {finished : List String} (h : CalleesFirst story.callGraph finished)
    (hd : finished.Nodup) (hall : story.callGraph.names ⊆ finished) :
    CallersFirst story finished.reverse := by
  intro l x r heq caller hcall
  obtain ⟨before, after, hfin⟩ := List.append_of_mem (hall (mem_names_of_calls hcall))
  have hx : x ∈ before := by
    apply h before caller after hfin
    rwa [Story.callGraph_calls]
  -- the caller stands behind the scene, so in front of it in the reversed order
  obtain ⟨u, w, rfl⟩ := List.append_of_mem hx
  have back : finished.reverse = (after.reverse ++ caller :: w.reverse) ++ x :: u.reverse := by
    rw [hfin]
    simp
  have distinct : ((after.reverse ++ caller :: w.reverse) ++ x :: u.reverse).Nodup :=
    back ▸ List.nodup_reverse.2 hd
  obtain ⟨-, tail, apart⟩ := List.nodup_append.1 distinct
  have front : x ∉ after.reverse ++ caller :: w.reverse := by
    intro hm
    exact apart x hm x List.mem_cons_self rfl
  have hl := ((List.append_cons_inj_of_notMem front (List.nodup_cons.1 tail).1).1
    (back.symm.trans heq)).1
  rw [← hl]
  simp

/-- Without cycles of calls the counts are the numbers of paths of calls. -/
theorem countOf_occurrences (hd : (story.scenes.map Scene.name).Nodup)
    (hacyclic : ∀ name, ¬TransGen story.Calls name name) (hname : (story.scene? name).isSome) :
    (story.callPaths entry name).Finite ∧
      countOf (occurrences story.callGraph story.callGraph.walk.finished entry) name =
        Int64.ofNat (story.callPaths entry name).ncard := by
  have distinct : story.callGraph.names.Nodup := Story.names_callGraph ▸ hd
  have perm := finished_walk_perm distinct Story.declared_callGraph
  rw [← Story.callGraph_calls] at hacyclic
  have first := calleesFirst_walk Story.declared_callGraph
    ((cycles_walk_eq_nil_iff distinct Story.declared_callGraph).2 hacyclic)
  have nodup : story.callGraph.walk.finished.Nodup := perm.nodup_iff.2 distinct
  have backwards : ([] ++ story.callGraph.walk.finished.reverse).Nodup := List.nodup_reverse.2 nodup
  have declared : ∀ x ∈ story.callGraph.walk.finished.reverse, (story.scene? x).isSome := by
    intro x hx
    have hin := perm.mem_iff.1 (List.mem_reverse.1 hx)
    rw [Story.names_callGraph] at hin
    obtain ⟨s, hs, rfl⟩ := List.mem_map.1 hin
    rw [Story.scene?_of_mem hd hs]
    rfl
  have irreflexive : ∀ x, ¬story.Calls x x := by
    intro x hcall
    rw [← Story.callGraph_calls] at hcall
    exact hacyclic x (.single hcall)
  have counted := counted_foldl (counted_start story entry) backwards declared irreflexive
    (callersFirst_reverse first nodup fun x hx => perm.mem_iff.2 hx)
  have all : story.arriving entry story.callGraph.walk.finished.reverse name =
      story.callPaths entry name := by
    apply Story.arriving_eq
    intro x hx
    have hcall : story.Calls x name := Story.calls_iff_mem_written.2 ⟨hx, hname⟩
    exact List.mem_reverse.2 (perm.mem_iff.2 (mem_names_of_calls hcall))
  have arriving := counted.arriving name hname
  rw [List.nil_append, all] at arriving
  exact arriving

def miscounted (s : Scene) (times : Int) : Diagnostic where
  kind := .chapterCallCount
  message := "chapter " ++ s.name ++ " must be called exactly once, but is called " ++
    toString times ++ " times"
  area := some s.area
  names := [s.name]
  chain := [s.name]

theorem timesCalled_entry (hacyclic : ∀ name, ¬TransGen story.Calls name name)
    (hentry : (story.scene? entry).isSome) : story.timesCalled entry entry = 1 := by
  have none : story.callPaths entry entry = {[]} := by
    ext path
    constructor
    · intro hpath
      by_contra hne
      exact hacyclic entry (Story.transGen_of_follow hentry hpath hne)
    · intro hpath
      rw [Set.mem_singleton_iff.1 hpath]
      rfl
  unfold Story.timesCalled
  simp [none, Int.bmod]

theorem timesCalled_unreached (hname : (story.scene? name).isSome)
    (h : ¬ReflTransGen story.Calls entry name) : story.timesCalled entry name = 0 := by
  have none : story.callPaths entry name = ∅ := by
    ext path
    refine iff_of_false (fun hpath => h ?_) (Set.notMem_empty path)
    by_cases hne : path = []
    · subst hne
      cases hpath
      exact .refl
    · exact (Story.transGen_of_follow hname hpath hne).to_reflTransGen
  unfold Story.timesCalled
  simp [none]

section Chapters

variable {entry : Scene}

theorem toInt_countOf_occurrences (hd : (story.scenes.map Scene.name).Nodup)
    (hacyclic : ∀ name, ¬TransGen story.Calls name name) {s : Scene} (hs : s ∈ story.scenes) :
    (countOf (occurrences story.callGraph story.callGraph.walk.finished entry.name) s.name).toInt =
      story.timesCalled entry.name s.name := by
  have hname : (story.scene? s.name).isSome := by
    rw [Story.scene?_of_mem hd hs]
    rfl
  rw [(countOf_occurrences hd hacyclic hname).2]
  exact Int64.toInt_ofNat'

theorem chapterProblems_eq {counts : Counts} {times : String → Int}
    (h : ∀ s ∈ story.scenes, (countOf counts s.name).toInt = times s.name) :
    chapterProblems story counts = (story.scenes.filter fun s => s.chapter ∧ times s.name ≠ 1).map
      fun s => miscounted s (times s.name) := by
  have once : ∀ s ∈ story.scenes, (s.chapter && countOf counts s.name != 1) =
      decide (s.chapter ∧ times s.name ≠ 1) := by
    intro s hs
    rw [← h s hs, Bool.decide_and, Bool.decide_eq_true]
    congr 1
    rw [bne, beq_eq_decide, ← decide_not, decide_eq_decide, Ne, not_congr]
    exact Int64.toInt_inj.symm
  rw [chapterProblems, List.filter_congr once]
  apply List.map_congr_left
  intro s hs
  rw [miscounted, h s (List.mem_filter.1 hs).1]

theorem problems_of_assemble (hd : (story.scenes.map Scene.name).Nodup)
    (hacyclic : ∀ name, ¬TransGen story.Calls name name) (hentry : story.entryScene? = some entry)
    {graphs : SceneGraphs} {supply : Flow.Supply} {program : Program}
    (h : assemble story graphs supply = .ok program) :
    program.problems = story.scenes.flatMap (undeclaredProblems story) ++ chapterProblems story
      (occurrences story.callGraph story.callGraph.walk.finished entry.name) := by
  have none : story.callGraph.walk.cycles = [] := by
    have distinct : story.callGraph.names.Nodup := Story.names_callGraph ▸ hd
    apply (cycles_walk_eq_nil_iff distinct Story.declared_callGraph).2
    rwa [Story.callGraph_calls]
  simp only [assemble, hentry, none, List.isEmpty_nil, if_true, List.map_nil, List.append_nil] at h
  split at h
  · cases h
    rfl
  · obtain ⟨expanded, -, h⟩ := ok_of_bind_ok h
    cases h
    rfl

/-- Without cycles of calls a scene is counted as often as there are paths of calls to it, and the chapters
that are not counted once are reported with their counts in story order. -/
theorem chapters_counted (hd : (story.scenes.map Scene.name).Nodup)
    (hacyclic : ∀ name, ¬TransGen story.Calls name name) (hentry : story.entryScene? = some entry) :
    let counts := occurrences story.callGraph story.callGraph.walk.finished entry.name
    (∀ s ∈ story.scenes, (story.callPaths entry.name s.name).Finite ∧
      (countOf counts s.name).toInt = story.timesCalled entry.name s.name) ∧
    story.timesCalled entry.name entry.name = 1 ∧
    (∀ s ∈ story.scenes, ¬ReflTransGen story.Calls entry.name s.name →
      story.timesCalled entry.name s.name = 0) ∧
    chapterProblems story counts = ((story.scenes.filter fun s =>
      s.chapter ∧ story.timesCalled entry.name s.name ≠ 1).map fun s =>
        miscounted s (story.timesCalled entry.name s.name)) ∧
    ∀ graphs supply program, assemble story graphs supply = .ok program → program.problems =
      story.scenes.flatMap (undeclaredProblems story) ++ chapterProblems story counts := by
  intro counts
  have isSome : ∀ s ∈ story.scenes, (story.scene? s.name).isSome := by
    intro s hs
    rw [Story.scene?_of_mem hd hs]
    rfl
  have counted : ∀ s ∈ story.scenes,
      (countOf counts s.name).toInt = story.timesCalled entry.name s.name := by
    intro s hs
    exact toInt_countOf_occurrences hd hacyclic hs
  refine ⟨fun s hs => ⟨(countOf_occurrences hd hacyclic (isSome s hs)).1, counted s hs⟩,
    timesCalled_entry hacyclic (isSome entry (Story.mem_of_entryScene? hentry)),
    fun s hs => timesCalled_unreached (isSome s hs), chapterProblems_eq counted, ?_⟩
  intro graphs supply program h
  exact problems_of_assemble hd hacyclic hentry h

end Chapters

/-- A chapter that is called twice, one with three paths of calls to it, one that is called again by a scene
nobody calls, and one that is not called at all. -/
def errands : Story where
  scenes := [
    ⟨{}, "home", false, [.plain {} (.call "road"), .plain {} (.call "road"), .plain {} (.call "inn"),
      .plain {} (.call "nowhere"), .plain {} (.call "attic")]⟩,
    ⟨{}, "road", true, [.plain {} (.call "inn")]⟩,
    ⟨{}, "inn", true, []⟩,
    ⟨{}, "attic", true, []⟩,
    ⟨{}, "cellar", false, [.plain {} (.call "attic")]⟩,
    ⟨{}, "vault", true, []⟩]

theorem chapters_counted_errands : ∃ home road inn attic cellar vault,
    errands.scenes = [home, road, inn, attic, cellar, vault] ∧
    (errands.scenes.map Scene.name).Nodup ∧ (∀ name, ¬TransGen errands.Calls name name) ∧
    errands.entryScene? = some home ∧ errands.timesCalled "home" "inn" = 3 ∧
    chapterProblems errands (occurrences errands.callGraph errands.callGraph.walk.finished "home") =
      [miscounted road 2, miscounted inn 3, miscounted vault 0] := by
  have distinct : (errands.scenes.map Scene.name).Nodup := by decide
  have acyclic : ∀ name, ¬TransGen errands.Calls name name := by
    rw [← Story.callGraph_calls]
    apply (cycles_walk_eq_nil_iff (Story.names_callGraph ▸ distinct) Story.declared_callGraph).1
    decide +kernel
  obtain ⟨counted, -, -, -, -⟩ := @chapters_counted errands _ distinct acyclic rfl
  have inn : (countOf (occurrences errands.callGraph errands.callGraph.walk.finished "home")
      "inn").toInt = 3 := by decide +kernel
  have paths := (counted ⟨{}, "inn", true, []⟩ (by simp [errands])).2
  refine ⟨_, _, _, _, _, _, rfl, distinct, acyclic, rfl, paths.symm.trans inn, ?_⟩
  decide +kernel

end Program

end StoryFlow
