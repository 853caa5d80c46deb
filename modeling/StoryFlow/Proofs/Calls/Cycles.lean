import StoryFlow.Calls.Program
import StoryFlow.Proofs.Calls.Order

/-! Which scenes are broken. The walk over the calls reports one cycle for each call back to an open scene,
and one pass over the finished scenes hands on what is broken. This is enough: a scene that lies on no
reported cycle has all its callees finished before it, so by the time it is looked at, it is settled which
of them are broken. -/

namespace StoryFlow.CallGraph

open Relation

variable {c : CallGraph} {path outer : List String} {name : String} {p p' q : Progress}
  {site : CallSite} {sites rest : List CallSite} {cycle : CallCycle}

/-- No name contains the character that the keys of cycles put between names. -/
def Plain (c : CallGraph) : Prop := ∀ name ∈ c.names, '\x00' ∉ name.toList

theorem names_eq_of_cycleKey_eq {a b : CallCycle} (ha : ∀ n ∈ a.names, '\x00' ∉ n.toList)
    (hb : ∀ n ∈ b.names, '\x00' ∉ n.toList) (ha₀ : a.names ≠ []) (hb₀ : b.names ≠ [])
    (h : cycleKey a = cycleKey b) : a.names = b.names := by
  have split : ∀ l : List String, (∀ n ∈ l, '\x00' ∉ n.toList) → l ≠ [] →
      (String.intercalate "\x00" l).toList.splitOn '\x00' = l.map String.toList := by
    intro l hl hne
    rw [String.toList_intercalate]
    exact List.splitOn_intercalate _ (by simpa using hl) (by simpa using hne)
  have inj : Function.Injective String.toList := fun _ _ => String.toList_inj.1
  rw [← (List.map_injective_iff.2 inj).eq_iff, ← split _ ha ha₀, ← split _ hb hb₀]
  exact congrArg (fun key => List.splitOn '\x00' (String.toList key)) h

theorem mem_cycles_addCycle {known : CallCycle} (h : known ∈ (addCycle p cycle).cycles) :
    known ∈ p.cycles ∨ known = cycle := by
  unfold addCycle at h
  split at h
  · exact Or.inl h
  · simpa using h

theorem exists_key_addCycle (p : Progress) (cycle : CallCycle) :
    ∃ known ∈ (addCycle p cycle).cycles, cycleKey known = cycleKey cycle := by
  unfold addCycle
  split <;> rename_i hknown
  · simpa using hknown
  · exact ⟨cycle, List.mem_append_right _ List.mem_cons_self, rfl⟩

/-- Every call of a finished scene goes to a scene that was finished before it, unless the scene is on a
reported cycle, and what is reported are cycles. -/
structure Explored (c : CallGraph) (p : Progress) : Prop where
  earlier : ∀ l name r, p.finished = l ++ name :: r → ∀ callee, c.Calls name callee →
    callee ∈ l ∨ ∃ cycle ∈ p.cycles, name ∈ cycle.names
  cyclic : ∀ cycle ∈ p.cycles, cycle.names ≠ [] ∧ ∀ name ∈ cycle.names, TransGen c.Calls name name

theorem earlier_snoc {finished : List String} (excused : String → Prop)
    (h : ∀ l other r, finished = l ++ other :: r → ∀ callee, c.Calls other callee →
      callee ∈ l ∨ excused other)
    (hs : ∀ site ∈ c.sites name, site.callee ∈ finished ∨ excused name) :
    ∀ l other r, finished ++ [name] = l ++ other :: r → ∀ callee, c.Calls other callee →
      callee ∈ l ∨ excused other := by
  intro l other r heq callee hcall
  rcases List.eq_nil_or_concat r with rfl | ⟨r, last, rfl⟩
  · obtain ⟨rfl, hname⟩ := List.append_inj' heq rfl
    cases hname
    obtain ⟨site, hsite, rfl⟩ := List.mem_map.1 hcall
    exact hs site hsite
  · rw [List.concat_eq_append, ← List.cons_append, ← List.append_assoc] at heq
    exact h l other r (List.append_inj' heq rfl).1 callee hcall

theorem Explored.finish (h : Explored c p) (hs : ∀ site ∈ c.sites name,
    site.callee ∈ p.finished ∨ ∃ cycle ∈ p.cycles, name ∈ cycle.names) : Explored c (p.finish name) :=
  ⟨earlier_snoc (fun name => ∃ cycle ∈ p.cycles, name ∈ cycle.names) h.earlier hs, h.cyclic⟩

def Leading (c : CallGraph) (path : List String) : Prop :=
  path.Pairwise fun inner outer => TransGen c.Calls outer inner

theorem Leading.to_callee (h : Leading c (name :: outer)) {callee : String}
    (hcall : c.Calls name callee) : ∀ x ∈ name :: outer, TransGen c.Calls x callee := by
  intro x hx
  rcases List.mem_cons.1 hx with rfl | hx
  · exact .single hcall
  · exact .tail ((List.pairwise_cons.1 h).1 x hx) hcall

/-- What is closed are the scenes that were opened after the callee and the callee itself, outermost first,
and the callee again. -/
theorem closed_eq {inner above : List String} (hno : name ∉ inner) :
    closed (inner ++ name :: above) name = name :: inner.reverse ++ [name] := by
  have later : ∀ x ∈ inner, (x != name) = true := by
    intro x hx
    rw [bne_iff_ne]
    exact ne_of_mem_of_not_mem hx hno
  rw [closed, List.takeWhile_append_of_pos later]
  simp

theorem closed_cyclic {callee : String} (h : Leading c (name :: outer)) (hcall : c.Calls name callee)
    (hin : callee ∈ name :: outer) :
    name ∈ closed (name :: outer) callee ∧
      ∀ x ∈ closed (name :: outer) callee, TransGen c.Calls x x := by
  have back := h.to_callee hcall
  obtain ⟨inner, above, heq, hno⟩ := List.eq_append_cons_of_mem hin
  have hclosed : closed (name :: outer) callee = callee :: inner.reverse ++ [callee] :=
    heq ▸ closed_eq hno
  rw [hclosed]
  constructor
  · cases inner with
    | nil =>
      cases heq
      exact List.mem_cons_self
    | cons x inner =>
      cases heq
      simp
  · intro x hx
    have hx : x = callee ∨ x ∈ inner := by simpa [or_comm, or_left_comm] using hx
    rcases hx with rfl | hx
    · exact back x hin
    · rw [Leading, heq] at h
      have down := (List.pairwise_append.1 h).2.2 x hx callee List.mem_cons_self
      exact (back x (heq ▸ List.mem_append_left _ hx)).trans down

theorem mem_names_of_cyclic (hc : c.Declared) (h : TransGen c.Calls name name) : name ∈ c.names := by
  obtain ⟨x, -, hx⟩ := TransGen.tail'_iff.1 h
  exact hc x name hx

/-- A cycle whose key is known was reported itself, since names can be read off the key. -/
theorem Explored.addCycle (h : Explored c p) (cycle : CallCycle) (hc : c.Declared) (hplain : c.Plain)
    (hne : cycle.names ≠ []) (hcyc : ∀ name ∈ cycle.names, TransGen c.Calls name name) :
    Explored c (addCycle p cycle) ∧ ∃ known ∈ (CallGraph.addCycle p cycle).cycles,
      known.names = cycle.names := by
  have cyclic : ∀ known ∈ (CallGraph.addCycle p cycle).cycles,
      known.names ≠ [] ∧ ∀ name ∈ known.names, TransGen c.Calls name name := by
    intro known hk
    rcases mem_cycles_addCycle hk with hk | rfl
    · exact h.cyclic known hk
    · exact ⟨hne, hcyc⟩
  have plain : ∀ names : List String, (∀ name ∈ names, TransGen c.Calls name name) →
      ∀ name ∈ names, '\x00' ∉ name.toList :=
    fun names hn name hm => hplain name (mem_names_of_cyclic hc (hn name hm))
  refine ⟨⟨fun l name r heq callee hcall => ?_, cyclic⟩, ?_⟩
  · rw [finished_addCycle] at heq
    refine (h.earlier l name r heq callee hcall).imp_right ?_
    rintro ⟨known, hk, hn⟩
    exact ⟨known, cycles_subset_addCycle hk, hn⟩
  · obtain ⟨known, hk, hkey⟩ := exists_key_addCycle p cycle
    obtain ⟨hkne, hkcyc⟩ := cyclic known hk
    exact ⟨known, hk, names_eq_of_cycleKey_eq (plain _ hkcyc) (plain _ hcyc) hkne hne hkey⟩

theorem Follows.explored (h : Follows c path sites p p') (hc : c.Declared) (hplain : c.Plain)
    (hpath : Leading c path) (hs : ∀ site ∈ sites, ∀ name ∈ path.head?, c.Calls name site.callee)
    (hp : Explored c p) : Explored c p' ∧ ∀ site ∈ sites, site.callee ∈ p'.finished ∨
      ∃ name ∈ path.head?, ∃ cycle ∈ p'.cycles, name ∈ cycle.names := by
  induction h with
  | nil => exact ⟨hp, by simp⟩
  | pass hfin hrest ih =>
    obtain ⟨-, hs⟩ := List.forall_mem_cons.1 hs
    obtain ⟨hp', hsites⟩ := ih hpath hs hp
    exact ⟨hp', List.forall_mem_cons.2 ⟨Or.inl (hrest.extends.1 hfin), hsites⟩⟩
  | @close path site rest p p' hopen hrest ih =>
    obtain ⟨hsite, hs⟩ := List.forall_mem_cons.1 hs
    obtain ⟨name, outer, rfl⟩ := List.exists_cons_of_ne_nil (List.ne_nil_of_mem hopen)
    obtain ⟨hname, hcyc⟩ := closed_cyclic hpath (hsite name rfl) hopen
    obtain ⟨hp₁, known, hk, hnames⟩ := hp.addCycle ⟨_, site⟩ hc hplain
      (List.ne_nil_of_mem hname) hcyc
    obtain ⟨hp', hsites⟩ := ih hpath hs hp₁
    refine ⟨hp', List.forall_mem_cons.2 ⟨Or.inr ⟨name, rfl, known, hrest.extends.2 hk, ?_⟩, hsites⟩⟩
    rw [hnames]
    exact hname
  | @enter path site rest p q p' hnew hout hinner hrest inner next =>
    obtain ⟨hsite, hs⟩ := List.forall_mem_cons.1 hs
    have leading : Leading c (site.callee :: path) := by
      refine List.pairwise_cons.2 ⟨fun x hx => ?_, hpath⟩
      obtain ⟨name, outer, rfl⟩ := List.exists_cons_of_ne_nil (List.ne_nil_of_mem hx)
      exact hpath.to_callee (hsite name rfl) x hx
    have own : ∀ call ∈ c.sites site.callee, ∀ name ∈ (site.callee :: path).head?,
        c.Calls name call.callee := by
      rintro call hcall name ⟨⟩
      exact calls_of_mem_sites hcall
    obtain ⟨hq, hcalls⟩ := inner leading own hp
    have finished : Explored c (q.finish site.callee) := by
      refine hq.finish fun call hcall => (hcalls call hcall).imp_right ?_
      rintro ⟨name, ⟨⟩, hcycle⟩
      exact hcycle
    obtain ⟨hp', hsites⟩ := next hpath hs finished
    refine ⟨hp', List.forall_mem_cons.2 ⟨Or.inl (hrest.extends.1 ?_), hsites⟩⟩
    exact List.mem_append_right _ List.mem_cons_self

/-- The walk finishes every scene, and finds every cycle that keeps a callee from being finished first. -/
theorem walk_explored (hc : c.Declared) (hplain : c.Plain) :
    Explored c c.walk ∧ c.names ⊆ c.walk.finished := by
  have nothing : Explored c {} := ⟨fun l name r heq => by simp at heq, by simp⟩
  obtain ⟨hp, hsites⟩ := (walk_follows hc).explored hc hplain .nil (by simp) nothing
  refine ⟨hp, fun name hn => ?_⟩
  rcases hsites _ (List.mem_map_of_mem hn) with hfin | ⟨_, ⟨⟩, -⟩
  exact hfin

end StoryFlow.CallGraph

namespace StoryFlow.Program

open Relation
open StoryFlow.CallGraph

variable {calls : CallGraph} {broken finished l r : List String} {name x : String}

theorem mem_spreadBroken : x ∈ spreadBroken calls broken name ↔
    x ∈ broken ∨ (x = name ∧ ∃ callee ∈ broken, calls.Calls name callee) := by
  unfold spreadBroken
  split <;> rename_i hany
  · have hcalls : ∃ callee ∈ broken, calls.Calls name callee := by
      simpa [Calls, and_comm] using hany
    simp [hcalls, or_comm]
  · have hcalls : ¬∃ callee ∈ broken, calls.Calls name callee := by
      simpa [Calls, and_comm, imp_not_comm] using hany
    simp [hcalls]

theorem subset_foldl_spreadBroken : broken ⊆ finished.foldl (spreadBroken calls) broken := by
  induction finished generalizing broken with
  | nil => exact List.Subset.refl _
  | cons name rest ih => exact fun x hx => ih (mem_spreadBroken.2 (Or.inl hx))

theorem exists_of_mem_foldl_spreadBroken (h : x ∈ finished.foldl (spreadBroken calls) broken) :
    ∃ y ∈ broken, (x = y ∨ x ∈ finished) ∧ ReflTransGen calls.Calls x y := by
  induction finished generalizing broken with
  | nil => exact ⟨x, h, Or.inl rfl, .refl⟩
  | cons name rest ih =>
    obtain ⟨y, hy, hxy, hreach⟩ := ih h
    rcases mem_spreadBroken.1 hy with hy | ⟨rfl, callee, hcallee, hcall⟩
    · exact ⟨y, hy, hxy.imp_right (List.mem_cons_of_mem _), hreach⟩
    · refine ⟨callee, hcallee, Or.inr ?_, hreach.tail hcall⟩
      rcases hxy with rfl | hx
      · exact List.mem_cons_self
      · exact List.mem_cons_of_mem _ hx

/-- All callees were looked at before the scene itself was, and nothing about them changes afterwards. -/
theorem callee_unbroken {callee : String} (hd : (l ++ name :: r).Nodup) (hl : callee ∈ l)
    (hcall : calls.Calls name callee)
    (hname : name ∉ (l ++ name :: r).foldl (spreadBroken calls) broken) :
    callee ∉ (l ++ name :: r).foldl (spreadBroken calls) broken := by
  rw [List.foldl_append] at hname ⊢
  intro hbroken
  obtain ⟨y, hy, hin, -⟩ := exists_of_mem_foldl_spreadBroken hbroken
  rcases hin with rfl | hin
  · apply hname
    rw [List.foldl_cons]
    exact subset_foldl_spreadBroken (mem_spreadBroken.2 (Or.inr ⟨rfl, callee, hy, hcall⟩))
  · exact (List.nodup_append.1 hd).2.2 callee hl callee hin rfl

def marked (calls : CallGraph) (own : List String) : List String :=
  calls.walk.finished.foldl (spreadBroken calls) (own ++ calls.walk.cycles.flatMap CallCycle.names)

/-- The scene leads neither to a scene that is broken by itself nor to a cycle. -/
def Sound (calls : CallGraph) (own : List String) (name : String) : Prop :=
  ∀ x, ReflTransGen calls.Calls name x → x ∉ own ∧ ¬TransGen calls.Calls x x

section Walked

variable {own : List String}

theorem unbroken_trans (hc : calls.Declared) (hplain : calls.Plain)
    (heq : calls.walk.finished = l ++ name :: r) (hname : name ∉ marked calls own)
    (hx : TransGen calls.Calls name x) : x ∈ l ∧ x ∉ marked calls own := by
  obtain ⟨explored, -⟩ := walk_explored hc hplain
  have step : ∀ l name r, calls.walk.finished = l ++ name :: r → name ∉ marked calls own →
      ∀ callee, calls.Calls name callee → callee ∈ l ∧ callee ∉ marked calls own := by
    intro l name r heq hname callee hcall
    have early : callee ∈ l := by
      refine (explored.earlier l name r heq callee hcall).resolve_right ?_
      rintro ⟨cycle, hcycle, hin⟩
      apply hname
      apply subset_foldl_spreadBroken
      exact List.mem_append_right _ (List.mem_flatMap.2 ⟨cycle, hcycle, hin⟩)
    have distinct : calls.walk.finished.Nodup := nodup_finished_walk hc
    rw [marked, heq] at hname ⊢
    rw [heq] at distinct
    exact ⟨early, callee_unbroken distinct early hcall hname⟩
  induction hx with
  | single hcall => exact step l name r heq hname _ hcall
  | tail _ hcall ih =>
    obtain ⟨hin, hno⟩ := ih
    obtain ⟨l₁, l₂, rfl⟩ := List.append_of_mem hin
    rw [List.append_assoc, List.cons_append] at heq
    obtain ⟨hin, hno⟩ := step l₁ _ _ heq hno _ hcall
    exact ⟨List.mem_append_left _ hin, hno⟩

theorem mem_finished (hc : calls.Declared) (hplain : calls.Plain) (hname : name ∈ calls.names) :
    ∃ l r, calls.walk.finished = l ++ name :: r :=
  List.append_of_mem ((walk_explored hc hplain).2 hname)

/-- The pass over the finished scenes marks exactly those that lead to a scene that is broken itself or
to a cycle. -/
theorem not_mem_marked_iff (hc : calls.Declared) (hplain : calls.Plain) (hname : name ∈ calls.names) :
    name ∉ marked calls own ↔ Sound calls own name := by
  constructor
  · intro hno
    have all : ∀ x, ReflTransGen calls.Calls name x → x ∈ calls.names ∧ x ∉ marked calls own := by
      intro x hx
      rcases reflTransGen_iff_eq_or_transGen.1 hx with rfl | hx
      · exact ⟨hname, hno⟩
      · obtain ⟨l, r, heq⟩ := mem_finished hc hplain hname
        obtain ⟨y, -, hy⟩ := TransGen.tail'_iff.1 hx
        exact ⟨hc y x hy, (unbroken_trans hc hplain heq hno hx).2⟩
    intro x hx
    obtain ⟨hxin, hxno⟩ := all x hx
    refine ⟨fun hown => hxno (subset_foldl_spreadBroken (List.mem_append_left _ hown)), fun hcyc => ?_⟩
    -- a scene on a cycle would be finished before itself
    obtain ⟨l, r, heq⟩ := mem_finished hc hplain hxin
    have distinct : (l ++ x :: r).Nodup := heq ▸ nodup_finished_walk hc
    have early := (unbroken_trans hc hplain heq hxno hcyc).1
    exact (List.nodup_append.1 distinct).2.2 x early x List.mem_cons_self rfl
  · intro hsound hbroken
    obtain ⟨y, hy, -, hreach⟩ := exists_of_mem_foldl_spreadBroken hbroken
    obtain ⟨hown, hcyc⟩ := hsound y hreach
    rcases List.mem_append.1 hy with hy | hy
    · exact hown hy
    · obtain ⟨cycle, hcycle, hin⟩ := List.mem_flatMap.1 hy
      exact hcyc (((walk_explored hc hplain).1.cyclic cycle hcycle).2 y hin)

theorem callees_first (hc : calls.Declared) (hplain : calls.Plain) {entry : String}
    (hentry : entry ∈ calls.names) (hno : entry ∉ marked calls own)
    (heq : calls.walk.finished.filter (calls.reachable entry).contains = l ++ name :: r)
    {callee : String} (hcall : calls.Calls name callee) : callee ∈ l := by
  obtain ⟨l₁, rest, hfin, hl, hrest⟩ := List.filter_eq_append_iff.1 heq
  obtain ⟨skipped, r₁, rfl, hskip, hreached, -⟩ := List.filter_eq_cons_iff.1 hrest
  have hreached := (mem_reachable_iff hc hentry).1 (by simpa using hreached)
  have hname : name ∉ marked calls own := by
    rcases reflTransGen_iff_eq_or_transGen.1 hreached with rfl | hreached
    · exact hno
    · obtain ⟨l, r, heq⟩ := mem_finished hc hplain hentry
      exact (unbroken_trans hc hplain heq hno hreached).2
  rw [← List.append_assoc] at hfin
  have early := (unbroken_trans hc hplain hfin hname (.single hcall)).1
  have hin : (calls.reachable entry).contains callee = true := by
    rw [List.contains_iff_mem, mem_reachable_iff hc hentry]
    exact hreached.tail hcall
  rcases List.mem_append.1 early with early | early
  · rw [← hl]
    exact List.mem_filter.2 ⟨early, hin⟩
  · exact absurd hin (hskip callee early)

end Walked

end StoryFlow.Program
