import StoryFlow.Proofs.Scene.Coverage
import StoryFlow.Proofs.Scene.Layout
import StoryFlow.Proofs.Scene.Openings

/-! The edges of menus and branches, option by option. The edges of such a vertex are those into the first option,
then those into the second one, and so on, and no option is without an edge. A body that does not begin with
an if is entered by one edge. A body that does begin with one has an edge for each place where it can begin, so
that there can be more edges than options. -/

namespace StoryFlow

open StoryFlow.Flow
open StoryFlow.Flow.Graph

variable {table : SymbolTable} {scene : String} {n : Nat} {next : List Edge} {p : Standing} {x : Stmt}
  {body : List Stmt}

section Existence

theorem addStart_ne_nil (start : List Edge) (e : Edge) : addStart start e ≠ [] := by
  unfold addStart
  split <;> rename_i h
  · rintro rfl
    simp [Edge.anyTo] at h
  · simp

theorem foldl_addStart_ne_nil {es start : List Edge} (h : es ≠ []) : es.foldl addStart start ≠ [] := by
  rcases List.eq_nil_or_concat es with rfl | ⟨es, e, rfl⟩
  · exact absurd rfl h
  · rw [List.concat_eq_append, List.foldl_append]
    exact addStart_ne_nil _ _

theorem redirect_ne_nil {es ds : List Edge} (he : es ≠ []) (hd : ds ≠ []) :
    Edge.redirect es sink ds ≠ [] := by
  obtain ⟨e, rest, rfl⟩ := List.exists_cons_of_ne_nil he
  rw [Edge.redirect_cons]
  intro h
  obtain ⟨h, -⟩ := List.append_eq_nil_iff.1 h
  split at h
  · exact hd (List.map_eq_nil_iff.1 h)
  · cases h

theorem bodyStart_ne_nil_of (hb : ∀ x ∈ body, ∀ n, x.start n ≠ []) : bodyStart n body ≠ [] := by
  induction body generalizing n with
  | nil => exact List.cons_ne_nil _ _
  | cons x rest ih =>
    obtain ⟨hx, hrest⟩ := List.forall_mem_cons.1 hb
    exact redirect_ne_nil (hx n) (ih hrest)

theorem start_ne_nil : ∀ (x : Stmt) (n : Nat), x.start n ≠ [] := by
  refine Hereditary.stmt ⟨fun _ _ n => ?_, fun _ _ _ _ _ n => ?_, fun _ _ _ _ n => ?_,
    fun _ _ _ _ _ he n => ?_⟩
  · exact List.cons_ne_nil _ _
  · exact List.cons_ne_nil _ _
  · exact List.cons_ne_nil _ _
  · refine foldl_addStart_ne_nil fun h => ?_
    exact bodyStart_ne_nil_of he (List.append_eq_nil_iff.1 h).2

theorem entries_ne_nil (h : next ≠ []) (body : List Stmt) : entries n next body ≠ [] :=
  redirect_ne_nil (bodyStart_ne_nil_of fun x _ => start_ne_nil x) h

end Existence

section First

theorem entries_nil : entries n next [] = next := Edge.redirect_single _ _

theorem Stmt.IsStep.start (h : x.IsStep) : x.start n = [⟨n, false⟩] := by
  cases x with
  | ifElse => cases h
  | plain | menu | branchOn => rw [Stmt.start]

theorem entries_step {rest : List Stmt} (h : x.IsStep) : entries n next (x :: rest) = [⟨n, false⟩] := by
  rw [entries, bodyStart, h.start, redirect_number, redirect_number]

theorem Stmt.IsStep.stands (h : x.IsStep) : ⟨n, next, x⟩ ∈ x.standings table n next := by
  cases x with
  | ifElse => cases h
  | plain => exact Set.mem_singleton _
  | menu | branchOn => exact Set.mem_insert _ _

end First

section Inside

theorem exists_of_mem_bodyStandings (hp : p ∈ bodyStandings table n next body) :
    ∃ x ∈ body, ∃ m f, p ∈ x.standings table m f ∧
      x.standings table m f ⊆ bodyStandings table n next body ∧ (next ≠ [] → f ≠ []) := by
  induction body generalizing n with
  | nil => cases hp
  | cons x rest ih =>
    rw [bodyStandings] at hp ⊢
    rcases hp with hp | hp
    · exact ⟨x, List.mem_cons_self, _, _, hp, Set.subset_union_left, fun h => entries_ne_nil h rest⟩
    · obtain ⟨y, hy, m, f, hp, hsub, hf⟩ := ih hp
      exact ⟨y, List.mem_cons_of_mem _ hy, m, f, hp, hsub.trans Set.subset_union_right, hf⟩

theorem onward_ne_nil {kind : MenuKind} {prompt : Nat} {loop : Bool} (h : next ≠ []) :
    onward kind prompt loop next ≠ [] := by
  unfold onward
  split
  · exact List.cons_ne_nil _ _
  · exact h

theorem exists_of_mem_optionStandings {kind : MenuKind} {prompt : Nat} {options : List MenuOption}
    (hp : p ∈ optionStandings table kind prompt n next options) :
    ∃ o ∈ options, ∃ m f, p ∈ bodyStandings table m f o.body ∧
      bodyStandings table m f o.body ⊆ optionStandings table kind prompt n next options ∧
      (next ≠ [] → f ≠ []) := by
  induction options generalizing n with
  | nil => cases hp
  | cons o rest ih =>
    obtain ⟨area, label, loop, body⟩ := o
    rw [optionStandings] at hp ⊢
    rcases hp with hp | hp
    · exact ⟨_, List.mem_cons_self, _, _, hp, Set.subset_union_left, onward_ne_nil⟩
    · obtain ⟨o, ho, m, f, hp, hsub, hf⟩ := ih hp
      exact ⟨o, List.mem_cons_of_mem _ ho, m, f, hp, hsub.trans Set.subset_union_right, hf⟩

theorem exists_of_mem_caseStandings {entered : BranchCase → Prop} {cases : List BranchCase}
    (hp : p ∈ caseStandings table entered n next cases) :
    ∃ c ∈ cases, ∃ m, p ∈ bodyStandings table m next c.body ∧
      bodyStandings table m next c.body ⊆ caseStandings table entered n next cases := by
  induction cases generalizing n with
  | nil => cases hp
  | cons c rest ih =>
    obtain ⟨area, options, other, body⟩ := c
    rw [caseStandings] at hp ⊢
    rcases hp with ⟨hp, he⟩ | hp
    · exact ⟨_, List.mem_cons_self, n, hp, fun q hq => Or.inl ⟨hq, he⟩⟩
    · obtain ⟨c, hc, m, hp, hsub⟩ := ih hp
      exact ⟨c, List.mem_cons_of_mem _ hc, m, hp, hsub.trans Set.subset_union_right⟩

theorem exists_of_mem_branchStandings {branches : List IfBranch}
    (hp : p ∈ branchStandings table n next branches) :
    ∃ b ∈ branches, ∃ m, p ∈ bodyStandings table m next b.body ∧
      bodyStandings table m next b.body ⊆ branchStandings table n next branches := by
  induction branches generalizing n with
  | nil => cases hp
  | cons b rest ih =>
    obtain ⟨condition, body⟩ := b
    rw [branchStandings] at hp ⊢
    rcases hp with hp | hp
    · exact ⟨_, List.mem_cons_self, n, hp, Set.subset_union_left⟩
    · obtain ⟨b, hb, m, hp, hsub⟩ := ih hp
      exact ⟨b, List.mem_cons_of_mem _ hb, m, hp, hsub.trans Set.subset_union_right⟩

/-- What stands in a statement is one of its nodes, has somewhere to go on to, and brings along all that stands
in it. -/
def Encloses (table : SymbolTable) (x : Stmt) : Prop :=
  ∀ n next, ∀ p ∈ x.standings table n next, .stmt p.stmt ∈ x.nodes ∧ (next ≠ [] → p.next ≠ []) ∧
    p.stmt.standings table p.number p.next ⊆ x.standings table n next

theorem nodes_subset_bodyNodes : ∀ x ∈ body, x.nodes ⊆ bodyNodes body := by
  induction body with
  | nil => simp
  | cons x rest ih =>
    rw [bodyNodes]
    exact List.forall_mem_cons.2 ⟨List.subset_append_left _ _, fun y hy =>
      List.Subset.trans (ih y hy) (List.subset_append_right _ _)⟩

theorem body_encloses (hb : ∀ x ∈ body, Encloses table x) (hp : p ∈ bodyStandings table n next body) :
    .stmt p.stmt ∈ bodyNodes body ∧ (next ≠ [] → p.next ≠ []) ∧
      p.stmt.standings table p.number p.next ⊆ bodyStandings table n next body := by
  obtain ⟨x, hx, m, f, hp, hsub, hf⟩ := exists_of_mem_bodyStandings hp
  obtain ⟨node, goes, inside⟩ := hb x hx m f p hp
  exact ⟨nodes_subset_bodyNodes x hx node, fun h => goes (hf h), inside.trans hsub⟩

theorem encloses (table : SymbolTable) : ∀ x, Encloses table x := by
  refine Hereditary.stmt ⟨fun area action n next p hp => ?_, fun area kind prompt options hb n next p hp => ?_,
    fun area name cases hb n next p hp => ?_, fun area branches hasElse elseBody hb he n next p hp => ?_⟩
  · obtain rfl := Set.mem_singleton_iff.1 hp
    exact ⟨List.mem_singleton_self _, id, Set.Subset.refl _⟩
  · rw [Stmt.standings] at hp
    rcases hp with rfl | hp
    · exact ⟨List.mem_append_right _ (List.mem_singleton_self _), id, Set.Subset.refl _⟩
    · obtain ⟨o, ho, m, f, hp, hsub, hf⟩ := exists_of_mem_optionStandings hp
      obtain ⟨node, goes, inside⟩ := body_encloses (hb o ho) hp
      refine ⟨?_, fun h => goes (hf h), (inside.trans hsub).trans (Set.subset_insert _ _)⟩
      exact List.mem_append_left _ (bodyNodes_subset_optionNodes o ho node)
  · rw [Stmt.standings] at hp
    rcases hp with rfl | hp
    · exact ⟨List.mem_append_right _ (List.mem_singleton_self _), id, Set.Subset.refl _⟩
    · obtain ⟨c, hc, m, hp, hsub⟩ := exists_of_mem_caseStandings hp
      obtain ⟨node, goes, inside⟩ := body_encloses (hb c hc) hp
      refine ⟨?_, goes, (inside.trans hsub).trans (Set.subset_insert _ _)⟩
      exact List.mem_append_left _ (bodyNodes_subset_caseNodes c hc node)
  · rw [Stmt.standings] at hp
    rw [Stmt.nodes]
    rcases hp with hp | hp
    · obtain ⟨b, hbm, m, hp, hsub⟩ := exists_of_mem_branchStandings hp
      obtain ⟨node, goes, inside⟩ := body_encloses (hb b hbm) hp
      refine ⟨?_, goes, (inside.trans hsub).trans Set.subset_union_left⟩
      exact List.mem_append_left _ (List.mem_append_left _ (bodyNodes_subset_branchNodes b hbm node))
    · obtain ⟨node, goes, inside⟩ := body_encloses he hp
      refine ⟨?_, goes, inside.trans Set.subset_union_right⟩
      exact List.mem_append_left _ (List.mem_append_right _ node)

end Inside

section Leading

/-- The edges by which the statement is entered lead to what control comes first to, or past the statement if
nothing of it has to be carried out. -/
def Admits (table : SymbolTable) (x : Stmt) : Prop :=
  ∀ n next, ∀ e ∈ x.start n, (e = Edge.toSink ∧ [] ∈ x.executions table) ∨
    ∃ (m : Nat) (f : List Edge) (t : Stmt), e = ⟨m, false⟩ ∧ ⟨m, f, t⟩ ∈ x.standings table n next ∧
      Begins table [x] [] t

theorem body_admits (hb : ∀ x ∈ body, Admits table x) : ∀ e ∈ bodyStart n body,
    (e = Edge.toSink ∧ [] ∈ bodyExecutions table body) ∨
      ∃ (m : Nat) (f : List Edge) (t : Stmt), e = ⟨m, false⟩ ∧ ⟨m, f, t⟩ ∈ bodyStandings table n next body ∧
        Begins table body [] t := by
  induction body generalizing n with
  | nil =>
    intro e he
    exact Or.inl ⟨List.mem_singleton.1 he, rfl⟩
  | cons x rest ih =>
    obtain ⟨hx, hrest⟩ := List.forall_mem_cons.1 hb
    intro e he
    rw [bodyStart] at he
    obtain ⟨d, hd, he⟩ := List.mem_flatMap.1 he
    rw [bodyStandings]
    rcases hx n _ d hd with ⟨rfl, empty⟩ | ⟨m, f, t, rfl, hm, ht⟩
    · -- past the first statement control enters the rest
      have he : e ∈ bodyStart (n + x.occurrences.length) rest := by simpa [Edge.toSink] using he
      rcases ih hrest e he with ⟨rfl, empty'⟩ | ⟨m, f, t, rfl, hm, ht⟩
      · exact Or.inl ⟨rfl, nil_mem_mul_iff.2 ⟨empty, empty'⟩⟩
      · exact Or.inr ⟨m, f, t, rfl, Or.inr hm, begins_cons_iff.2 (Or.inr ⟨empty, ht⟩)⟩
    · rw [if_neg (natCast_ne_sink m)] at he
      exact Or.inr ⟨m, f, t, List.mem_singleton.1 he, Or.inl hm, begins_cons_iff.2 (Or.inl ht)⟩

theorem branches_admit {branches : List IfBranch} (hb : ∀ b ∈ branches, ∀ x ∈ b.body, Admits table x) :
    ∀ e ∈ branchStarts n branches,
      (e = Edge.toSink ∧ [] ∈ branchExecutions table branches) ∨
        ∃ (m : Nat) (f : List Edge) (t : Stmt), e = ⟨m, false⟩ ∧
          ⟨m, f, t⟩ ∈ branchStandings table n next branches ∧ ∃ b ∈ branches, Begins table b.body [] t := by
  induction branches generalizing n with
  | nil => simp [branchStarts]
  | cons b rest ih =>
    obtain ⟨condition, body⟩ := b
    obtain ⟨hbody, hrest⟩ := List.forall_mem_cons.1 hb
    intro e he
    rw [branchStarts] at he
    rw [branchStandings]
    rcases List.mem_append.1 he with he | he
    · rcases body_admits hbody e he with ⟨rfl, empty⟩ | ⟨m, f, t, rfl, hm, ht⟩
      · exact Or.inl ⟨rfl, Or.inl empty⟩
      · exact Or.inr ⟨m, f, t, rfl, Or.inl hm, _, List.mem_cons_self, ht⟩
    · rcases ih hrest e he with ⟨rfl, empty⟩ | ⟨m, f, t, rfl, hm, b, hbm, ht⟩
      · exact Or.inl ⟨rfl, Or.inr empty⟩
      · exact Or.inr ⟨m, f, t, rfl, Or.inr hm, b, List.mem_cons_of_mem _ hbm, ht⟩

theorem admits (table : SymbolTable) : ∀ x, Admits table x := by
  have step : ∀ x : Stmt, x.IsStep → Admits table x := by
    intro x hx n next e he
    rw [hx.start, List.mem_singleton] at he
    exact Or.inr ⟨n, next, x, he, hx.stands, (begins_step_iff hx).2 rfl⟩
  refine Hereditary.stmt ⟨fun _ _ => step _ trivial, fun _ _ _ _ _ => step _ trivial,
    fun _ _ _ _ => step _ trivial, fun area branches hasElse elseBody hb he n next e hm => ?_⟩
  rw [Stmt.start] at hm
  rw [Stmt.executions, Stmt.standings]
  rcases List.mem_append.1 ((mem_foldl_addStart hm).resolve_left List.not_mem_nil) with hm | hm
  · rcases branches_admit hb e hm with ⟨rfl, empty⟩ | ⟨m, f, t, rfl, hm, b, hbm, ht⟩
    · exact Or.inl ⟨rfl, Or.inl empty⟩
    · exact Or.inr ⟨m, f, t, rfl, Or.inl hm, .branch hbm ht⟩
  · rcases body_admits he e hm with ⟨rfl, empty⟩ | ⟨m, f, t, rfl, hm, ht⟩
    · exact Or.inl ⟨rfl, Or.inr empty⟩
    · exact Or.inr ⟨m, f, t, rfl, Or.inr hm, .otherwise ht⟩

end Leading

section Groups

variable {es : List Edge} {groups : List (List Edge)} {k i : Nat} {P : Set Standing}

/-- The edges come in groups, one for each option and none of them empty. So there are as many edges as options
only if every group is a single edge. -/
structure ByOption (es : List Edge) (groups : List (List Edge)) (k : Nat) : Prop where
  edges : es = groups.flatten
  count : groups.length = k
  nonempty : ∀ ds ∈ groups, ds ≠ []
  single : es.length = k ↔ ∀ ds ∈ groups, ds.length = 1

theorem length_flatten_eq_iff (h : ∀ ds ∈ groups, ds ≠ []) : groups.length ≤ groups.flatten.length ∧
    (groups.flatten.length = groups.length ↔ ∀ ds ∈ groups, ds.length = 1) := by
  induction groups with
  | nil => simp
  | cons ds rest ih =>
    obtain ⟨hds, hrest⟩ := List.forall_mem_cons.1 h
    obtain ⟨le, iff⟩ := ih hrest
    have pos := List.length_pos_iff.2 hds
    rw [List.flatten_cons, List.length_append, List.length_cons, List.forall_mem_cons, ← iff]
    omega

theorem byOption_flatten (h : ∀ ds ∈ groups, ds ≠ []) (hk : groups.length = k) :
    ByOption groups.flatten groups k :=
  ⟨rfl, hk, h, hk ▸ (length_flatten_eq_iff h).2⟩

/-- The edges lead into a body that has the identities from `n` on: to its first statement if that is not an if,
on to what is next if there is no statement, and in any case to something that control comes first to. -/
structure Enters (table : SymbolTable) (P : Set Standing) (n : Nat) (next : List Edge) (body : List Stmt)
    (es : List Edge) : Prop where
  edges : es = entries n next body
  stands : bodyStandings table n next body ⊆ P
  empty : body = [] → es = next
  first : ∀ x rest, body = x :: rest → x.IsStep → es = [⟨n, false⟩] ∧ ∃ f, ⟨n, f, x⟩ ∈ P
  leads : ∀ e ∈ es, (e ∈ next ∧ [] ∈ bodyExecutions table body) ∨
    ∃ (m : Nat) (f : List Edge) (t : Stmt), e = ⟨m, false⟩ ∧ ⟨m, f, t⟩ ∈ P ∧ Begins table body [] t

theorem enters_entries (h : bodyStandings table n next body ⊆ P) :
    Enters table P n next body (entries n next body) := by
  refine ⟨rfl, h, ?_, ?_, fun e he => ?_⟩
  · rintro rfl
    exact entries_nil
  · rintro x rest rfl hx
    exact ⟨entries_step hx, _, h (Or.inl hx.stands)⟩
  · obtain ⟨d, hd, he⟩ := List.mem_flatMap.1 he
    rcases body_admits (fun x _ => admits table x) d hd with ⟨rfl, empty⟩ | ⟨m, f, t, rfl, hm, ht⟩
    · exact Or.inl ⟨by simpa [Edge.toSink] using he, empty⟩
    · rw [if_neg (natCast_ne_sink m)] at he
      exact Or.inr ⟨m, f, t, List.mem_singleton.1 he, h hm, ht⟩

variable {kind : MenuKind} {prompt : Nat} {options : List MenuOption} {o : MenuOption}
  {cases : List BranchCase} {c : BranchCase}

theorem optionEntries_ne_nil (h : next ≠ []) : ∀ ds ∈ optionEntries kind prompt n next options, ds ≠ [] := by
  induction options generalizing n with
  | nil => simp [optionEntries]
  | cons o rest ih => exact List.forall_mem_cons.2 ⟨entries_ne_nil (onward_ne_nil h) _, ih⟩

theorem length_optionEntries : (optionEntries kind prompt n next options).length = options.length := by
  induction options generalizing n with
  | nil => rfl
  | cons o rest ih => rw [optionEntries, List.length_cons, List.length_cons, ih]

theorem optionEntries_enter (h : optionStandings table kind prompt n next options ⊆ P)
    (ho : options[i]? = some o) : ∃ es, (optionEntries kind prompt n next options)[i]? = some es ∧
      Enters table P (n + (optionOccurrences (options.take i)).length) (onward kind prompt o.loop next)
        o.body es := by
  induction options generalizing n i with
  | nil => cases ho
  | cons o' rest ih =>
    obtain ⟨area, label, loop, body⟩ := o'
    rw [optionStandings, Set.union_subset_iff] at h
    cases i with
    | zero =>
      cases ho
      exact ⟨_, rfl, enters_entries h.1⟩
    | succ i =>
      obtain ⟨es, hes, henters⟩ := ih h.2 ho
      refine ⟨es, hes, ?_⟩
      rwa [List.take_succ_cons, optionOccurrences, List.length_append, ← Nat.add_assoc]

theorem length_caseEntries : (caseEntries n next cases).length = cases.length := by
  induction cases generalizing n with
  | nil => rfl
  | cons c rest ih => rw [caseEntries, List.length_cons, List.length_cons, ih]

theorem caseEntries_enter {entered : BranchCase → Prop} (h : caseStandings table entered n next cases ⊆ P)
    (hc : cases[i]? = some c) (he : entered c) : ∃ es, (caseEntries n next cases)[i]? = some es ∧
      Enters table P (n + (caseOccurrences (cases.take i)).length) next c.body es := by
  induction cases generalizing n i with
  | nil => cases hc
  | cons c' rest ih =>
    obtain ⟨area, options, other, body⟩ := c'
    rw [caseStandings, Set.union_subset_iff] at h
    cases i with
    | zero =>
      cases hc
      exact ⟨_, rfl, enters_entries fun p hp => h.1 ⟨hp, he⟩⟩
    | succ i =>
      obtain ⟨es, hes, henters⟩ := ih h.2 hc
      refine ⟨es, hes, ?_⟩
      rwa [List.take_succ_cons, caseOccurrences, List.length_append, ← Nat.add_assoc]

end Groups

namespace Scene

section Owners

variable {P : Set Standing} {name : String} {area : TextArea} {cases : List BranchCase} {option : String}

theorem filterMap_of_isSome {α β : Type} {f : α → Option β} {l : List α} (h : ∀ a ∈ l, (f a).isSome = true) :
    (l.filterMap f).length = l.length ∧ ∀ (i : Nat) a, l[i]? = some a → (l.filterMap f)[i]? = f a := by
  induction l with
  | nil => simp
  | cons a rest ih =>
    obtain ⟨ha, hrest⟩ := List.forall_mem_cons.1 h
    obtain ⟨b, hb⟩ := Option.isSome_iff_exists.1 ha
    obtain ⟨count, each⟩ := ih hrest
    rw [List.filterMap_cons_some hb]
    refine ⟨by rw [List.length_cons, List.length_cons, count], fun i c hi => ?_⟩
    cases i with
    | zero =>
      cases hi
      exact hb.symm
    | succ i => exact each i c hi

/-- Under the rules an option has an owner, and what is picked for it are the edges into the owner's body. -/
theorem owner?_enters {entered : BranchCase → Prop} (h : caseStandings table entered n next cases ⊆ P)
    (hn : cases.Pairwise fun c d => ¬(c.Names option ∧ d.Names option))
    (ho : cases.Pairwise fun c d => ¬(c.other = true ∧ d.other = true))
    (hown : ∃ c ∈ cases, BranchCase.Owns cases c option)
    (he : ∀ c, BranchCase.Owns cases c option → entered c) :
    ∃ (j : Nat) (c : BranchCase) (es : List Edge), cases[j]? = some c ∧ BranchCase.Owns cases c option ∧
      owner? (cases.zip (caseEntries n next cases)) option = some es ∧
      Enters table P (n + (caseOccurrences (cases.take j)).length) next c.body es := by
  obtain ⟨c, hc, hown⟩ := hown
  obtain ⟨j, hj⟩ := List.mem_iff_getElem?.1 hc
  obtain ⟨es, hes, henters⟩ := caseEntries_enter h hj (he c hown)
  have hz : (c, es) ∈ cases.zip (caseEntries n next cases) :=
    List.mem_iff_getElem?.2 ⟨j, List.getElem?_zip_eq_some.2 ⟨hj, hes⟩⟩
  exact ⟨j, c, es, hj, hown, (owner?_eq_some_iff length_caseEntries.symm hn ho).2 ⟨c, hz, hown⟩, henters⟩

theorem owner?_enters_of_lawful {declaration : Variable}
    (h : caseStandings table (BranchCase.Entered table name cases) n next cases ⊆ P)
    (hd : table.declared? name = some declaration)
    (hp : (Stmt.branchOn area name cases).problems table scene = [])
    (ho : option ∈ declaration.optionNames) :
    ∃ (j : Nat) (c : BranchCase) (es : List Edge), cases[j]? = some c ∧ BranchCase.Owns cases c option ∧
      owner? (cases.zip (caseEntries n next cases)) option = some es ∧
      Enters table P (n + (caseOccurrences (cases.take j)).length) next c.body es := by
  rw [Stmt.problems, branchProblems, hd] at hp
  simp only [List.append_eq_nil_iff] at hp
  obtain ⟨⟨hcases, -⟩, names, coverage⟩ := hp
  refine owner?_enters h (names_pairwise_of_nodup (nodup_of_optionNameProblems names).1 option)
    (other_pairwise_of_caseProblems hcases).1 (exists_owner (names_or_other_of_coverage coverage ho))
    fun c hown => ?_
  unfold BranchCase.Entered
  rw [hd]
  exact ⟨option, ho, hown⟩

theorem targets_enter {declaration : Variable} (h : caseStandings table (BranchCase.Entered table name cases)
      n next cases ⊆ P)
    (hd : table.declared? name = some declaration)
    (hp : (Stmt.branchOn area name cases).problems table scene = []) (hne : next ≠ []) :
    ByOption (targets table name cases (caseEntries n next cases)).flatten
        (targets table name cases (caseEntries n next cases)) declaration.optionNames.length ∧
      ∀ (i : Nat) option, declaration.optionNames[i]? = some option →
        ∃ (j : Nat) (c : BranchCase) (es : List Edge), cases[j]? = some c ∧
          BranchCase.Owns cases c option ∧ (targets table name cases (caseEntries n next cases))[i]? = some es ∧
          Enters table P (n + (caseOccurrences (cases.take j)).length) next c.body es := by
  have picked : targets table name cases (caseEntries n next cases) =
      declaration.optionNames.filterMap (owner? (cases.zip (caseEntries n next cases))) := by
    rw [targets, hd]
  rw [picked]
  obtain ⟨count, each⟩ := filterMap_of_isSome
    (f := owner? (cases.zip (caseEntries n next cases))) (l := declaration.optionNames) fun option ho => by
      obtain ⟨j, c, es, -, -, hes, -⟩ := owner?_enters_of_lawful h hd hp ho
      exact Option.isSome_iff_exists.2 ⟨es, hes⟩
  refine ⟨byOption_flatten (fun ds hds => ?_) count, fun i option hi => ?_⟩
  · obtain ⟨option, ho, hds⟩ := List.mem_filterMap.1 hds
    obtain ⟨j, c, es, -, -, hes, henters⟩ := owner?_enters_of_lawful h hd hp ho
    cases hes.symm.trans hds
    rw [henters.edges]
    exact entries_ne_nil hne _
  · obtain ⟨j, c, es, hj, hown, hes, henters⟩ := owner?_enters_of_lawful h hd hp (List.mem_of_getElem? hi)
    exact ⟨j, c, es, hj, hown, (each i option hi).trans hes, henters⟩

end Owners

variable {s : Scene} {supply : Supply} {built : Built} {g : Graph}

theorem standing_cases (h : p ∈ s.standings table n) :
    (∃ area action, p.stmt = .plain area action) ∨ p ∈ bodyStandings table n [Edge.toSink] s.body := by
  rw [standings] at h
  rcases h with h | h
  · exact Or.inr h
  · split at h
    · obtain rfl := Set.mem_singleton_iff.1 h
      exact Or.inl ⟨_, _, rfl⟩
    · cases h

/-- The graph of a scene that is built has the vertices of the statements that stand in the scene. The edges of
a menu lead into its options, and those of a branch on a declared variable into the cases that own its
options, in order. No option is without an edge, and an option has one edge to the first statement of its
body, or the edges on where it has no body, unless the body begins with an if. -/
theorem edges_by_option (h : s.build table supply = .ok built) (hg : built.graph = some g) :
    (∀ id x, g.node? id = some x ↔ ∃ p ∈ s.standings table supply.identities,
      (p.number : Int) = id ∧ p.node table s.name = x) ∧
    ∀ p ∈ s.standings table supply.identities,
      (∀ area kind prompt options, p.stmt = .menu area kind prompt options →
        ∃ groups, ByOption (p.edges table) groups options.length ∧
          ∀ (i : Nat) o, options[i]? = some o → ∃ es, groups[i]? = some es ∧
            Enters table (s.standings table supply.identities)
              (p.number + 1 + (optionOccurrences (options.take i)).length)
              (onward kind p.number o.loop p.next) o.body es) ∧
      ∀ area name cases declaration, p.stmt = .branchOn area name cases →
        table.declared? name = some declaration →
        ∃ groups, ByOption (p.edges table) groups declaration.optionNames.length ∧
          ∀ (i : Nat) option, declaration.optionNames[i]? = some option →
            ∃ (j : Nat) (c : BranchCase) (es : List Edge), cases[j]? = some c ∧
              BranchCase.Owns cases c option ∧ groups[i]? = some es ∧
              Enters table (s.standings table supply.identities)
                (p.number + 1 + (caseOccurrences (cases.take j)).length) p.next c.body es := by
  refine ⟨node?_of_build h hg, fun p hp => ?_⟩
  obtain ⟨number, next, stmt⟩ := p
  rcases standing_cases hp with ⟨area, action, hplain⟩ | hp
  · cases hplain
    constructor
    · rintro _ _ _ _ ⟨⟩
    · rintro _ _ _ _ ⟨⟩
  · obtain ⟨node, goes, inside⟩ := body_encloses (fun x _ => encloses table x) hp
    have onwards : next ≠ [] := goes (List.cons_ne_nil _ _)
    have stands : stmt.standings table number next ⊆ s.standings table supply.identities :=
      inside.trans Set.subset_union_left
    clear goes inside
    constructor
    · rintro area kind prompt options rfl
      rw [Stmt.standings] at stands
      refine ⟨optionEntries kind number (number + 1) next options,
        byOption_flatten (optionEntries_ne_nil onwards) length_optionEntries, fun i o ho => ?_⟩
      exact optionEntries_enter ((Set.subset_insert _ _).trans stands) ho
    · rintro area name cases declaration rfl hd
      rw [Stmt.standings] at stands
      exact ⟨_, targets_enter ((Set.subset_insert _ _).trans stands) hd (lawful_of_build h hg node) onwards⟩

/-- A loop option, an option without a body, and a case that begins with an if. -/
def waits : List MenuOption := [⟨{}, "look", true, [.plain {} (.output "waves")]⟩, ⟨{}, "go", false, []⟩]

def tides : List BranchCase := [
  ⟨{}, some ["calm"], false,
    [.ifElse {} [⟨"late", [.plain {} (.output "dusk")]⟩] true [.plain {} (.output "noon")]]⟩,
  ⟨{}, none, true, [.plain {} (.output "rain")]⟩]

def shore : Scene where
  area := {}
  name := "shore"
  chapter := false
  body := [.menu {} .loopSwitch "Wait?" waits, .branchOn {} "mood" tides]

theorem edges_by_option_shore : ∃ built g, shore.build moods {} = .ok built ∧ built.graph = some g ∧
    g.edgesOf 0 = [⟨1, false⟩, ⟨2, false⟩] ∧ g.edgesOf 2 = [⟨3, false⟩, ⟨4, false⟩, ⟨5, false⟩, ⟨5, false⟩] ∧
    (∃ groups, ByOption [⟨1, false⟩, ⟨2, false⟩] groups 2 ∧ groups[1]? = some [⟨2, false⟩]) ∧
    ∃ groups, ByOption [⟨3, false⟩, ⟨4, false⟩, ⟨5, false⟩, ⟨5, false⟩] groups 3 ∧
      groups[1]? = some [⟨5, false⟩] := by
  obtain ⟨built, g, hb, hg⟩ : ∃ built g, shore.build moods {} = .ok built ∧
      built.graph = some g := ⟨_, _, rfl, rfl⟩
  obtain ⟨nodes, each⟩ := edges_by_option hb hg
  have menu : ⟨0, [⟨2, false⟩], .menu {} .loopSwitch "Wait?" waits⟩ ∈ shore.standings moods 0 :=
    Or.inl (Or.inl (Set.mem_insert _ _))
  have branch : ⟨2, [Edge.toSink], .branchOn {} "mood" tides⟩ ∈ shore.standings moods 0 :=
    Or.inl (Or.inr (Or.inl (Set.mem_insert _ _)))
  refine ⟨built, g, hb, hg, edgesOf_of_node? ((nodes 0 _).2 ⟨_, menu, rfl, rfl⟩),
    edgesOf_of_node? ((nodes 2 _).2 ⟨_, branch, rfl, rfl⟩), ?_, ?_⟩
  · obtain ⟨groups, by_option, enter⟩ := (each _ menu).1 _ _ _ _ rfl
    obtain ⟨es, hes, henters⟩ := enter 1 _ rfl
    exact ⟨groups, by_option, hes.trans (congrArg some (henters.empty rfl))⟩
  · obtain ⟨groups, by_option, enter⟩ := (each _ branch).2 _ _ _ _ rfl rfl
    obtain ⟨j, c, es, hj, hown, hes, henters⟩ := enter 1 "grim" rfl
    refine ⟨groups, by_option, hes.trans (congrArg some ?_)⟩
    match j, hj with
    | 0, hj =>
      -- the first case names another option
      cases hj
      rcases hown with ⟨-, hnamed⟩ | ⟨hother, -⟩
      · simp [BranchCase.optionNames] at hnamed
      · cases hother
    | 1, hj =>
      cases hj
      exact (henters.first _ _ rfl trivial).1

/-- The first option of the branch has two edges. -/
theorem not_one_edge_by_option_shore :
    ¬∀ (table : SymbolTable) (s : Scene) (supply : Supply) (built : Built) (g : Graph),
      s.build table supply = .ok built → built.graph = some g →
      ∀ id v es area name cases declaration, g.node? id = some (v, es) →
        v.stmt = some (.branchOn area name cases) → table.declared? name = some declaration →
        es.length = declaration.optionNames.length := by
  intro h
  have four : 4 = 3 := h moods shore {} _ _ rfl rfl 2 _ _ {} "mood" tides _ rfl rfl rfl
  cases four

end Scene

end StoryFlow
