import StoryFlow.Proofs.Assignment.Worklist

/-! How facts fall. They are kept within the declared variables, so they can fall only so often, and what
they do not promise can be traced to other facts that do not promise it either. -/

namespace StoryFlow

variable {table : SymbolTable} {x : String}

namespace Facts

/-- Whatever the facts do not promise, and whatever they admit, one of the others shows. -/
structure Witnessed (others : Facts → Prop) (f : Facts) : Prop where
  definite : ∀ x, x ∉ f.definite → ∃ h, others h ∧ x ∉ h.definite
  possible : ∀ x ∈ f.possible, ∃ h, others h ∧ x ∈ h.possible
  locked : ∀ x ∈ f.locked, ∃ h, others h ∧ x ∈ h.locked
  segment : ∀ x, x ∉ f.segment → ∃ h, others h ∧ x ∉ h.segment

theorem Witnessed.mono {p q : Facts → Prop} {f : Facts} (h : Witnessed p f)
    (hpq : ∀ a, p a → q a) : Witnessed q f := by
  refine ⟨fun x hx => ?_, fun x hx => ?_, fun x hx => ?_, fun x hx => ?_⟩
  · obtain ⟨a, ha, hxa⟩ := h.definite x hx; exact ⟨a, hpq a ha, hxa⟩
  · obtain ⟨a, ha, hxa⟩ := h.possible x hx; exact ⟨a, hpq a ha, hxa⟩
  · obtain ⟨a, ha, hxa⟩ := h.locked x hx; exact ⟨a, hpq a ha, hxa⟩
  · obtain ⟨a, ha, hxa⟩ := h.segment x hx; exact ⟨a, hpq a ha, hxa⟩

theorem Witnessed.afterStmt {others : Facts → Prop} {f : Facts} (h : Witnessed others f)
    (hne : ∃ a, others a) (s : Option Stmt) :
    Witnessed (fun a => ∃ b, others b ∧ a = b.afterStmt table s) (f.afterStmt table s) := by
  cases s with
  | none =>
    exact h.mono fun a ha => ⟨a, ha, rfl⟩
  | some s =>
    have hf := follows_afterStmt table f s
    have ho := fun b => follows_afterStmt table b s
    obtain ⟨b, hb⟩ := hne
    refine ⟨fun x hx => ?_, fun x hx => ?_, fun x hx => ?_, fun x hx => ?_⟩
    · rw [hf.definite, not_or] at hx
      obtain ⟨a, ha, hxa⟩ := h.definite x hx.1
      exact ⟨_, ⟨a, ha, rfl⟩, fun hin => (((ho a).definite x).1 hin).elim hxa hx.2⟩
    · rcases (hf.possible x).1 hx with hx | hx
      · obtain ⟨a, ha, hxa⟩ := h.possible x hx
        exact ⟨_, ⟨a, ha, rfl⟩, ((ho a).possible x).2 (Or.inl hxa)⟩
      · exact ⟨_, ⟨b, hb, rfl⟩, ((ho b).possible x).2 (Or.inr hx)⟩
    · rcases (hf.locked x).1 hx with hx | ⟨hc, hx⟩
      · obtain ⟨a, ha, hxa⟩ := h.locked x hx
        exact ⟨_, ⟨a, ha, rfl⟩, ((ho a).locked x).2 (Or.inl hxa)⟩
      · obtain ⟨a, ha, hxa⟩ := h.possible x hx
        exact ⟨_, ⟨a, ha, rfl⟩, ((ho a).locked x).2 (Or.inr ⟨hc, hxa⟩)⟩
    · rw [hf.segment, not_or] at hx
      by_cases hc : s.IsCheckpoint
      · refine ⟨_, ⟨b, hb, rfl⟩, fun hin => ?_⟩
        exact (((ho b).segment x).1 hin).elim (fun hk => hk.1 hc) hx.2
      · obtain ⟨a, ha, hxa⟩ := h.segment x fun hin => hx.1 ⟨hc, hin⟩
        refine ⟨_, ⟨a, ha, rfl⟩, fun hin => ?_⟩
        exact (((ho a).segment x).1 hin).elim (fun hk => hxa hk.2) hx.2

theorem Joins.witnessed {p : Prop} {sources others : Facts → Prop} {f : Facts}
    (h : Joins p sources f) (hs : p ∨ ∃ a, sources a) (hp : p → others {})
    (ha : ∀ a, sources a → Witnessed others a) : Witnessed others f := by
  -- what a join does not promise fails at the start or at one of the sources
  have fails : ∀ q : Facts → Prop, ¬(¬p ∧ (∃ a, sources a) ∧ ∀ a, sources a → q a) →
      p ∨ ∃ a, sources a ∧ ¬q a := by
    intro q hq
    by_cases hp : p
    · exact Or.inl hp
    · by_contra hno
      rw [not_or, not_exists] at hno
      refine hq ⟨hp, hs.resolve_left hp, fun a ha => ?_⟩
      by_contra hqa
      exact hno.2 a ⟨ha, hqa⟩
  refine ⟨fun x hx => ?_, fun x hx => ?_, fun x hx => ?_, fun x hx => ?_⟩
  · rw [h.definite] at hx
    rcases fails _ hx with hstart | ⟨a, hsa, hxa⟩
    · exact ⟨{}, hp hstart, List.not_mem_nil⟩
    · exact (ha a hsa).definite x hxa
  · obtain ⟨a, hsa, hxa⟩ := (h.possible x).1 hx
    exact (ha a hsa).possible x hxa
  · obtain ⟨a, hsa, hxa⟩ := (h.locked x).1 hx
    exact (ha a hsa).locked x hxa
  · rw [h.segment] at hx
    rcases fails _ hx with hstart | ⟨a, hsa, hxa⟩
    · exact ⟨{}, hp hstart, List.not_mem_nil⟩
    · exact (ha a hsa).segment x hxa

section Height

structure Within (names : List String) (f : Facts) : Prop where
  definite : f.definite ⊆ names
  possible : f.possible ⊆ names
  locked : f.locked ⊆ names
  segment : f.segment ⊆ names

def height (names : List String) (f : Facts) : Nat :=
  names.countP (· ∈ f.definite) + names.countP (· ∉ f.possible) + names.countP (· ∉ f.locked) +
    names.countP (· ∈ f.segment)

theorem height_le (names : List String) (f : Facts) : f.height names ≤ 4 * names.length := by
  have hd := List.countP_le_length (p := fun x => decide (x ∈ f.definite)) (l := names)
  have hp := List.countP_le_length (p := fun x => decide (x ∉ f.possible)) (l := names)
  have hl := List.countP_le_length (p := fun x => decide (x ∉ f.locked)) (l := names)
  have hs := List.countP_le_length (p := fun x => decide (x ∈ f.segment)) (l := names)
  rw [height]
  omega

theorem Below.height_lt {names : List String} {f g : Facts} (h : f.Below g) (hf : Within names f)
    (hg : Within names g) (hs : f.same g = false) : f.height names < g.height names := by
  have hd : ∀ x ∈ names, decide (x ∈ f.definite) = true → decide (x ∈ g.definite) = true :=
    fun x _ hx => by simpa using h.definite (by simpa using hx)
  have hp : ∀ x ∈ names, decide (x ∉ f.possible) = true → decide (x ∉ g.possible) = true :=
    fun x _ hx => by simpa using fun hin => (by simpa using hx : x ∉ f.possible) (h.possible hin)
  have hl : ∀ x ∈ names, decide (x ∉ f.locked) = true → decide (x ∉ g.locked) = true :=
    fun x _ hx => by simpa using fun hin => (by simpa using hx : x ∉ f.locked) (h.locked hin)
  have hk : ∀ x ∈ names, decide (x ∈ f.segment) = true → decide (x ∈ g.segment) = true :=
    fun x _ hx => by simpa using h.segment (by simpa using hx)
  have hd' := List.countP_mono_left hd
  have hp' := List.countP_mono_left hp
  have hl' := List.countP_mono_left hl
  have hk' := List.countP_mono_left hk
  have strict : names.countP (· ∈ f.definite) < names.countP (· ∈ g.definite) ∨
      names.countP (· ∉ f.possible) < names.countP (· ∉ g.possible) ∨
      names.countP (· ∉ f.locked) < names.countP (· ∉ g.locked) ∨
      names.countP (· ∈ f.segment) < names.countP (· ∈ g.segment) := by
    by_contra hno
    simp only [not_or] at hno
    obtain ⟨nd, np, nl, nk⟩ := hno
    have back : g.Below f := by
      refine ⟨fun x hx => ?_, fun x hx => ?_, fun x hx => ?_, fun x hx => ?_⟩
      · by_contra hxf
        exact nd (countP_lt hd (hg.definite hx) (by simpa using hx) (by simpa using hxf))
      · by_contra hxg
        exact np (countP_lt hp (hf.possible hx) (by simpa using hxg) (by simpa using hx))
      · by_contra hxg
        exact nl (countP_lt hl (hf.locked hx) (by simpa using hxg) (by simpa using hx))
      · by_contra hxf
        exact nk (countP_lt hk (hg.segment hx) (by simpa using hx) (by simpa using hxf))
    rw [same_iff.2 ⟨h, back⟩] at hs
    cases hs
  rw [height, height]
  omega

end Height

section Names

theorem mem_variableNames_of_outcome (h : (table.outcome? x).isSome = true) :
    x ∈ table.variableNames := by
  obtain ⟨o, ho⟩ := Option.isSome_iff_exists.1 h
  have hx : o.name = x := by simpa using List.find?_some ho
  rw [SymbolTable.variableNames, Names.mem_sorted, List.mem_append]
  exact Or.inl (List.mem_map.2 ⟨o, List.mem_of_find?_eq_some ho, hx⟩)

theorem mem_variableNames_of_spectrum (h : (table.spectrum? x).isSome = true) :
    x ∈ table.variableNames := by
  obtain ⟨o, ho⟩ := Option.isSome_iff_exists.1 h
  have hx : o.name = x := by simpa using List.find?_some ho
  rw [SymbolTable.variableNames, Names.mem_sorted, List.mem_append]
  exact Or.inr (List.mem_map.2 ⟨o, List.mem_of_find?_eq_some ho, hx⟩)

theorem mem_variableNames_of_declared (h : (table.declared? x).isSome = true) :
    x ∈ table.variableNames := by
  unfold SymbolTable.declared? at h
  split at h <;> rename_i ho
  · exact mem_variableNames_of_outcome (by rw [ho]; rfl)
  · exact mem_variableNames_of_spectrum (by simpa using h)

theorem mem_variableNames_of_sets {s : Stmt} (h : s.Sets table x) : x ∈ table.variableNames := by
  unfold Stmt.Sets at h
  split at h
  · exact h.1 ▸ mem_variableNames_of_outcome h.2
  · exact h.1 ▸ mem_variableNames_of_spectrum h.2
  · cases h

theorem mem_variableNames_of_consults {s : Stmt} (h : s.Consults table x) :
    x ∈ table.variableNames := by
  unfold Stmt.Consults at h
  split at h
  · exact h.1 ▸ mem_variableNames_of_declared h.2
  · cases h

theorem Within.afterStmt {f : Facts} (h : Within table.variableNames f) (s : Option Stmt) :
    Within table.variableNames (f.afterStmt table s) := by
  cases s with
  | none => exact h
  | some s =>
    have hf := follows_afterStmt table f s
    refine ⟨fun x hx => ?_, fun x hx => ?_, fun x hx => ?_, fun x hx => ?_⟩
    · exact ((hf.definite x).1 hx).elim (fun hd => h.definite hd) mem_variableNames_of_sets
    · exact ((hf.possible x).1 hx).elim (fun hp => h.possible hp) mem_variableNames_of_sets
    · exact ((hf.locked x).1 hx).elim (fun hl => h.locked hl) fun hk => h.possible hk.2
    · rcases (hf.segment x).1 hx with hk | hk | hk
      · exact h.segment hk.2
      · exact mem_variableNames_of_sets hk
      · exact mem_variableNames_of_consults hk

theorem Joins.within {p : Prop} {sources : Facts → Prop} {names : List String} {f : Facts}
    (h : Joins p sources f) (ha : ∀ a, sources a → Within names a) : Within names f := by
  refine ⟨fun x hx => ?_, fun x hx => ?_, fun x hx => ?_, fun x hx => ?_⟩
  · obtain ⟨-, ⟨a, hsa⟩, hall⟩ := (h.definite x).1 hx
    exact (ha a hsa).definite (hall a hsa)
  · obtain ⟨a, hsa, hxa⟩ := (h.possible x).1 hx
    exact (ha a hsa).possible hxa
  · obtain ⟨a, hsa, hxa⟩ := (h.locked x).1 hx
    exact (ha a hsa).locked hxa
  · obtain ⟨-, ⟨a, hsa⟩, hall⟩ := (h.segment x).1 hx
    exact (ha a hsa).segment (hall a hsa)

end Names

end Facts

end StoryFlow
