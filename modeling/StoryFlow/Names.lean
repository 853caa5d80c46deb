/-! Lists of names: repeats, differences and the order in which names are shown. -/

namespace StoryFlow.Names

def addNew (kept : List String) (name : String) : List String :=
  if kept.contains name then kept else kept ++ [name]

def distinct (names : List String) : List String := names.foldl addNew []

def without (dropped names : List String) : List String :=
  names.filter fun name => !dropped.contains name

/-- Names are shown by code point. -/
def sorted (names : List String) : List String :=
  names.mergeSort fun a b => !(b < a : Bool)

theorem mem_without {dropped names : List String} {name : String} :
    name ∈ without dropped names ↔ name ∈ names ∧ name ∉ dropped := by
  simp [without]

theorem mem_sorted {names : List String} {name : String} :
    name ∈ sorted names ↔ name ∈ names := by
  simp [sorted]

theorem mem_addNew {kept : List String} {name x : String} :
    x ∈ addNew kept name ↔ x ∈ kept ∨ x = name := by
  unfold addNew
  split <;> rename_i h
  · simp only [List.contains_eq_mem, decide_eq_true_eq] at h
    grind
  · simp

theorem mem_distinct {names : List String} {x : String} : x ∈ distinct names ↔ x ∈ names := by
  have go : ∀ (names kept : List String), x ∈ names.foldl addNew kept ↔ x ∈ kept ∨ x ∈ names := by
    intro names
    induction names with
    | nil => simp
    | cons name rest ih => intro kept; simp only [List.foldl_cons, ih, mem_addNew]; grind
  simpa [distinct] using go names []

theorem length_foldl_addNew_le (names kept : List String) :
    (names.foldl addNew kept).length ≤ kept.length + names.length := by
  induction names generalizing kept with
  | nil => simp
  | cons name rest ih =>
    have new : (addNew kept name).length ≤ kept.length + 1 := by
      unfold addNew
      split <;> simp
    have others := ih (addNew kept name)
    rw [List.foldl_cons, List.length_cons]
    omega

theorem nodup_of_length_distinct {names : List String}
    (h : (distinct names).length = names.length) : names.Nodup := by
  have go : ∀ (names kept : List String), kept.Nodup →
      (names.foldl addNew kept).length = kept.length + names.length → (kept ++ names).Nodup := by
    intro names
    induction names with
    | nil => simp
    | cons name rest ih =>
      intro kept hkept hlength
      rw [List.foldl_cons, List.length_cons] at hlength
      by_cases hname : name ∈ kept
      · have known : addNew kept name = kept := by simp [addNew, hname]
        have bound := length_foldl_addNew_le rest kept
        rw [known] at hlength
        omega
      · have new : addNew kept name = kept ++ [name] := by simp [addNew, hname]
        have hnodup : (kept ++ [name]).Nodup := by
          refine List.nodup_append.2 ⟨hkept, by simp, fun a ha b hb heq => hname ?_⟩
          rw [List.mem_singleton.1 hb] at heq
          exact heq ▸ ha
        rw [new] at hlength
        have := ih (kept ++ [name]) hnodup (by rw [hlength, List.length_append]; simp; omega)
        simpa using this
  simpa [distinct] using go names [] List.nodup_nil (by simpa [distinct] using h)

end StoryFlow.Names
