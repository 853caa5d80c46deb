import Mathlib.Data.List.Basic
import Mathlib.Data.List.Induction
import StoryFlow.Assignment.Facts

/-! What a sequence of statements does to the variables, and the facts of a single path. The facts are
ordered: one lies below another when it promises no more and admits no less. -/

namespace StoryFlow

variable {table : SymbolTable} {x : String} {s : Stmt} {w : List Stmt}

section History

def Stmt.Sets (table : SymbolTable) : Stmt → String → Prop
  | .plain _ (.assign name _), x => x = name ∧ (table.outcome? name).isSome = true
  | .plain _ (.adjust name _), x => x = name ∧ (table.spectrum? name).isSome = true
  | _, _ => False

def Stmt.Consults (table : SymbolTable) : Stmt → String → Prop
  | .branchOn _ name _, x => x = name ∧ (table.declared? name).isSome = true
  | _, _ => False

def Stmt.IsCheckpoint : Stmt → Prop
  | .plain _ (.checkpoint _ _) => True
  | _ => False

def AssignedIn (table : SymbolTable) (w : List Stmt) (x : String) : Prop :=
  ∃ s ∈ w, s.Sets table x

/-- The variable was assigned or adjusted before a checkpoint that was crossed later. -/
def LockedIn (table : SymbolTable) (w : List Stmt) (x : String) : Prop :=
  ∃ u c r, w = u ++ c :: r ∧ c.IsCheckpoint ∧ AssignedIn table u x

/-- The variable was assigned, adjusted or read with no checkpoint since. -/
def TouchedIn (table : SymbolTable) (w : List Stmt) (x : String) : Prop :=
  ∃ u r, w = u ++ r ∧ (∀ c ∈ r, ¬c.IsCheckpoint) ∧ ∃ s ∈ r, s.Sets table x ∨ s.Consults table x

theorem Stmt.Sets.not_isCheckpoint (h : s.Sets table x) : ¬s.IsCheckpoint := by
  unfold Stmt.Sets at h
  split at h
  · exact not_false
  · exact not_false
  · cases h

theorem Stmt.Consults.not_isCheckpoint (h : s.Consults table x) : ¬s.IsCheckpoint := by
  unfold Stmt.Consults at h
  split at h
  · exact not_false
  · cases h

theorem assignedIn_snoc :
    AssignedIn table (w ++ [s]) x ↔ AssignedIn table w x ∨ s.Sets table x := by
  simp [AssignedIn, or_and_right, exists_or]

theorem lockedIn_snoc : LockedIn table (w ++ [s]) x ↔
    LockedIn table w x ∨ (s.IsCheckpoint ∧ AssignedIn table w x) := by
  constructor
  · rintro ⟨u, c, r, heq, hc, hu⟩
    rcases List.eq_nil_or_concat r with rfl | ⟨r, y, rfl⟩
    · obtain ⟨rfl, hlast⟩ := List.append_inj' heq rfl
      cases hlast
      exact Or.inr ⟨hc, hu⟩
    · have heq' : w ++ [s] = (u ++ c :: r) ++ [y] := by simpa using heq
      exact Or.inl ⟨u, c, r, (List.append_inj' heq' rfl).1, hc, hu⟩
  · rintro (⟨u, c, r, rfl, hc, hu⟩ | ⟨hs, hw⟩)
    · exact ⟨u, c, r ++ [s], by simp, hc, hu⟩
    · exact ⟨w, s, [], rfl, hs, hw⟩

theorem touchedIn_snoc : TouchedIn table (w ++ [s]) x ↔
    (¬s.IsCheckpoint ∧ TouchedIn table w x) ∨ s.Sets table x ∨ s.Consults table x := by
  constructor
  · rintro ⟨u, r, heq, hr, t, ht, htx⟩
    rcases List.eq_nil_or_concat r with rfl | ⟨r, y, rfl⟩
    · cases ht
    · have heq' : w ++ [s] = (u ++ r) ++ [y] := by simpa using heq
      obtain ⟨rfl, hlast⟩ := List.append_inj' heq' rfl
      cases hlast
      rw [List.concat_eq_append] at hr ht
      rcases List.mem_append.1 ht with ht | ht
      · refine Or.inl ⟨hr s (by simp), u, r, rfl, fun c hc => hr c (by simp [hc]), t, ht, htx⟩
      · rw [List.mem_singleton.1 ht] at htx
        exact Or.inr htx
  · rintro (⟨hs, u, r, rfl, hr, t, ht, htx⟩ | hx)
    · refine ⟨u, r ++ [s], by simp, fun c hc => ?_, t, by simp [ht], htx⟩
      rcases List.mem_append.1 hc with hc | hc
      · exact hr c hc
      · exact List.mem_singleton.1 hc ▸ hs
    · refine ⟨w, [s], rfl, fun c hc => ?_, s, List.mem_singleton_self s, hx⟩
      rw [List.mem_singleton.1 hc]
      exact hx.elim Stmt.Sets.not_isCheckpoint Stmt.Consults.not_isCheckpoint

theorem mem_of_append_eq {a b m r : List Stmt} {c : Stmt} (heq : a ++ c :: m = b ++ r)
    (hc : c.IsCheckpoint) (hr : ∀ s ∈ r, ¬s.IsCheckpoint) : ∀ t ∈ r, t ∈ m := by
  intro t ht
  rcases List.append_eq_append_iff.1 heq with ⟨d, -, hd⟩ | ⟨d, -, rfl⟩
  · cases d with
    | nil => exact absurd hc (hr c (by rw [← List.nil_append r, ← hd]; exact List.mem_cons_self))
    | cons e d =>
      rw [(List.cons.inj hd).2]
      exact List.mem_append_right _ ht
  · exact absurd hc (hr c (List.mem_append_right _ List.mem_cons_self))

/-- What was assigned and not touched since the last checkpoint lies before a checkpoint behind which it is
not touched. -/
theorem exists_last_checkpoint (ha : AssignedIn table w x) (hn : ¬TouchedIn table w x) :
    ∃ u c r, w = u ++ c :: r ∧ c.IsCheckpoint ∧ ∀ s ∈ r, ¬s.Sets table x ∧ ¬s.Consults table x := by
  induction w using List.reverseRecOn with
  | nil =>
    obtain ⟨s, hs, -⟩ := ha
    cases hs
  | append_singleton w s ih =>
    rw [touchedIn_snoc, not_or, not_or] at hn
    obtain ⟨hw, hsets, hconsults⟩ := hn
    by_cases hc : s.IsCheckpoint
    · exact ⟨w, s, [], rfl, hc, by simp⟩
    · have untouched : ¬TouchedIn table w x := fun ht => hw ⟨hc, ht⟩
      obtain ⟨u, c, r, rfl, hcheck, hr⟩ := ih ((assignedIn_snoc.1 ha).resolve_right hsets) untouched
      refine ⟨u, c, r ++ [s], by simp, hcheck, fun t ht => ?_⟩
      rcases List.mem_append.1 ht with ht | ht
      · exact hr t ht
      · rw [List.mem_singleton.1 ht]
        exact ⟨hsets, hconsults⟩

end History

namespace VarSet

variable {a b : VarSet} {sets : List VarSet}

theorem mem_add {name : String} : x ∈ add a name ↔ x ∈ a ∨ x = name := Names.mem_addNew

theorem mem_union : x ∈ union a b ↔ x ∈ a ∨ x ∈ b := by
  induction b generalizing a with
  | nil => simp [union]
  | cons name b ih =>
    have step : union a (name :: b) = union (Names.addNew a name) b := rfl
    rw [step, ih, Names.mem_addNew, List.mem_cons, or_assoc]

theorem mem_foldl_union {start : VarSet} :
    x ∈ sets.foldl union start ↔ x ∈ start ∨ ∃ a ∈ sets, x ∈ a := by
  induction sets generalizing start with
  | nil => simp
  | cons a sets ih => rw [List.foldl_cons, ih, mem_union, or_assoc, List.exists_mem_cons_iff]

theorem mem_common : x ∈ common sets ↔ sets ≠ [] ∧ ∀ a ∈ sets, x ∈ a := by
  have go : ∀ (sets : List VarSet) (start : VarSet),
      x ∈ sets.foldl inter start ↔ x ∈ start ∧ ∀ a ∈ sets, x ∈ a := by
    intro sets
    induction sets with
    | nil => simp
    | cons a sets ih =>
      intro start
      rw [List.foldl_cons, ih]
      simp [inter, and_assoc]
  cases sets with
  | nil => simp [common]
  | cons a sets => rw [common, go, List.forall_mem_cons]; simp

theorem same_iff : same a b = true ↔ a ⊆ b ∧ b ⊆ a := by
  simp [same, List.subset_def]

end VarSet

namespace Facts

variable {f g : Facts}

/-- Promises no more and admits no less. -/
structure Below (f g : Facts) : Prop where
  definite : f.definite ⊆ g.definite
  possible : g.possible ⊆ f.possible
  locked : g.locked ⊆ f.locked
  segment : f.segment ⊆ g.segment

theorem Below.refl (f : Facts) : f.Below f :=
  ⟨List.Subset.refl _, List.Subset.refl _, List.Subset.refl _, List.Subset.refl _⟩

theorem Below.trans {h : Facts} (a : f.Below g) (b : g.Below h) : f.Below h :=
  ⟨List.Subset.trans a.definite b.definite, List.Subset.trans b.possible a.possible,
    List.Subset.trans b.locked a.locked, List.Subset.trans a.segment b.segment⟩

theorem same_iff : same f g = true ↔ f.Below g ∧ g.Below f := by
  simp only [same, Bool.and_eq_true, VarSet.same_iff]
  constructor
  · rintro ⟨⟨⟨hd, hp⟩, hl⟩, hs⟩
    exact ⟨⟨hd.1, hp.2, hl.2, hs.1⟩, hd.2, hp.1, hl.1, hs.2⟩
  · rintro ⟨a, b⟩
    exact ⟨⟨⟨⟨a.definite, b.definite⟩, b.possible, a.possible⟩, b.locked, a.locked⟩, a.segment,
      b.segment⟩

structure Follows (table : SymbolTable) (s : Stmt) (f g : Facts) : Prop where
  definite : ∀ x, x ∈ g.definite ↔ x ∈ f.definite ∨ s.Sets table x
  possible : ∀ x, x ∈ g.possible ↔ x ∈ f.possible ∨ s.Sets table x
  locked : ∀ x, x ∈ g.locked ↔ x ∈ f.locked ∨ (s.IsCheckpoint ∧ x ∈ f.possible)
  segment : ∀ x, x ∈ g.segment ↔
    (¬s.IsCheckpoint ∧ x ∈ f.segment) ∨ s.Sets table x ∨ s.Consults table x

theorem follows_self (hs : ∀ x, ¬s.Sets table x) (hc : ∀ x, ¬s.Consults table x)
    (hk : ¬s.IsCheckpoint) : Follows table s f f := by
  refine ⟨fun x => ?_, fun x => ?_, fun x => ?_, fun x => ?_⟩
  · simp [hs x]
  · simp [hs x]
  · simp [hk]
  · simp [hs x, hc x, hk]

theorem follows_assigned {name : String} (hs : ∀ x, s.Sets table x ↔ x = name)
    (hc : ∀ x, ¬s.Consults table x) (hk : ¬s.IsCheckpoint) :
    Follows table s f (f.assigned name) := by
  refine ⟨fun x => ?_, fun x => ?_, fun x => ?_, fun x => ?_⟩
  · rw [hs]; exact VarSet.mem_add
  · rw [hs]; exact VarSet.mem_add
  · simp [hk, assigned]
  · simp [hs x, hc x, hk, assigned, VarSet.mem_add]

theorem follows_afterStmt (table : SymbolTable) (f : Facts) (s : Stmt) :
    Follows table s f (f.afterStmt table (some s)) := by
  have none : ∀ {s : Stmt}, (∀ x, ¬s.Sets table x) → (∀ x, ¬s.Consults table x) →
      ¬s.IsCheckpoint → Follows table s f f := follows_self
  cases s with
  | menu area kind prompt options => exact none (fun _ h => h) (fun _ h => h) id
  | ifElse area branches hasElse elseBody => exact none (fun _ h => h) (fun _ h => h) id
  | branchOn area name cases =>
    rw [afterStmt]
    split <;> rename_i h
    · refine ⟨?_, ?_, ?_, ?_⟩
      · simp [Stmt.Sets, readOf]
      · simp [Stmt.Sets, readOf]
      · simp [Stmt.IsCheckpoint, readOf]
      · intro x
        simp [Stmt.Sets, Stmt.IsCheckpoint, Stmt.Consults, readOf, VarSet.mem_add, h]
    · exact none (fun _ h => h) (fun _ hx => h hx.2) id
  | plain area action =>
    cases action with
    | assign name option =>
      rw [afterStmt]
      split <;> rename_i h
      · exact follows_assigned (by simp [Stmt.Sets, h]) (fun _ h => h) id
      · exact none (fun _ hx => h hx.2) (fun _ h => h) id
    | adjust name positive =>
      rw [afterStmt]
      split <;> rename_i h
      · exact follows_assigned (by simp [Stmt.Sets, h]) (fun _ h => h) id
      · exact none (fun _ hx => h hx.2) (fun _ h => h) id
    | checkpoint name implicit =>
      rw [afterStmt]
      refine ⟨?_, ?_, ?_, ?_⟩
      · simp [Stmt.Sets, checkpoint]
      · simp [Stmt.Sets, checkpoint]
      · simp [Stmt.IsCheckpoint, checkpoint, VarSet.mem_union]
      · simp [Stmt.Sets, Stmt.Consults, Stmt.IsCheckpoint, checkpoint]
    | output text => exact none (fun _ h => h) (fun _ h => h) id
    | line speaker text => exact none (fun _ h => h) (fun _ h => h) id
    | run method args => exact none (fun _ h => h) (fun _ h => h) id
    | call scene => exact none (fun _ h => h) (fun _ h => h) id
    | declareOutcome name => exact none (fun _ h => h) (fun _ h => h) id
    | declareSpectrum name => exact none (fun _ h => h) (fun _ h => h) id

theorem Follows.below {f' g' : Facts} (hf : Follows table s f f') (hg : Follows table s g g')
    (h : f.Below g) : f'.Below g' := by
  refine ⟨fun x hx => ?_, fun x hx => ?_, fun x hx => ?_, fun x hx => ?_⟩
  · exact (hg.definite x).2 (((hf.definite x).1 hx).imp_left fun hd => h.definite hd)
  · exact (hf.possible x).2 (((hg.possible x).1 hx).imp_left fun hp => h.possible hp)
  · refine (hf.locked x).2 (((hg.locked x).1 hx).imp (fun hl => h.locked hl) fun hk => ?_)
    exact ⟨hk.1, h.possible hk.2⟩
  · refine (hg.segment x).2 (((hf.segment x).1 hx).imp_left fun hk => ?_)
    exact ⟨hk.1, h.segment hk.2⟩

theorem Below.afterStmt (h : f.Below g) (table : SymbolTable) (s : Option Stmt) :
    (f.afterStmt table s).Below (g.afterStmt table s) := by
  cases s with
  | none => exact h
  | some s => exact (follows_afterStmt table f s).below (follows_afterStmt table g s) h

def ofHistory (table : SymbolTable) (w : List Stmt) : Facts :=
  w.foldl (fun f s => f.afterStmt table (some s)) {}

theorem ofHistory_snoc :
    ofHistory table (w ++ [s]) = (ofHistory table w).afterStmt table (some s) := by
  rw [ofHistory, List.foldl_append]
  rfl

/-- On a single path all four sets are known exactly. -/
theorem mem_ofHistory (table : SymbolTable) (w : List Stmt) (x : String) :
    (x ∈ (ofHistory table w).definite ↔ AssignedIn table w x) ∧
    (x ∈ (ofHistory table w).possible ↔ AssignedIn table w x) ∧
    (x ∈ (ofHistory table w).locked ↔ LockedIn table w x) ∧
    (x ∈ (ofHistory table w).segment ↔ TouchedIn table w x) := by
  induction w using List.reverseRecOn with
  | nil => simp [ofHistory, AssignedIn, LockedIn, TouchedIn]
  | append_singleton w s ih =>
    obtain ⟨hd, hp, hl, hs⟩ := ih
    have follows := follows_afterStmt table (ofHistory table w) s
    rw [ofHistory_snoc, follows.definite, follows.possible, follows.locked, follows.segment, hd, hp,
      hl, hs, assignedIn_snoc, lockedIn_snoc, touchedIn_snoc]
    exact ⟨Iff.rfl, Iff.rfl, Iff.rfl, Iff.rfl⟩

end Facts

end StoryFlow
