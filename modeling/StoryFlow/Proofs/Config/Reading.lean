import Mathlib.Data.List.Forall2
import StoryFlow.Config.Reading

/-! Readings without issues. A reading that is put together from others has no issues only if none of them
has any. -/

namespace StoryFlow.Config

variable {α β : Type}

namespace Reading

/-- The value is read, and there are no issues on the way to it. -/
def Reads (m : Reading α) (a : α) : Prop := m = .read a []

variable {m : Reading α} {a : α} {b : β} {next : α → Reading β} {found more : List Issue}
  {reason : Abort}

theorem bind_of_ended (h : next a = .ended reason) : (Reading.read a found >>= next) = .ended reason := by
  change Reading.bind _ _ = _
  simp only [Reading.bind, h]

theorem bind_of_read (h : next a = .read b more) :
    (Reading.read a found >>= next) = .read b (found ++ more) := by
  change Reading.bind _ _ = _
  simp only [Reading.bind, h]

@[simp] theorem reads_pure {x : α} : (Pure.pure x : Reading α).Reads a ↔ x = a := by
  change Reading.read x [] = .read a [] ↔ _
  simp

@[simp] theorem reads_bind : (m >>= next).Reads b ↔ ∃ a, m.Reads a ∧ (next a).Reads b := by
  unfold Reads
  constructor
  · intro h
    cases m with
    | ended reason => cases h
    | read a found =>
      cases hnext : next a with
      | ended reason =>
        rw [bind_of_ended hnext] at h
        cases h
      | read c more =>
        rw [bind_of_read hnext, read.injEq, List.append_eq_nil_iff] at h
        obtain ⟨rfl, rfl, rfl⟩ := h
        exact ⟨a, rfl, hnext⟩
  · rintro ⟨a, rfl, hb⟩
    exact bind_of_read hb

@[simp] theorem reads_map {f : α → β} : (f <$> m).Reads b ↔ ∃ a, m.Reads a ∧ f a = b := by
  change (m >>= fun a => Pure.pure (f a)).Reads b ↔ _
  simp

@[simp] theorem not_reads_ended : ¬(Reading.ended reason : Reading α).Reads a := by
  intro h
  cases h

@[simp] theorem not_reads_report {issue : Issue} {x : Unit} : ¬(report issue).Reads x := by
  intro h
  cases h

@[simp] theorem reads_lift {r : Except Abort α} :
    (liftM r : Reading α).Reads a ↔ r = .ok a := by
  cases r with
  | error reason =>
    change Reading.ended reason = .read a [] ↔ _
    simp
  | ok b =>
    change Reading.read b [] = .read a [] ↔ _
    simp

@[simp] theorem reads_checked {p : α × Bool} : m.checked.Reads p ↔ m.Reads p.1 ∧ p.2 = true := by
  obtain ⟨a, clean⟩ := p
  unfold checked Reads
  cases m with
  | ended reason => simp
  | read b found =>
    simp only [read.injEq, Prod.mk.injEq]
    constructor
    · rintro ⟨⟨rfl, rfl⟩, rfl⟩
      exact ⟨⟨rfl, rfl⟩, rfl⟩
    · rintro ⟨⟨rfl, rfl⟩, rfl⟩
      exact ⟨⟨rfl, rfl⟩, rfl⟩

theorem pure_bind : (Pure.pure a >>= next) = next a := by
  change (Reading.read a [] >>= next) = _
  cases hnext : next a with
  | ended reason => exact bind_of_ended hnext
  | read b more => exact bind_of_read hnext

theorem bind_assoc {γ : Type} {last : β → Reading γ} :
    m >>= next >>= last = m >>= fun a => next a >>= last := by
  cases m with
  | ended reason => rfl
  | read a found =>
    cases hnext : next a with
    | ended reason =>
      rw [bind_of_ended hnext]
      refine (bind_of_ended ?_).symm
      rw [hnext]
      rfl
    | read b more =>
      rw [bind_of_read hnext]
      cases hlast : last b with
      | ended reason =>
        rw [bind_of_ended hlast]
        refine (bind_of_ended ?_).symm
        rw [hnext, bind_of_ended hlast]
      | read c others =>
        rw [bind_of_read hlast, List.append_assoc]
        refine (bind_of_read ?_).symm
        rw [hnext, bind_of_read hlast]

theorem id_map : id <$> m = m := by
  cases m with
  | ended reason => rfl
  | read a found => exact congrArg (Reading.read a) (List.append_nil found)

instance : LawfulMonad Reading :=
  LawfulMonad.mk' Reading (fun _ => id_map) (fun _ _ => pure_bind) (fun _ _ _ => bind_assoc)

theorem reads_mapM {read : α → Reading β} {list : List α} {result : List β} :
    (list.mapM read).Reads result ↔ List.Forall₂ (fun x y => (read x).Reads y) list result := by
  induction list generalizing result with
  | nil => simp [eq_comm]
  | cons x rest ih =>
    simp only [List.mapM_cons, reads_bind, reads_pure, ih]
    constructor
    · rintro ⟨y, hy, ys, hys, rfl⟩
      exact .cons hy hys
    · rintro (_ | ⟨hy, hys⟩)
      exact ⟨_, hy, _, hys, rfl⟩

end Reading

end StoryFlow.Config
