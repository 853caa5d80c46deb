/-! What can be reached by taking steps: the starting points and, round by round, the new successors
of what was new in the round before. -/

namespace StoryFlow

universe u

variable {α : Type u} [BEq α]

def fresh (known : List α) : List α → List α
  | [] => []
  | a :: rest => if known.contains a then fresh known rest else a :: fresh (a :: known) rest

/-- At most `rounds` rounds. It stops early when a round finds nothing new. -/
def closeOver (next : α → List α) : Nat → List α → List α → List α
  | 0, known, _ => known
  | rounds + 1, known, frontier =>
    match fresh known (frontier.flatMap next) with
    | [] => known
    | found => closeOver next rounds (known ++ found) found

def reachableFrom (next : α → List α) (rounds : Nat) (start : List α) : List α :=
  closeOver next rounds (fresh [] start) (fresh [] start)

/-- A search ends because every place is found once: each time fewer of them are left. -/
theorem countP_lt {α : Type} {p q : α → Bool} {l : List α} {a : α}
    (h : ∀ b ∈ l, p b = true → q b = true) (ha : a ∈ l) (hq : q a = true) (hp : p a = false) :
    l.countP p < l.countP q := by
  induction l with
  | nil => cases ha
  | cons b l ih =>
    obtain ⟨hb, hl⟩ := List.forall_mem_cons.1 h
    rw [List.countP_cons, List.countP_cons]
    rcases List.mem_cons.1 ha with rfl | ha
    · have := List.countP_mono_left hl
      simp [hq, hp]
      omega
    · have := ih hl ha
      by_cases hpb : p b = true
      · simp [hpb, hb hpb]
        omega
      · simp [hpb]
        omega

end StoryFlow
