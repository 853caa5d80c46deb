/-! Text cut at a separator. -/

namespace StoryFlow.Text

/-- The parts between separators. There is one part more than there are separators. -/
def separated (sep : Char) : List Char → List (List Char)
  | [] => [[]]
  | c :: rest =>
    match separated sep rest with
    | [] => [[c]]
    | part :: parts => if c = sep then [] :: part :: parts else (c :: part) :: parts

theorem separated_ne_nil (sep : Char) (cs : List Char) : separated sep cs ≠ [] := by
  cases cs with
  | nil => simp [separated]
  | cons c rest => rw [separated]; split <;> (try split) <;> simp

end StoryFlow.Text
