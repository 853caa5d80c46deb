import StoryFlow.Config.Binding

/-! Written positions and the positions that are shown. Whatever a place is read from, the text that is
shown for it reads as the same place, also where the step between counting from zero and counting from one
leaves the machine word. -/

namespace StoryFlow

namespace Span

open Text

variable {c : Char} {cs rest : List Char} {n : Int64} {s : Span}

def numeral (n : Int64) : List Char := (toString n.toInt).toList

theorem isDecimalDigit_of_isDigit (h : c.isDigit = true) : isDecimalDigit c = true := by
  rw [isDecimalDigit]
  simp only [Char.isDigit, Bool.and_eq_true, decide_eq_true_eq] at h ⊢
  exact h

theorem not_isBlank_of_isDecimalDigit (h : isDecimalDigit c = true) : isBlank c = false := by
  simp only [isDecimalDigit, Bool.and_eq_true, decide_eq_true_eq, Char.le_def,
    UInt32.le_iff_toNat_le] at h
  have lower : 48 ≤ c.toNat := h.1
  have upper : c.toNat ≤ 57 := h.2
  simp only [isBlank, Bool.or_eq_false_iff, Bool.and_eq_false_iff, decide_eq_false_iff_not,
    beq_eq_false_iff_ne]
  omega

theorem readSign_of_isDecimalDigit (h : isDecimalDigit c = true) :
    readSign (c :: cs) = (false, c :: cs) := by
  have minus : c ≠ '-' := by rintro rfl; cases h
  have plus : c ≠ '+' := by rintro rfl; cases h
  simp [readSign, minus, plus]

theorem span_digits {digits : List Char} (hd : ∀ c ∈ digits, isDecimalDigit c = true)
    (hrest : ∀ c ∈ rest.head?, isDecimalDigit c = false) :
    (digits ++ rest).takeWhile isDecimalDigit = digits ∧
      (digits ++ rest).dropWhile isDecimalDigit = rest := by
  have stop : rest.takeWhile isDecimalDigit = [] ∧ rest.dropWhile isDecimalDigit = rest := by
    cases rest with
    | nil => exact ⟨rfl, rfl⟩
    | cons c rest => simp [hrest c rfl]
  rw [List.takeWhile_append_of_pos hd, List.dropWhile_append_of_pos hd, stop.1, stop.2]
  simp

theorem numeral_parts (n : Int64) : ∃ (sign : List Char) (negative : Bool) (d : Char) (ds : List Char),
    numeral n = sign ++ d :: ds ∧ sign = (if negative then ['-'] else []) ∧
      (∀ c ∈ d :: ds, isDecimalDigit c = true) ∧
      (if negative then -(digitsValue (d :: ds) : Int) else digitsValue (d :: ds)) = n.toInt := by
  have decimal : ∀ m : Nat, ∃ d ds, m.repr.toList = d :: ds ∧
      (∀ c ∈ d :: ds, isDecimalDigit c = true) ∧ digitsValue (d :: ds) = m := by
    intro m
    rw [Nat.repr_eq_ofList_toDigits, String.toList_ofList]
    cases hm : Nat.toDigits 10 m with
    | nil => exact absurd hm Nat.toDigits_ne_nil
    | cons d ds =>
      refine ⟨d, ds, rfl, fun c hc => ?_, ?_⟩
      · apply isDecimalDigit_of_isDigit
        exact Nat.isDigit_of_mem_toDigits (by decide) (by decide) (hm ▸ hc)
      · rw [← hm]
        exact Nat.ofDigitChars_ten_toDigits
  rw [numeral]
  cases n.toInt with
  | ofNat m =>
    obtain ⟨d, ds, htext, hdigits, hvalue⟩ := decimal m
    exact ⟨[], false, d, ds, htext, rfl, hdigits, by simp [hvalue]⟩
  | negSucc m =>
    obtain ⟨d, ds, htext, hdigits, hvalue⟩ := decimal (m + 1)
    refine ⟨['-'], true, d, ds, ?_, rfl, hdigits, by simp [hvalue, Int.negSucc_eq]⟩
    rw [← htext]
    exact String.toList_append

theorem fitsWord_toInt (n : Int64) : fitsWord n.toInt = true := by
  rw [fitsWord, Bool.and_eq_true, decide_eq_true_eq, decide_eq_true_eq]
  exact ⟨n.minValue_le_toInt, n.toInt_le⟩

theorem readNumber?_numeral (hrest : ∀ c ∈ rest.head?, isDecimalDigit c = false) :
    readNumber? (numeral n ++ rest) = some (n, rest) := by
  obtain ⟨sign, negative, d, ds, htext, hsign, hdigits, hvalue⟩ := numeral_parts n
  have first := hdigits d List.mem_cons_self
  have opening : readSign ((numeral n ++ rest).dropWhile fun c => isBlank c && c != '\n') =
      (negative, d :: ds ++ rest) := by
    rw [htext, hsign]
    cases negative with
    | true => rfl
    | false =>
      have blank := not_isBlank_of_isDecimalDigit first
      simp only [Bool.false_eq_true, if_false, List.nil_append, List.cons_append]
      rw [List.dropWhile_cons_of_neg (by simp [blank]), readSign_of_isDecimalDigit first]
  obtain ⟨htake, hdrop⟩ := span_digits hdigits hrest
  unfold readNumber?
  simp only [opening, htake, hdrop, hvalue, fitsWord_toInt, Int64.ofInt_toInt]
  simp

theorem readAfter?_mark (mark : Char) : readAfter? mark (mark :: cs) = readNumber? cs := by
  simp [readAfter?]

theorem readPair?_numerals {line column : Int64}
    (hrest : ∀ c ∈ rest.head?, isDecimalDigit c = false) :
    readPair? (numeral line ++ ':' :: (numeral column ++ rest)) = some ((line, column), rest) := by
  have colon : ∀ c ∈ (':' :: (numeral column ++ rest)).head?, isDecimalDigit c = false := by
    intro c hc
    cases hc
    rfl
  simp only [readPair?, readNumber?_numeral colon, readAfter?_mark, readNumber?_numeral hrest,
    Option.bind_eq_bind, Option.bind_some]
  rfl

/-- The numbers that are shown for a place, counted from one. -/
def shown (s : Span) : Span := ⟨s.line + 1, s.column + 1, s.endLine + 1, s.endColumn + 1⟩

theorem toList_text (s : Span) : s.text.toList =
    numeral s.shown.line ++ ':' :: (numeral s.shown.column ++ '-' ::
      (numeral s.shown.endLine ++ ':' :: (numeral s.shown.endColumn ++ []))) := by
  simp [text, shown, numeral, String.toList_append]

theorem readNumbers?_text (s : Span) : readNumbers? s.text.toList = some s.shown := by
  have dash : ∀ (cs : List Char), ∀ c ∈ ('-' :: cs).head?, isDecimalDigit c = false := by
    intro cs c hc
    cases hc
    rfl
  have dashed : s.text.toList.contains '-' = true := by
    rw [toList_text]
    simp
  have ending : ∀ c ∈ ([] : List Char).head?, isDecimalDigit c = false := by
    intro c hc
    cases hc
  unfold readNumbers?
  rw [dashed, toList_text, readPair?_numerals (dash _)]
  simp only [Option.bind_eq_bind, Option.bind_some, if_true, readPair?_numerals ending]
  rfl

/-- The place that is stored for the numbers as they are written. -/
def stored (s : Span) : Span := ⟨s.line - 1, s.column - 1, s.endLine - 1, s.endColumn - 1⟩

theorem shown_stored (s : Span) : s.stored.shown = s := by
  simp [stored, shown, Int64.sub_add_cancel]

theorem stored_shown (s : Span) : s.shown.stored = s := by
  simp [stored, shown, Int64.add_sub_cancel]

theorem inOrder_of_read? {text : String} (h : read? text = some s) : s.shown.inOrder = true := by
  obtain ⟨w, -, hw⟩ := Option.bind_eq_some_iff.1 h
  by_cases horder : w.inOrder = true
  · rw [if_pos horder] at hw
    obtain rfl : w.stored = s := Option.some.inj hw
    rwa [shown_stored]
  · rw [if_neg horder] at hw
    cases hw

theorem read?_text (h : s.shown.inOrder = true) : read? s.text = some s := by
  rw [read?, readNumbers?_text, Option.bind_eq_bind, Option.bind_some, if_pos h]
  exact congrArg some (stored_shown s)

theorem one_le_iff : 1 ≤ n ↔ 1 ≤ n.toInt := by
  rw [Int64.le_iff_toInt_le, show (1 : Int64).toInt = 1 by decide]

theorem toInt_sub_one (h : 1 ≤ n.toInt) : (n - 1).toInt = n.toInt - 1 := by
  have upper := n.toInt_lt
  rw [Int64.toInt_sub, show (1 : Int64).toInt = 1 by decide, Int.bmod_def]
  omega

/-- Only the column at the end can be so low that the step to counting from zero wraps, and then the end
is on a later line. -/
theorem inOrder_stored (h : s.inOrder = true) : 0 ≤ s.stored.line ∧ 0 ≤ s.stored.column ∧
    (s.stored.line < s.stored.endLine ∨
      s.stored.line = s.stored.endLine ∧ s.stored.column ≤ s.stored.endColumn) := by
  simp only [inOrder, Bool.and_eq_true, Bool.or_eq_true, decide_eq_true_eq, beq_iff_eq] at h
  obtain ⟨⟨hline, hcolumn⟩, hend⟩ := h
  rw [one_le_iff] at hline hcolumn
  have zero : (0 : Int64).toInt = 0 := by decide
  have line := toInt_sub_one hline
  have column := toInt_sub_one hcolumn
  have nonneg : 0 ≤ s.stored.line ∧ 0 ≤ s.stored.column := by
    rw [stored, Int64.le_iff_toInt_le, Int64.le_iff_toInt_le, line, column, zero]
    omega
  refine ⟨nonneg.1, nonneg.2, ?_⟩
  rcases hend with hlater | ⟨hsame, hcolumns⟩
  · have later := Int64.lt_iff_toInt_lt.1 hlater
    have endLine := toInt_sub_one (n := s.endLine) (by omega)
    left
    rw [stored, Int64.lt_iff_toInt_lt, line, endLine]
    omega
  · have columns := Int64.le_iff_toInt_le.1 hcolumns
    have endColumn := toInt_sub_one (n := s.endColumn) (by omega)
    refine Or.inr ⟨by rw [stored, hsame], ?_⟩
    rw [stored, Int64.le_iff_toInt_le, column, endColumn]
    omega

end Span

namespace Config

variable {path place : String} {area : TextArea}

theorem locate_eq_ok (hp : place ≠ "") (h : locate path place = .ok area) :
    ∃ s, Span.read? place = some s ∧ area = { path, span := some s } := by
  unfold locate at h
  rw [if_neg (by simpa using hp)] at h
  cases hs : Span.read? place with
  | none =>
    rw [hs] at h
    cases h
  | some s =>
    rw [hs] at h
    cases h
    exact ⟨s, rfl, rfl⟩

theorem locate_of_read? {s : Span} (h : Span.read? place = some s) (hp : place ≠ "") :
    locate path place = .ok { path, span := some s } := by
  rw [locate, if_neg (by simpa using hp), h]

/-- A place that was read starts at a line and a column that are not negative and does not end before it
starts, and the position in its byline reads as the same place. -/
theorem locate_byline (dir : String) (hp : place ≠ "") (h : locate path place = .ok area) :
    ∃ s, area = { path, span := some s } ∧ 0 ≤ s.line ∧ 0 ≤ s.column ∧
      (s.line < s.endLine ∨ s.line = s.endLine ∧ s.column ≤ s.endColumn) ∧
      ∃ position, area.byline dir = area.filename dir ++ " @ " ++ position ∧
        position = toString (s.line + 1).toInt ++ ":" ++ toString (s.column + 1).toInt ++ "-" ++
          toString (s.endLine + 1).toInt ++ ":" ++ toString (s.endColumn + 1).toInt ∧
        position ≠ "" ∧ locate path position = .ok area := by
  obtain ⟨s, hs, rfl⟩ := locate_eq_ok hp h
  have written := Span.inOrder_of_read? hs
  obtain ⟨hline, hcolumn, hend⟩ := Span.inOrder_stored written
  rw [Span.stored_shown] at hline hcolumn hend
  have nonempty : s.text ≠ "" := by
    intro heq
    have dashed := congrArg String.toList heq
    rw [Span.toList_text] at dashed
    simp at dashed
  exact ⟨s, rfl, hline, hcolumn, hend, s.text, rfl, rfl, nonempty,
    locate_of_read? (Span.read?_text written) nonempty⟩

/-- The column at the end is the least machine word, so the place stores the greatest one. -/
theorem locate_byline_least_column : ∃ area,
    locate "tale" " +1:1-2:-9223372036854775808 or so" = .ok area ∧
      area.span = some ⟨0, 0, 1, 9223372036854775807⟩ ∧
      area.byline "/home" = "tale @ 1:1-2:-9223372036854775808" ∧
      locate "tale" "1:1-2:-9223372036854775808" = .ok area := by
  have read : Span.read? " +1:1-2:-9223372036854775808 or so" =
      some ⟨0, 0, 1, 9223372036854775807⟩ := by decide +kernel
  have located := @locate_of_read? "tale" _ _ read (by decide)
  obtain ⟨s, hs, -, -, -, position, hbyline, hposition, -, again⟩ :=
    locate_byline "/home" (by decide) located
  cases hs
  have shown : position = "1:1-2:-9223372036854775808" := by
    rw [hposition]
    decide +kernel
  subst shown
  refine ⟨_, located, rfl, ?_, again⟩
  rw [hbyline]
  decide +kernel

end Config

end StoryFlow
