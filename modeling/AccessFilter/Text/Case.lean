/-!
# Letter case

Operator names and keywords are matched without regard to the case of the letters A to Z.  Other
letters are compared as they stand, so these maps leave them alone.

* `upper`, `lower` — the case maps on the letters of ASCII.
* `dropWord?` — reads a keyword in any letter case off the front of a text.
-/

namespace AccessFilter.Text

/-- The text with its letters a to z made capitals. -/
def upper (s : List Char) : List Char :=
  s.map Char.toUpper

/-- The text with its letters A to Z made small. -/
def lower (s : List Char) : List Char :=
  s.map Char.toLower

/-- `upper` on strings. -/
def uppercased (s : String) : String :=
  String.ofList (upper s.toList)

/-- `lower` on strings. -/
def lowercased (s : String) : String :=
  String.ofList (lower s.toList)

/-- What follows `word` at the front of a text, the letters of both read in any case. -/
def dropWord? : List Char → List Char → Option (List Char)
  | [], s => some s
  | _ :: _, [] => none
  | w :: word, c :: s => if w.toLower == c.toLower then dropWord? word s else none

/-- **A word is read exactly when its letters are there.**  The text splits into as many characters
as the word has, equal to it up to case, and the rest. -/
theorem dropWord?_eq_some_iff {word s rest : List Char} :
    dropWord? word s = some rest ↔ ∃ w, s = w ++ rest ∧ lower w = lower word := by
  induction word generalizing s with
  | nil => simp [dropWord?, lower, eq_comm]
  | cons a word ih =>
    cases s with
    | nil =>
      simp only [dropWord?, reduceCtorEq, false_iff, not_exists, not_and]
      rintro w hw hl
      cases w with
      | nil => simp [lower] at hl
      | cons b w => simp at hw
    | cons c s =>
      by_cases h : a.toLower = c.toLower
      · simp only [dropWord?, h, beq_self_eq_true, if_true, ih]
        constructor
        · rintro ⟨w, rfl, hw⟩
          exact ⟨c :: w, rfl, by simpa [lower, h] using hw⟩
        · rintro ⟨w, hw, hl⟩
          cases w with
          | nil => simp [lower] at hl
          | cons b w =>
            obtain ⟨rfl, rfl⟩ := List.cons.inj hw
            exact ⟨w, rfl, by simp only [lower, List.map_cons, List.cons.injEq] at hl ⊢; exact hl.2⟩
      · simp only [dropWord?, beq_iff_eq, h, if_false, reduceCtorEq, false_iff, not_exists, not_and]
        rintro w hw hl
        cases w with
        | nil => simp [lower] at hl
        | cons b w =>
          obtain ⟨rfl, rfl⟩ := List.cons.inj hw
          simp only [lower, List.map_cons, List.cons.injEq] at hl
          exact h hl.1.symm

end AccessFilter.Text
