/-!
# Points in time

A rule on a record that is being changed looks at the record before or after the change.

* `Temporal` — before or after.
* `Temporal.ofSegment?` — the qualifier a segment of a field path stands for.
-/

namespace AccessFilter

/-- Which state of a record a rule looks at. -/
inductive Temporal where
  | before
  | after
  deriving DecidableEq, Repr

namespace Temporal

/-- The qualifier as a segment of a field path and as a value in JSON. -/
def segment : Temporal → String
  | before => "before"
  | after => "after"

/-- The qualifier that a path segment stands for.  Letter case and blanks matter. -/
def ofSegment? (s : String) : Option Temporal :=
  if s = "before" then some before
  else if s = "after" then some after
  else none

/-- A segment stands for a qualifier exactly when it is that qualifier's own. -/
theorem ofSegment?_eq_some_iff {s : String} {t : Temporal} :
    ofSegment? s = some t ↔ s = t.segment := by
  cases t
  · by_cases h : s = "before"
    · simp [ofSegment?, segment, h]
    · by_cases k : s = "after" <;> simp [ofSegment?, segment, h, k]
  · by_cases h : s = "before"
    · simp [ofSegment?, segment, h]
    · by_cases k : s = "after" <;> simp [ofSegment?, segment, h, k]

end Temporal

end AccessFilter
