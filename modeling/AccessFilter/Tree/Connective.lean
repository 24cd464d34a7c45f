import AccessFilter.Text.Blank
import AccessFilter.Text.Case

/-!
# Connectives

A group joins its children by a connective.

* `Connective` — and, or, not.
* `Connective.dual` — what De Morgan's laws turn a connective into.
* `Connective.ofText?` — the connective a text names.
* **`Connective.ofText?_name`** — a connective is named by its own name.
-/

namespace AccessFilter

/-- How a group joins its children. -/
inductive Connective where
  | and
  | or
  | not
  deriving DecidableEq, Repr

namespace Connective

/-- The name in tree JSON. -/
def name : Connective → String
  | and => "and"
  | or => "or"
  | not => "not"

/-- The De Morgan dual; negation has none and stays. -/
def dual : Connective → Connective
  | and => or
  | or => and
  | not => not

/-- All connectives. -/
def all : List Connective :=
  [and, or, not]

/-- The spellings of a connective in small letters: its name and its sign. -/
def spellings : Connective → List String
  | and => ["and", "&"]
  | or => ["or", "|"]
  | not => ["not", "!"]

/-- The form in which spellings are compared: blanks at the ends and letter case do not matter. -/
def normalized (s : String) : String :=
  Text.lowercased (Text.trimmed s)

/-- The connective a text names. -/
def ofText? (s : String) : Option Connective :=
  all.find? fun c => c.spellings.contains (normalized s)

/-- **Names are read back.** -/
theorem ofText?_name (c : Connective) : ofText? c.name = some c := by
  cases c <;> decide

end Connective

end AccessFilter
