import AccessFilter.Selection
import AccessFilter.Tree.Negation

/-!
# Editing sessions

A session is a run of edits from a tree.  Every edit gives a tree again, so a session can go on
whatever its edits were.

* `Edit` — one edit with its arguments.
* `Group.apply` — the tree after an edit.
* `Group.run` — the tree after a session.
* **`Group.run_append`** — a session goes on where another one ended.
-/

namespace AccessFilter

/-- An edit. -/
inductive Edit where
  | addRule (path : List Nat) (rule : Option Rule) (asGroup : Bool)
  | removeChild (path : List Nat) (position : Nat)
  | setConnective (path : List Nat) (connective : Connective)
  | changeRule (path : List Nat) (position : Nat) (change : RuleChange)
  | select (path : List Nat) (position : Nat) (field : Field) (raw : Scalar) (resolver : Resolver)
  | pushNegations

namespace Group

/-- The tree after an edit. -/
def apply (g : Group) : Edit → Group
  | .addRule path rule asGroup => g.addRule path rule asGroup
  | .removeChild path position => g.removeChild path position
  | .setConnective path connective => g.setConnective path connective
  | .changeRule path position change => g.changeRule path position change
  | .select path position field raw resolver => g.select path position field raw resolver
  | .pushNegations => g.pushNegations

/-- The tree after a run of edits. -/
def run (g : Group) (edits : List Edit) : Group :=
  edits.foldl apply g

/-- **Sessions can be put one after the other.** -/
theorem run_append (g : Group) (first second : List Edit) :
    g.run (first ++ second) = (g.run first).run second := by
  simp [run]

end Group

end AccessFilter
