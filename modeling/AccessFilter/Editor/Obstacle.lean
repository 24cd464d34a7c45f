import AccessFilter.Tree.Basic

/-!
# What the structured editor cannot show

The structured editor shows rules that test for equality, in groups that are not nested too deeply.
Other filters are edited as text.

* `Obstacle` — why a filter is edited as text.
* `Group.obstacle?` — the first obstacle in a tree: negated groups before operators before depth.
-/

namespace AccessFilter

/-- Why the structured editor cannot show a tree. -/
inductive Obstacle where
  /-- A group inside a not has no form as a rule. -/
  | negatedGroup
  /-- The editor has no control for the operator. -/
  | operator (operator : Operator)
  /-- Groups are nested more deeply than allowed. -/
  | depth (found allowed : Nat)
  deriving DecidableEq, Repr

/-- Whether a group is a not with a group among its children. -/
def Group.negatesGroup (g : Group) : Bool :=
  g.connective == .not && g.children.any fun n => !n.isRule

/-- **The obstacle in a tree,** none if the structured editor can show it. -/
def Group.obstacle? (g : Group) (maxDepth : Nat) : Option Obstacle :=
  if g.groups.any negatesGroup then some .negatedGroup
  else
    match g.rules.find? fun r => !r.operator.isEquality with
    | some r => some (.operator r.operator)
    | none => if maxDepth < g.depth then some (.depth g.depth maxDepth) else none

end AccessFilter
