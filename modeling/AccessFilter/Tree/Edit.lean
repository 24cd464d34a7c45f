import AccessFilter.Tree.Numbering

/-!
# Editing a tree

An edit names a group by the positions of children on the way down from the root.  Such a path may
be out of date, so an edit that does not fit leaves the tree as it is instead of failing.  A not
always keeps the one child it negates.

* `Group.at?` — the group that a path leads to.
* `Group.edit` — a change to that group, or no change at all.
* `Group.addRule`, `Group.removeChild`, `Group.setConnective`, `Group.changeRule` — the four edits.
* **`Group.edit_of_at?_eq_none`** — a path that leads nowhere changes nothing.
-/

namespace AccessFilter

/-! ## Paths -/

namespace Group

/-- The group that a path leads to; every position on it must be that of a group. -/
def at? : Group → (path : List Nat) → Option Group
  | g, [] => some g
  | g, i :: path =>
    match g.children[i]? with
    | some (.group c j ns) => at? ⟨c, j, ns⟩ path
    | _ => none

/-- The tree with the group at a path changed, none if the path leads nowhere or the change does not
apply. -/
def editAt? (change : Group → Option Group) : Group → (path : List Nat) → Option Group
  | g, [] => change g
  | g, i :: path =>
    match g.children[i]? with
    | some (.group c j ns) =>
      (editAt? change ⟨c, j, ns⟩ path).map fun inner =>
        { g with children := g.children.set i inner.toNode }
    | _ => none

/-- The tree with the group at a path changed, and the tree itself if that cannot be done. -/
def edit (g : Group) (path : List Nat) (change : Group → Option Group) : Group :=
  (editAt? change g path).getD g

/-! ## The four edits -/

/-- A rule, or the or of it alone, numbered from `start`.  If `start` is the largest index, the rule
in an or gets the index zero. -/
def newNode (rule : Option Rule) (asGroup : Bool) (start : Nat) : Node :=
  let rule := rule.getD (Rule.blank 0)
  let node := if asGroup then (starting (some [.rule rule]) 0).toNode else .rule rule
  (node.renumber start).1.wrapped

/-- A new node after the children of a group.  A not takes one only while it has none. -/
def addChild (node : Node) (g : Group) : Option Group :=
  if g.connective = .not ∧ g.children ≠ [] then none
  else some { g with children := g.children ++ [node] }

/-- **Adding a rule,** blank if none is given and inside a group of its own if asked for.  The new
nodes get indices above all in the tree, as long as there are any. -/
def addRule (g : Group) (path : List Nat) (rule : Option Rule) (asGroup : Bool) : Group :=
  g.edit path (addChild (newNode rule asGroup g.nextIndex))

/-- A group without the child at a position.  A not keeps its child. -/
def eraseChild (position : Nat) (g : Group) : Option Group :=
  if g.connective = .not ∨ g.children.length ≤ position then none
  else some { g with children := g.children.eraseIdx position }

/-- **Removing a child.**  The last one leaves an empty group behind. -/
def removeChild (g : Group) (path : List Nat) (position : Nat) : Group :=
  g.edit path (eraseChild position)

/-- A group under another connective.  Only a group of exactly one child becomes a not. -/
def withConnective (connective : Connective) (g : Group) : Option Group :=
  if connective = .not ∧ g.children.length ≠ 1 then none
  else some { g with connective }

/-- **Changing the connective of a group.** -/
def setConnective (g : Group) (path : List Nat) (connective : Connective) : Group :=
  g.edit path (withConnective connective)

end Group

/-- The parts of a rule to overwrite.  A value can be overwritten by none, which clears it. -/
structure RuleChange where
  operator : Option Operator
  field : Option String
  value : Option (Option Scalar)
  temporal : Option Temporal
  deriving DecidableEq, Repr

/-- The change that overwrites nothing. -/
def RuleChange.empty : RuleChange :=
  ⟨none, none, none, none⟩

/-- A rule with the parts of a change in place of its own. -/
def RuleChange.apply (change : RuleChange) (r : Rule) : Rule :=
  { r with
    operator := change.operator.getD r.operator
    field := change.field.getD r.field
    value := change.value.getD r.value
    temporal := change.temporal.getD r.temporal }

namespace Group

/-- A group with the rule at a position changed; a group at that position is no rule. -/
def changeChild (position : Nat) (change : RuleChange) (g : Group) : Option Group :=
  match g.children[position]? with
  | some (.rule r) => some { g with children := g.children.set position (.rule (change.apply r)) }
  | _ => none

/-- **Overwriting parts of a rule.** -/
def changeRule (g : Group) (path : List Nat) (position : Nat) (change : RuleChange) : Group :=
  g.edit path (changeChild position change)

/-! ## How an edit acts on paths -/

/-- An edit at a path that leads nowhere does not apply. -/
theorem editAt?_of_at?_eq_none (change : Group → Option Group) (g : Group) (path : List Nat)
    (h : g.at? path = none) : editAt? change g path = none := by
  induction path generalizing g with
  | nil => simp [at?] at h
  | cons i path ih =>
    unfold at? at h
    unfold editAt?
    split
    · next c j ns hc =>
      rw [hc] at h
      rw [ih _ h, Option.map_none]
    · rfl

/-- **A path that leads nowhere changes nothing.** -/
theorem edit_of_at?_eq_none (change : Group → Option Group) (g : Group) (path : List Nat)
    (h : g.at? path = none) : g.edit path change = g := by
  rw [edit, editAt?_of_at?_eq_none change g path h, Option.getD_none]

end Group

end AccessFilter
