import AccessFilter.Failure

/-!
# Comparisons in expressions

An expression compares a target with a value.  It has no negated comparisons, since it can negate
any expression, and it has one that rules lack: membership in a list.

* `Comparison` — the eleven comparisons.
* `Comparison.read` — the comparison that a text names.
* `Comparison.ofRule`, `Comparison.toRule?` — between comparisons and the operators of rules.
-/

namespace AccessFilter

/-- How an expression compares its target. -/
inductive Comparison where
  | equals
  | contains
  | startsWith
  | endsWith
  | greaterThan
  | greaterOrEqual
  | lessThan
  | lessOrEqual
  | exists
  | hasChanged
  | isIn
  deriving DecidableEq, Repr

namespace Comparison

/-- All comparisons. -/
def all : List Comparison :=
  [equals, contains, startsWith, endsWith, greaterThan, greaterOrEqual, lessThan, lessOrEqual,
    .exists, hasChanged, isIn]

/-- The name in expression JSON. -/
def name : Comparison → String
  | equals => "EQUALS"
  | contains => "CONTAINS"
  | startsWith => "STARTS_WITH"
  | endsWith => "ENDS_WITH"
  | greaterThan => "GT"
  | greaterOrEqual => "GTE"
  | lessThan => "LT"
  | lessOrEqual => "LTE"
  | .exists => "EXISTS"
  | hasChanged => "HAS_CHANGED"
  | isIn => "IN"

/-- The comparison that a text names, blanks at its ends and letter case ignored. -/
def ofText? (s : String) : Option Comparison :=
  all.find? fun c => c.name == Text.uppercased (Text.trimmed s)

/-- The comparison that a text names; the failure shows the text as it was given. -/
def read (s : String) : Except Failure Comparison :=
  match ofText? s with
  | some c => .ok c
  | none => .error (.unknownOperator s)

/-- **Names are read back.** -/
theorem ofText?_name (c : Comparison) : ofText? c.name = some c := by
  cases c <;> decide

/-! ## Rules -/

/-- The comparison of a rule, its negation left out. -/
def ofRule : Operator → Comparison
  | .equals | .notEquals => equals
  | .contains | .notContains => contains
  | .startsWith => startsWith
  | .endsWith => endsWith
  | .greaterThan => greaterThan
  | .greaterOrEqual => greaterOrEqual
  | .lessThan => lessThan
  | .lessOrEqual => lessOrEqual
  | .exists | .notExists => .exists
  | .hasChanged | .hasNotChanged => hasChanged

/-- The operator of a rule for a comparison; membership has none. -/
def toRule? : Comparison → Option Operator
  | equals => some .equals
  | contains => some .contains
  | startsWith => some .startsWith
  | endsWith => some .endsWith
  | greaterThan => some .greaterThan
  | greaterOrEqual => some .greaterOrEqual
  | lessThan => some .lessThan
  | lessOrEqual => some .lessOrEqual
  | .exists => some .exists
  | hasChanged => some .hasChanged
  | isIn => none

/-- A rule's operator comes back from its comparison, up to its negation. -/
theorem toRule?_ofRule (op : Operator) : toRule? (ofRule op) = some (op.positive?.getD op) := by
  cases op <;> rfl

end Comparison

end AccessFilter
