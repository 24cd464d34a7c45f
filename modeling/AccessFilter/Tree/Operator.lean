import AccessFilter.Text.Blank
import AccessFilter.Text.Case

/-!
# Operators of rules

A rule compares a field with a value.  Four of the ten comparisons have a negated form, which is an
operator of its own, so that a rule says by itself whether it is negated.

* `Operator` — the fourteen operators.
* `Operator.positive?`, `Operator.negative?` — between the two forms.
* `Operator.ofText?` — the operator a text names.
* **`Operator.ofText?_name`** — an operator is named by its own name.
-/

namespace AccessFilter

/-- The comparison of a rule. -/
inductive Operator where
  | equals
  | notEquals
  | contains
  | notContains
  | startsWith
  | endsWith
  | greaterThan
  | greaterOrEqual
  | lessThan
  | lessOrEqual
  | exists
  | notExists
  | hasChanged
  | hasNotChanged
  deriving DecidableEq, Repr

namespace Operator

/-- All operators, in the order in which they are listed to a user. -/
def all : List Operator :=
  [equals, notEquals, contains, notContains, startsWith, endsWith, greaterThan, greaterOrEqual,
    lessThan, lessOrEqual, .exists, notExists, hasChanged, hasNotChanged]

/-- The name in tree JSON. -/
def name : Operator → String
  | equals => "EQUALS"
  | notEquals => "NOT EQUALS"
  | contains => "CONTAINS"
  | notContains => "NOT CONTAINS"
  | startsWith => "STARTS_WITH"
  | endsWith => "ENDS_WITH"
  | greaterThan => "GT"
  | greaterOrEqual => "GTE"
  | lessThan => "LT"
  | lessOrEqual => "LTE"
  | .exists => "EXISTS"
  | notExists => "NOT EXISTS"
  | hasChanged => "HAS_CHANGED"
  | hasNotChanged => "NOT HAS_CHANGED"

/-! ## Negation -/

/-- The operator that a negated one negates. -/
def positive? : Operator → Option Operator
  | notEquals => some equals
  | notContains => some contains
  | notExists => some .exists
  | hasNotChanged => some hasChanged
  | _ => none

/-- The negated form of an operator that has one. -/
def negative? : Operator → Option Operator
  | equals => some notEquals
  | contains => some notContains
  | .exists => some notExists
  | hasChanged => some hasNotChanged
  | _ => none

/-- The other form of an operator that has two. -/
def opposite? (op : Operator) : Option Operator :=
  op.positive? <|> op.negative?

/-- **The two forms belong together.** -/
theorem positive?_eq_some_iff {op p : Operator} :
    op.positive? = some p ↔ p.negative? = some op := by
  cases op <;> cases p <;> simp [positive?, negative?]

def isNegated (op : Operator) : Bool :=
  op.positive?.isSome

/-- Whether the rule tests for equality or its negation. -/
def isEquality : Operator → Bool
  | equals | notEquals => true
  | _ => false

/-- Whether the comparison is with a value; presence and change are not. -/
def takesValue : Operator → Bool
  | .exists | notExists | hasChanged | hasNotChanged => false
  | _ => true

/-! ## Reading -/

/-- The spellings of an operator in normalized form: words and signs, and for the negated ones also
every spelling of the positive operator after the word not. -/
def spellings : Operator → List String
  | equals => ["EQUALS", "=", "EQ"]
  | notEquals => ["!=", "NE", "NOT_EQUALS", "NOT_=", "NOT_EQ"]
  | contains => ["CONTAINS", "CO"]
  | notContains => ["NOT_CONTAINS", "NOT_CO"]
  | startsWith => ["STARTS_WITH", "SW"]
  | endsWith => ["ENDS_WITH", "EW"]
  | greaterThan => ["GT", ">"]
  | greaterOrEqual => ["GTE", "GE", ">="]
  | lessThan => ["LT", "<"]
  | lessOrEqual => ["LTE", "LE", "<="]
  | .exists => ["EXISTS", "PR"]
  | notExists => ["NOT_EXISTS", "NOT_PR"]
  | hasChanged => ["HAS_CHANGED"]
  | hasNotChanged => ["HAS_NOT_CHANGED", "NOT_HAS_CHANGED"]

/-- The separators that stand for an underscore between the words of a spelling. -/
def separated (c : Char) : Char :=
  if c = '-' ∨ c = ' ' then '_' else c

/-- The form in which spellings are compared: without blanks at the ends, in capitals, with
underscores between words. -/
def normalized (s : String) : String :=
  String.ofList ((Text.upper (Text.trim s.toList)).map separated)

/-- The operator a text names. -/
def ofText? (s : String) : Option Operator :=
  all.find? fun op => op.spellings.contains (normalized s)

/-- **Names are read back.** -/
theorem ofText?_name (op : Operator) : ofText? op.name = some op := by
  cases op <;> decide

end Operator

end AccessFilter
