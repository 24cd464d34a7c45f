import AccessFilter.Failure
import AccessFilter.Ldap.Value
import AccessFilter.Tree.Basic

/-!
# Writing LDAP filters

LDAP knows equality with wildcards and the two inclusive comparisons.  The other operators are
expressed through them, the strict comparisons as negations of the inclusive ones; change over time
cannot be expressed.  Values are text, so numbers and booleans are written as they are displayed.

* `ruleText` — a rule.
* `nodeText` — a node.
* **`print`** — a tree.
-/

namespace AccessFilter.Ldap

/-- An item between parentheses. -/
def plain (item : List Char) : List Char :=
  '(' :: item ++ [')']

/-- The negation of an item. -/
def negated (item : List Char) : List Char :=
  '(' :: '!' :: plain item ++ [')']

/-- The text of a rule.  In the value of an equality an asterisk is a wildcard; in all other values
it is literal. -/
def ruleText (r : Rule) : Except Failure (List Char) :=
  let shown := ((r.value.map Scalar.display).getD "").toList
  let pattern := escape true shown
  let literal := escape false shown
  let item := fun (sign value : List Char) => r.field.toList ++ sign ++ value
  match r.operator with
  | .equals => .ok (plain (item ['='] pattern))
  | .notEquals => .ok (negated (item ['='] pattern))
  | .contains => .ok (plain (item ['='] ('*' :: literal ++ ['*'])))
  | .notContains => .ok (negated (item ['='] ('*' :: literal ++ ['*'])))
  | .startsWith => .ok (plain (item ['='] (literal ++ ['*'])))
  | .endsWith => .ok (plain (item ['='] ('*' :: literal)))
  | .greaterOrEqual => .ok (plain (item ['>', '='] literal))
  | .lessOrEqual => .ok (plain (item ['<', '='] literal))
  | .greaterThan => .ok (negated (item ['<', '='] literal))
  | .lessThan => .ok (negated (item ['>', '='] literal))
  | .exists => .ok (plain (item ['='] ['*']))
  | .notExists => .ok (negated (item ['='] ['*']))
  | .hasChanged | .hasNotChanged => .error (.inexpressible r.operator)

/-- The sign of a connective. -/
def sign : Connective → Char
  | .and => '&'
  | .or => '|'
  | .not => '!'

/-- The filter that every record passes. -/
def matchAll : List Char :=
  ['(', '&', ')']

mutual

/-- The text of a node.  A group without children passes every record, whatever its connective. -/
def nodeText : Node → Except Failure (List Char)
  | .rule r => ruleText r
  | .group _ _ [] => .ok matchAll
  | .group c _ (n :: ns) => do
    let first ← nodeText n
    let others ← nodeTexts ns
    return '(' :: sign c :: first ++ others ++ [')']

/-- The texts of several nodes, one after the other. -/
def nodeTexts : List Node → Except Failure (List Char)
  | [] => .ok []
  | n :: ns => do
    let first ← nodeText n
    let others ← nodeTexts ns
    return first ++ others

end

/-- The node that stands for a tree in its text.  An or of one child at the root is left out where
reading would put it back: the child is no and and no or. -/
def outermost : Group → Node
  | ⟨.or, _, [.rule r]⟩ => .rule r
  | ⟨.or, _, [.group .not i ns]⟩ => .group .not i ns
  | g => g.toNode

/-- **The text of a tree.** -/
def print (g : Group) : Except Failure String :=
  (nodeText (outermost g)).map String.ofList

end AccessFilter.Ldap
