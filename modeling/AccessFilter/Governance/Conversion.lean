import AccessFilter.Governance.Expr
import AccessFilter.Tree.Json

/-!
# Between trees and expressions

A tree becomes an expression rule by rule and group by group; a group with nothing left in it
disappears, so a tree without rules has no expression.  An expression always becomes a tree: a
negated comparison becomes a negated rule where there is one, membership becomes an or of equality
rules, and the expression that matches everything becomes an empty and.

* `Group.toExpr?` — the expression of a tree.
* `Group.ofExpr` — the tree of an expression.
-/

namespace AccessFilter

/-! ## From trees -/

/-- The comparison of a rule, under a negation if the rule is negated.  Values of operators that
take none are left out. -/
def Rule.toExpr (r : Rule) : Expr :=
  let value := if r.operator.takesValue then (r.value.map Scalar.toJson).getD .null else .null
  let leaf := Expr.compare (Comparison.ofRule r.operator) ⟨r.field, value⟩
  if r.operator.isNegated then .not leaf else leaf

/-- Expressions joined as a group joins its children, none if there are none; a not needs exactly
one. -/
def Connective.join? : Connective → List Expr → Option Expr
  | .and, e :: es => some (.and (e :: es))
  | .or, e :: es => some (.or (e :: es))
  | .not, [e] => some (.not e)
  | _, _ => none

mutual

/-- The expression of a node. -/
def Node.toExpr? : Node → Option Expr
  | .rule r => some r.toExpr
  | .group c _ ns => c.join? (toExprs ns)

/-- The expressions of several nodes; nodes without one are left out. -/
def Node.toExprs : List Node → List Expr
  | [] => []
  | n :: ns =>
    match toExpr? n with
    | some e => e :: toExprs ns
    | none => toExprs ns

end

/-- **The expression of a tree,** none if the tree constrains nothing. -/
def Group.toExpr? (g : Group) : Option Expr :=
  g.toNode.toExpr?

/-! ## From expressions -/

/-- The values that membership tests for: the items of an array, nothing for null, and otherwise the
one value. -/
def Target.values (t : Target) : List Json :=
  match t.value with
  | .array items => items
  | .null => []
  | v => [v]

/-- The node of a comparison.  Values that no rule can hold are left out. -/
def Comparison.toNode (c : Comparison) (t : Target) : Node :=
  match c.toRule? with
  | some op =>
    .rule (Rule.make t.name op (if op.takesValue then Scalar.ofJson? t.value else none))
  | none =>
    .group .or 0 (t.values.map fun v => .rule (Rule.make t.name .equals (Scalar.ofJson? v)))

/-- The negation of a node: a rule under the negated form of its operator if there is one, otherwise
a not around the node. -/
def Node.negation : Node → Node
  | .rule r =>
    match r.operator.negative? with
    | some operator => .rule { r with operator }
    | none => .group .not 0 [.rule r]
  | n => .group .not 0 [n]

mutual

/-- The node of an expression. -/
def Expr.toNode : Expr → Node
  | .and es => .group .and 0 (toNodes es)
  | .or es => .group .or 0 (toNodes es)
  | .not e => e.toNode.negation
  | .all => .group .and 0 []
  | .compare c t => c.toNode t

/-- The nodes of several expressions. -/
def Expr.toNodes : List Expr → List Node
  | [] => []
  | e :: es => e.toNode :: toNodes es

end

/-- **The tree of an expression,** numbered from zero. -/
def Group.ofExpr (e : Expr) : Group :=
  (ofNode e.toNode).numbered

end AccessFilter
