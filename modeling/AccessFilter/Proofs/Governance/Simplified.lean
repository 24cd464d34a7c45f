import AccessFilter.Proofs.Meaning.Expression

/-!
# What comes back of an expression that is turned into a tree

Trees have groups without content, and no membership, no values but scalars and no root but an and
or an or.  So an expression that is turned into a tree and back comes back in another form, which is
defined here without the two conversions.

**Negations.**  A tree says a negation in two ways: by the operator of a rule, or by a not around a
node.  Which of the two a chain of negations becomes depends on what is under it, but either is
turned into the negation of the expression under it (`Node.toExpr?_negation`), so no negation is
lost and none is added.

* `scalarOrNull`, `simplifiedCompare?`, `simplified?` — what is left of a value, a comparison and an
  expression; of the last two it may be nothing.
* `rooted` — the expression with the root that a tree has.
* **`toExpr?_toNode`** — the expression of an expression's node is what is left of the expression.
* **`toExpr?_ofExpr`** — hence it comes back as what is left of it, with the root of a tree.
-/

namespace AccessFilter.Governance

/-! ## What is left -/

/-- The value as it comes back.  No rule can hold an array or an object. -/
def scalarOrNull : Json → Json
  | .array _ | .object _ => .null
  | j => j

/-- Operands joined by `make`; nothing is left of a group without operands. -/
def joined? (make : List Expr → Expr) : List Expr → Option Expr
  | [] => none
  | e :: es => some (make (e :: es))

/-- What is left of a comparison.  Membership is an or of equalities, one to a value, and presence
and change lose the value they do not look at. -/
def simplifiedCompare? (c : Comparison) (t : Target) : Option Expr :=
  let equality := fun j => Expr.equals t.name (scalarOrNull j)
  match c with
  | .isIn =>
    match t.value with
    | .array js => joined? .or (js.map equality)
    | .null => none
    | j => some (.or [equality j])
  | .exists | .hasChanged => some (.compare c ⟨t.name, .null⟩)
  | c => some (.compare c ⟨t.name, scalarOrNull t.value⟩)

mutual

/-- **What is left of an expression,** none if that is nothing.  Everything is left out, and so is
every group that has no operands by then. -/
def simplified? : Expr → Option Expr
  | .and es => joined? .and (simplifiedAll es)
  | .or es => joined? .or (simplifiedAll es)
  | .not e => (simplified? e).map .not
  | .all => none
  | .compare c t => simplifiedCompare? c t

/-- What is left of several expressions. -/
def simplifiedAll : List Expr → List Expr
  | [] => []
  | e :: es => (simplified? e).toList ++ simplifiedAll es

end

/-- **The expression with the root of a tree:** an and or an or as it is, anything else as the one
operand of an or. -/
def rooted : Expr → Expr
  | .and es => .and es
  | .or es => .or es
  | e => .or [e]

/-! ## Expressions of nodes of expressions -/

/-- And and or join expressions, unless there are none. -/
lemma join?_and (es : List Expr) : Connective.and.join? es = joined? .and es := by
  cases es <;> rfl

lemma join?_or (es : List Expr) : Connective.or.join? es = joined? .or es := by
  cases es <;> rfl

/-- The value that a rule holds for a value of an expression. -/
lemma getD_map_toJson_ofJson? (j : Json) :
    ((Scalar.ofJson? j).map Scalar.toJson).getD .null = scalarOrNull j := by
  cases j <;> rfl

/-- The equality that a value of a membership is turned into. -/
lemma toExpr_equals (name : String) (j : Json) :
    (Rule.make name .equals (Scalar.ofJson? j)).toExpr = Expr.equals name (scalarOrNull j) := by
  rw [← getD_map_toJson_ofJson?]
  rfl

lemma toExprs_equals (name : String) (js : List Json) :
    Node.toExprs (js.map fun j => .rule (Rule.make name .equals (Scalar.ofJson? j))) =
      js.map fun j => Expr.equals name (scalarOrNull j) := by
  induction js with
  | nil => rfl
  | cons j js ih => rw [List.map_cons, List.map_cons, Node.toExprs, Node.toExpr?, ih, toExpr_equals]

/-- **A comparison comes back as what is left of it.** -/
lemma toExpr?_toNode_compare (c : Comparison) (t : Target) :
    (c.toNode t).toExpr? = simplifiedCompare? c t := by
  obtain ⟨name, j⟩ := t
  cases c with
  | isIn =>
      have hor : (Comparison.isIn.toNode ⟨name, j⟩).toExpr? =
          joined? .or
            ((Target.values ⟨name, j⟩).map fun k => Expr.equals name (scalarOrNull k)) := by
        rw [← toExprs_equals, ← join?_or]
        rfl
      rw [hor]
      cases j <;> rfl
  | «exists» | hasChanged => rfl
  | _ =>
      have hj := getD_map_toJson_ofJson? j
      simp [Comparison.toNode, Comparison.toRule?, Node.toExpr?, Rule.make, Rule.toExpr,
        Operator.takesValue, Operator.isNegated, Operator.positive?, Comparison.ofRule,
        simplifiedCompare?, hj]

mutual

/-- **The expression of an expression's node is what is left of the expression.** -/
theorem toExpr?_toNode : ∀ e : Expr, e.toNode.toExpr? = simplified? e
  | .and es => by rw [Expr.toNode, Node.toExpr?, join?_and, toExprs_toNodes es, simplified?]
  | .or es => by rw [Expr.toNode, Node.toExpr?, join?_or, toExprs_toNodes es, simplified?]
  | .not e => by rw [Expr.toNode, Node.toExpr?_negation, toExpr?_toNode e, simplified?]
  | .all => rfl
  | .compare c t => by rw [Expr.toNode, toExpr?_toNode_compare, simplified?]

lemma toExprs_toNodes : ∀ es : List Expr, Node.toExprs (Expr.toNodes es) = simplifiedAll es
  | [] => rfl
  | e :: es => by
      rw [Expr.toNodes, Node.toExprs, simplifiedAll, toExpr?_toNode e, toExprs_toNodes es]
      cases simplified? e <;> rfl

end

/-! ## The root -/

/-- A rule is expressed by a comparison or its negation, so it is no root by itself. -/
lemma rooted_toExpr (r : Rule) : rooted r.toExpr = .or [r.toExpr] := by
  rw [Rule.toExpr]
  split_ifs <;> rfl

/-- **The root that a tree is given becomes the root of its expression.** -/
lemma toExpr?_ofNode (n : Node) : (Group.ofNode n).toExpr? = n.toExpr?.map rooted := by
  cases n with
  | rule r => exact congrArg some (rooted_toExpr r).symm
  | group c i ns =>
      cases c with
      | and =>
          change (Node.group .and i ns).toExpr? = _
          rw [Node.toExpr?, join?_and]
          cases Node.toExprs ns <;> rfl
      | or =>
          change (Node.group .or i ns).toExpr? = _
          rw [Node.toExpr?, join?_or]
          cases Node.toExprs ns <;> rfl
      | not =>
          change (Node.group .or 0 [.group .not i ns]).toExpr? = _
          rw [Node.toExpr?, Node.toExprs, Node.toExprs, Node.toExpr?]
          match Node.toExprs ns with
          | [] | [_] | _ :: _ :: _ => rfl

/-- **An expression comes back as what is left of it, with the root of a tree;** if nothing is left
there is no expression. -/
theorem toExpr?_ofExpr (e : Expr) : (Group.ofExpr e).toExpr? = (simplified? e).map rooted := by
  rw [Group.ofExpr, Group.toExpr?_numbered, toExpr?_ofNode, toExpr?_toNode]

/-- Two negations stay, over a membership with a list among its values and beside an or that is left
with nothing. -/
example :
    (Group.ofExpr (.not (.not (.and [.compare .isIn ⟨"cn", .array [.string "a", .array []]⟩,
        .or [.not .all], .not (.not (.compare .exists ⟨"mail", .bool true⟩))])))).toExpr? =
      some (.or [.not (.not (.and [.or [Expr.equals "cn" (.string "a"), Expr.equals "cn" .null],
        .not (.not (Expr.isPresent "mail"))]))]) := rfl

end AccessFilter.Governance
