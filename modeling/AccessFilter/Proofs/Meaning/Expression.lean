import AccessFilter.Proofs.Governance.Canonical
import AccessFilter.Proofs.Meaning.Formula
import AccessFilter.Proofs.Query.Normal
import AccessFilter.Proofs.Tree.Numbering

/-!
# What an expression says, and what an editor keeps of it

An editor turns an expression into a tree and the tree into an expression again.  On the way in
everything becomes an and without operands, and a membership without values an or without operands;
on the way out groups without content disappear.  So what comes out says what is left of the
expression without these parts and without what consists of such parts only.  That is what the
expression itself says as long as what is left out is neutral: everything may stand alone and in an
and, but not in an or and not under a not.

* `Expr.formula` — what an expression says, over comparisons with their targets.
* `Expr.passes` — whether a record passes a search; without an expression every record does.
* `Node.toExpr?_negation`, `Group.toExpr?_numbered`, `Group.map_toExpr?_ofNode` — the expressions of
  negated nodes, of numbered trees and of nodes with an or around them.
* **`passes_toExpr?_ofExpr`** — what the expression says that comes out.
* `passes_toExpr?_ofExpr_or_all_ne` — an or of everything and a comparison comes out as the
  comparison.
-/

namespace AccessFilter

/-! ## The formula of an expression -/

/-- What a comparison says.  Presence and change do not look at the value, and membership is an or
of equalities. -/
def Comparison.formula (c : Comparison) (t : Target) : Formula (Comparison × Target) :=
  match c with
  | .isIn => .join .or (t.values.map fun j => .atom (.equals, ⟨t.name, j⟩))
  | .exists => .atom (.exists, ⟨t.name, .null⟩)
  | .hasChanged => .atom (.hasChanged, ⟨t.name, .null⟩)
  | c => .atom (c, t)

namespace Expr

mutual

/-- **What an expression says.** -/
def formula : Expr → Formula (Comparison × Target)
  | and es => .join .and (formulas es)
  | or es => .join .or (formulas es)
  | not e => .join .not [e.formula]
  | all => .join .and []
  | compare c t => c.formula t

/-- What several expressions say. -/
def formulas : List Expr → List (Formula (Comparison × Target))
  | [] => []
  | e :: es => e.formula :: formulas es

end

lemma holdsAll_formulas (v : Comparison × Target → Bool) (es : List Expr) :
    Formula.holdsAll v (formulas es) = es.map fun e => e.formula.holds v := by
  induction es with
  | nil => rfl
  | cons e es ih => rw [formulas, Formula.holdsAll, ih, List.map_cons]

/-- **Whether a record passes a search** when these comparisons are true of it.  Without an
expression every record does. -/
def passes (v : Comparison × Target → Bool) : Option Expr → Bool
  | none => true
  | some e => e.formula.holds v

lemma passes_eq_getD (v : Comparison × Target → Bool) (e : Option Expr) :
    passes v e = (e.map fun e => e.formula.holds v).getD true := by
  cases e <;> rfl

end Expr

/-! ## Expressions of nodes -/

/-- **A joined expression says what its connective makes of its operands.** -/
lemma map_join? {c : Connective} {es : List Expr} (h : c = .not → es.length ≤ 1)
    (v : Comparison × Target → Bool) :
    (c.join? es).map (fun e => e.formula.holds v) =
      c.combine? (es.map fun e => e.formula.holds v) := by
  cases c with
  | and | or =>
      cases es with
      | nil => rfl
      | cons e es =>
          rw [Connective.join?, Option.map_some, Expr.formula, Formula.holds,
            Expr.holdsAll_formulas]
          rfl
  | not =>
      cases es with
      | nil => rfl
      | cons e es =>
          have hes : es = [] := by simpa using h rfl
          rw [hes]
          rfl

/-- A not has the negation of the expression of what it negates. -/
lemma Node.toExpr?_not (i : Nat) (n : Node) :
    (Node.group .not i [n]).toExpr? = n.toExpr?.map .not := by
  rw [Node.toExpr?, Node.toExprs, Node.toExprs]
  cases n.toExpr? <;> rfl

/-- The negation of a node has the negation of its expression. -/
lemma Node.toExpr?_negation (n : Node) : n.negation.toExpr? = n.toExpr?.map .not := by
  cases n with
  | group c i ns => exact Node.toExpr?_not 0 _
  | rule r =>
      obtain ⟨op, field, value, i, temporal⟩ := r
      cases op <;> rfl

mutual

lemma Node.toExpr?_cleared : ∀ n : Node, n.cleared.toExpr? = n.toExpr?
  | .rule r => rfl
  | .group c i ns => by rw [Node.cleared, Node.toExpr?, Node.toExpr?, Node.toExprs_clearedAll ns]

lemma Node.toExprs_clearedAll : ∀ ns : List Node,
    Node.toExprs (Node.clearedAll ns) = Node.toExprs ns
  | [] => rfl
  | n :: ns => by
      rw [Node.clearedAll, Node.toExprs, Node.toExprs, Node.toExpr?_cleared n,
        Node.toExprs_clearedAll ns]

end

/-- **The expression of a tree does not depend on its indices.** -/
lemma Group.toExpr?_numbered (g : Group) : g.numbered.toExpr? = g.toExpr? := by
  have hcleared : ∀ h : Group, h.cleared.toExpr? = h.toExpr? := fun h =>
    Node.toExpr?_cleared h.toNode
  rw [← hcleared g.numbered, Group.cleared_numbered, hcleared]

/-- An or around one node says what the node says. -/
lemma map_toExpr?_or_singleton (v : Comparison × Target → Bool) (i : Nat) (n : Node) :
    (Node.group .or i [n]).toExpr?.map (fun e => e.formula.holds v) =
      n.toExpr?.map fun e => e.formula.holds v := by
  rw [Node.toExpr?, map_join? (by simp), Node.toExprs, Node.toExprs]
  cases n.toExpr? with
  | none => rfl
  | some e => simp [Connective.combine?, Connective.combine]

lemma Group.map_toExpr?_ofNode (v : Comparison × Target → Bool) (n : Node) :
    (Group.ofNode n).toExpr?.map (fun e => e.formula.holds v) =
      n.toExpr?.map fun e => e.formula.holds v := by
  cases n with
  | rule r => exact map_toExpr?_or_singleton v 0 _
  | group c i ns =>
      cases c with
      | and | or => rfl
      | not => exact map_toExpr?_or_singleton v 0 _

/-! ## Expressions of nodes of expressions -/

/-- Whether a value is one that a rule can hold; null is the one of a rule without a value. -/
def Json.isScalar : Json → Bool
  | .array _ | .object _ => false
  | _ => true

lemma getD_map_toJson {j : Json} (h : j.isScalar = true) :
    ((Scalar.ofJson? j).map Scalar.toJson).getD .null = j := by
  cases j with
  | array | object => cases h
  | _ => rfl

/-- An equality that a membership is turned into says what it said in the membership. -/
lemma formula_toExpr_equals (name : String) {j : Json} (h : j.isScalar = true) :
    (Rule.make name .equals (Scalar.ofJson? j)).toExpr.formula =
      .atom (.equals, ⟨name, j⟩) := by
  have hj := getD_map_toJson h
  simp [Rule.make, Rule.toExpr, Operator.takesValue, Operator.isNegated, Operator.positive?,
    Comparison.ofRule, Expr.formula, Comparison.formula, hj]

section

variable (v : Comparison × Target → Bool)

/-- The equalities that a membership is turned into, one for each of its values. -/
lemma map_toExprs_equals (name : String) (js : List Json) (h : ∀ j ∈ js, j.isScalar = true) :
    (Node.toExprs (js.map fun j => .rule (Rule.make name .equals (Scalar.ofJson? j)))).map
        (fun e => e.formula.holds v) =
      (js.map fun j => Formula.atom (Comparison.equals, Target.mk name j)).filterMap
        (Formula.value? v) := by
  induction js with
  | nil => rfl
  | cons j js ih =>
      have hj := formula_toExpr_equals name (h j List.mem_cons_self)
      have hjs := ih fun k hk => h k (List.mem_cons_of_mem j hk)
      simp only [List.map_cons, List.filterMap_cons, Formula.value?_atom, Node.toExprs,
        Node.toExpr?, hj, Formula.holds_atom, hjs]

/-- **A comparison with scalars says in a tree what it said in the expression.** -/
lemma map_toExpr?_toNode_compare (c : Comparison) (t : Target)
    (h : ∀ j ∈ Query.comparedValues c t, j.isScalar = true) :
    (c.toNode t).toExpr?.map (fun e => e.formula.holds v) = (c.formula t).value? v := by
  cases c with
  | isIn =>
      have hvalues := map_toExprs_equals v t.name t.values h
      show (Node.group .or 0 _).toExpr?.map _ = (Formula.join .or _).value? v
      rw [Node.toExpr?, map_join? (by simp), Formula.value?_join, hvalues]
  | «exists» | hasChanged => rfl
  | _ =>
      have hj := getD_map_toJson (h t.value (List.mem_singleton_self t.value))
      simp [Comparison.toNode, Comparison.toRule?, Node.toExpr?, Rule.make, Rule.toExpr,
        Operator.takesValue, Operator.isNegated, Operator.positive?, Comparison.ofRule,
        Expr.formula, Comparison.formula, hj]

mutual

/-- **What an editor keeps of an expression** is what is left of it without the parts that have no
comparisons. -/
theorem map_toExpr?_toNode : ∀ e : Expr,
    (∀ l ∈ Query.leaves e, ∀ j ∈ Query.comparedValues l.1 l.2, j.isScalar = true) →
    e.toNode.toExpr?.map (fun e => e.formula.holds v) = e.formula.value? v
  | .and es, h | .or es, h => by
      rw [Expr.toNode, Node.toExpr?, map_join? (by simp), map_toExprs_toNodes es h, Expr.formula,
        Formula.value?_join]
  | .not e, h => by
      have ih := map_toExpr?_toNode e h
      rw [Expr.toNode, Node.toExpr?_negation, Expr.formula, Formula.value?_join,
        List.filterMap_cons, List.filterMap_nil, ← ih]
      cases e.toNode.toExpr? with
      | none => rfl
      | some d => rfl
  | .all, _ => rfl
  | .compare c t, h => map_toExpr?_toNode_compare v c t (h (c, t) (List.mem_singleton_self _))

lemma map_toExprs_toNodes : ∀ es : List Expr,
    (∀ l ∈ Query.leavesAll es, ∀ j ∈ Query.comparedValues l.1 l.2, j.isScalar = true) →
    (Node.toExprs (Expr.toNodes es)).map (fun e => e.formula.holds v) =
      (Expr.formulas es).filterMap (Formula.value? v)
  | [], _ => rfl
  | e :: es, h => by
      rw [Query.leavesAll, List.forall_mem_append] at h
      have ihe := map_toExpr?_toNode e h.1
      have ihes := map_toExprs_toNodes es h.2
      rw [Expr.toNodes, Expr.formulas, List.filterMap_cons, ← ihe, Node.toExprs]
      cases e.toNode.toExpr? with
      | none => exact ihes
      | some d => exact congrArg _ ihes

end

end

/-! ## The way in and out -/

/-- **What comes out of an editor says what is left of the expression that went in** without
everything, without memberships that list no values, and without what consists of these only; every
record passes if nothing is left.  If these parts are neutral where they stand, the expression means
the same as before. -/
theorem passes_toExpr?_ofExpr (e : Expr)
    (h : ∀ l ∈ Query.leaves e, ∀ j ∈ Query.comparedValues l.1 l.2, j.isScalar = true)
    (v : Comparison × Target → Bool) :
    Expr.passes v (Group.ofExpr e).toExpr? = (e.formula.value? v).getD true ∧
      (e.formula.trimmableUnder .and = true →
        Expr.passes v (Group.ofExpr e).toExpr? = e.formula.holds v) := by
  have hvalue : Expr.passes v (Group.ofExpr e).toExpr? = (e.formula.value? v).getD true := by
    rw [Expr.passes_eq_getD, Group.ofExpr, Group.toExpr?_numbered, Group.map_toExpr?_ofNode,
      map_toExpr?_toNode v e h]
  refine ⟨hvalue, ?_⟩
  intro htrim
  rw [hvalue]
  exact Formula.getD_value?_of_trimmableUnder v e.formula htrim

/-- Everything and a negated or, of a membership and a presence with a value that is not looked
at. -/
def guardedExpr : Expr :=
  .and [.all, .not (.or [.compare .isIn ⟨"cn", .array [.string "a", .null, .bool true]⟩,
    .not (.compare .exists ⟨"mail", .array []⟩)])]

theorem passes_toExpr?_ofExpr_guardedExpr :
    (∀ l ∈ Query.leaves guardedExpr, ∀ j ∈ Query.comparedValues l.1 l.2, j.isScalar = true) ∧
      guardedExpr.formula.trimmableUnder .and = true ∧
      Expr.passes (fun l => l.2.name == "mail") (Group.ofExpr guardedExpr).toExpr? = true := by
  have h : ∀ l ∈ Query.leaves guardedExpr, ∀ j ∈ Query.comparedValues l.1 l.2,
      j.isScalar = true := by
    decide
  have htrim : guardedExpr.formula.trimmableUnder .and = true := by decide
  refine ⟨h, htrim, ?_⟩
  rw [(passes_toExpr?_ofExpr guardedExpr h _).2 htrim]
  decide

/-- Everything is not neutral in an or: it is left out there, and only the comparison comes out. -/
theorem passes_toExpr?_ofExpr_or_all_ne :
    Expr.passes (fun _ => false)
        (Group.ofExpr (.or [.all, .compare .equals ⟨"cn", .string "alice"⟩])).toExpr? ≠
      (Expr.or [.all, .compare .equals ⟨"cn", .string "alice"⟩]).formula.holds fun _ => false := by
  decide

end AccessFilter
