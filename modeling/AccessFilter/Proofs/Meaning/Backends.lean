import AccessFilter.Proofs.Except
import AccessFilter.Proofs.Ldap.Canonical
import AccessFilter.Proofs.Meaning.Expression

/-!
# What a tree means in a filter and as an expression

A tree is sent to one service as a filter text and to another as an expression.  The text keeps
every group, one without children as the filter that every record passes; the expression leaves
groups without rules out.  So the two mean the same if every such group is neutral where it stands,
and in general the expression means what is left of the filter without them.

* `Rule.leaf` — what a rule tests, its negation left out.
* `Ldap.formula`, `Ldap.formulaText?` — what the filter text of a tree says, and the text that says
  it.
* **`Ldap.toOption_nodeText`** — the text of a node is the text of its formula.
* **`Ldap.map_toExpr?_eq_value?`** — the expression of a node says what is left of the formula.
* **`Ldap.print_and_passes_toExpr?`** — both, for trees.
* `Ldap.not_forall_passes_toExpr?_eq_holds` — an or with an empty or in it means two things.
-/

namespace AccessFilter

/-- What a rule tests, its negation left out: its comparison with its target. -/
def Rule.leaf (r : Rule) : Comparison × Target :=
  (Comparison.ofRule r.operator, ⟨r.field,
    if r.operator.takesValue then (r.value.map Scalar.toJson).getD .null else .null⟩)

namespace Ldap

/-! ## The formula of a filter text -/

/-- A negated rule says the negation of the rule that it negates. -/
def ruleFormula (r : Rule) : Formula Rule :=
  match r.operator.positive? with
  | some operator => .join .not [.atom { r with operator }]
  | none => .atom r

mutual

/-- What the text of a node says.  A group without children passes every record. -/
def nodeFormula : Node → Formula Rule
  | .rule r => ruleFormula r
  | .group _ _ [] => .join .and []
  | .group c _ (n :: ns) => .join c (nodeFormula n :: nodeFormulas ns)

/-- What the texts of several nodes say. -/
def nodeFormulas : List Node → List (Formula Rule)
  | [] => []
  | n :: ns => nodeFormula n :: nodeFormulas ns

end

/-- **What the filter text of a tree says.** -/
def formula (g : Group) : Formula Rule :=
  nodeFormula (outermost g)

mutual

/-- **The text that says a formula,** none if it asks for a change. -/
def formulaText? : Formula Rule → Option (List Char)
  | .atom r => (ruleText r).toOption
  | .join c fs => (formulaTexts? fs).map fun operands => '(' :: sign c :: operands ++ [')']

/-- The texts of several formulas, one after the other. -/
def formulaTexts? : List (Formula Rule) → Option (List Char)
  | [] => some []
  | f :: fs => (formulaText? f).bind fun first => (formulaTexts? fs).map (first ++ ·)

end

lemma toOption_ruleText (r : Rule) : (ruleText r).toOption = formulaText? (ruleFormula r) := by
  obtain ⟨op, field, value, i, temporal⟩ := r
  cases op <;> simp [ruleText, ruleFormula, Operator.positive?, formulaText?, formulaTexts?, sign,
    negated, Except.toOption]

/-- A text that is put together from two is there if both are. -/
lemma toOption_joined (x y : Except Failure (List Char)) (f : List Char → List Char → List Char) :
    (do let a ← x; let b ← y; return f a b : Except Failure (List Char)).toOption =
      x.toOption.bind fun a => y.toOption.map (f a) := by
  cases x <;> cases y <;> rfl

mutual

/-- **The text of a node is the text of its formula.** -/
theorem toOption_nodeText : ∀ n : Node, (nodeText n).toOption = formulaText? (nodeFormula n)
  | .rule r => by rw [nodeText, nodeFormula, toOption_ruleText]
  | .group c i [] => rfl
  | .group c i (n :: ns) => by
      have hn := toOption_nodeText n
      have hns := toOption_nodeTexts ns
      rw [nodeText, nodeFormula, formulaText?, formulaTexts?, toOption_joined, hn, hns]
      simp [Option.map_bind, Function.comp_def]

lemma toOption_nodeTexts : ∀ ns : List Node,
    (nodeTexts ns).toOption = formulaTexts? (nodeFormulas ns)
  | [] => rfl
  | n :: ns => by
      have hn := toOption_nodeText n
      have hns := toOption_nodeTexts ns
      rw [nodeTexts, nodeFormulas, formulaTexts?, toOption_joined, hn, hns]

end

/-! ## The expression of a tree -/

section

variable (v : Comparison × Target → Bool)

/-- The expression of a rule says what its text says. -/
lemma holds_formula_toExpr (r : Rule) :
    some (r.toExpr.formula.holds v) = (ruleFormula r).value? (v ∘ Rule.leaf) := by
  obtain ⟨op, field, value, i, temporal⟩ := r
  cases op <;> rfl

mutual

/-- **The expression of a node says what is left of its formula** without the groups that have no
rules. -/
theorem map_toExpr?_eq_value? : ∀ n : Node, n.NotsSingle →
    n.toExpr?.map (fun e => e.formula.holds v) = (nodeFormula n).value? (v ∘ Rule.leaf)
  | .rule r, _ => holds_formula_toExpr v r
  | .group c i [], _ => by cases c <;> rfl
  | .group c i (n :: ns), h => by
      have hlen : c = .not → (Node.toExprs (n :: ns)).length ≤ 1 := by
        intro hc
        rw [← h.1 hc]
        exact Governance.length_toExprs_le (n :: ns)
      have hns := map_toExprs_eq_filterMap (n :: ns) h.2
      rw [Node.toExpr?, map_join? hlen, hns, nodeFormula, Formula.value?_join, nodeFormulas]

lemma map_toExprs_eq_filterMap : ∀ ns : List Node, Node.NotsSingleAll ns →
    (Node.toExprs ns).map (fun e => e.formula.holds v) =
      (nodeFormulas ns).filterMap (Formula.value? (v ∘ Rule.leaf))
  | [], _ => rfl
  | n :: ns, h => by
      have hn := map_toExpr?_eq_value? n h.1
      have hns := map_toExprs_eq_filterMap ns h.2
      rw [nodeFormulas, List.filterMap_cons, ← hn, ← hns, Node.toExprs]
      cases n.toExpr? <;> rfl

end

/-- The or around a root that is left out of the text makes no difference to the expression. -/
lemma map_toExpr?_outermost (g : Group) :
    (outermost g).toExpr?.map (fun e => e.formula.holds v) =
      g.toExpr?.map fun e => e.formula.holds v := by
  unfold outermost
  split
  · exact (map_toExpr?_or_singleton v _ _).symm
  · exact (map_toExpr?_or_singleton v _ _).symm
  · rfl

end

/-! ## Both -/

/-- **What a tree means in a filter and as an expression.**  The filter text says the formula of the
tree, and the expression what is left of it without the groups that have no rules; if nothing is
left, every record passes.  The two mean the same if these groups are neutral where they stand. -/
theorem print_and_passes_toExpr? (g : Group) (h : g.NotsSingle) (v : Comparison × Target → Bool) :
    (print g).toOption = (formulaText? (formula g)).map String.ofList ∧
      Expr.passes v g.toExpr? = ((formula g).value? (v ∘ Rule.leaf)).getD true ∧
      ((formula g).trimmableUnder .and = true →
        Expr.passes v g.toExpr? = (formula g).holds (v ∘ Rule.leaf)) := by
  have htext : (print g).toOption = (formulaText? (formula g)).map String.ofList := by
    rw [print, formula, ← toOption_nodeText]
    cases nodeText (outermost g) <;> rfl
  have hvalue : Expr.passes v g.toExpr? = ((formula g).value? (v ∘ Rule.leaf)).getD true := by
    have hnots := notsSingle_outermost (g.notsSingle_iff.mp h)
    rw [Expr.passes_eq_getD, ← map_toExpr?_outermost, map_toExpr?_eq_value? v _ hnots, formula]
  refine ⟨htext, hvalue, ?_⟩
  intro htrim
  rw [hvalue]
  exact Formula.getD_value?_of_trimmableUnder _ _ htrim

/-- An empty or in an and, next to a not of an or of a negated rule and a presence. -/
def emptiedTree : Group :=
  ⟨.and, 0, [.group .or 1 [], .group .not 2 [.group .or 3 [
    .rule ⟨.notEquals, "cn", some (.text "a"), 4, .after⟩,
    .rule ⟨.exists, "mail", some (.text "x"), 5, .before⟩]]]⟩

theorem print_and_passes_toExpr?_emptiedTree :
    emptiedTree.NotsSingle ∧
      (print emptiedTree).toOption = some "(&(&)(!(|(!(cn=a))(mail=*))))" ∧
      (formula emptiedTree).trimmableUnder .and = true ∧
      Expr.passes (fun l => l.2.name == "cn") emptiedTree.toExpr? = true := by
  have h : emptiedTree.NotsSingle := by decide
  have htrim : (formula emptiedTree).trimmableUnder .and = true := by decide
  have hboth := print_and_passes_toExpr? emptiedTree h fun l => l.2.name == "cn"
  refine ⟨h, ?_, htrim, ?_⟩
  · rw [hboth.1]
    rfl
  · rw [hboth.2.2 htrim]
    decide

/-- An empty or in an or passes every record as a filter, and only the rule is left of the two as an
expression. -/
theorem not_forall_passes_toExpr?_eq_holds :
    ¬ ∀ g : Group, g.NotsSingle → ∀ v : Comparison × Target → Bool,
      Expr.passes v g.toExpr? = (formula g).holds (v ∘ Rule.leaf) := by
  intro hall
  have h := hall ⟨.or, 0, [.rule ⟨.equals, "cn", some (.text "alice"), 1, .after⟩,
    .group .or 2 []]⟩ (by decide) fun _ => false
  revert h
  decide

end Ldap

end AccessFilter
