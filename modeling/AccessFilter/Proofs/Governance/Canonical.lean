import AccessFilter.Governance.Conversion
import AccessFilter.Proofs.Tree.Shape

/-!
# What comes back of a tree that is turned into an expression

Expressions have fewer ways to say a thing than trees have: they know no negated comparisons, no
groups without content, no state before a change and no indices.  So a tree that is turned into an
expression and back comes back in another form, which is defined here without the two conversions.

* `canonicalRule`, `denial`, `canonicalNode`, `canonical` — the form in which a tree comes back.
* **`toExpr?_eq_none_iff`** — a tree has no expression exactly if it has no rules.
* **`toNode_of_toExpr?_eq`** — the node of a node's expression is its canonical form.
* **`map_ofExpr_toExpr?`** — hence a tree with rules comes back as its canonical form.
-/

namespace AccessFilter.Governance

/-! ## The canonical form -/

/-- **The form in which a rule comes back:** without a value if its operator takes none, on the
state after a change, and not yet numbered. -/
def canonicalRule (r : Rule) : Rule :=
  Rule.make r.field r.operator (if r.operator.takesValue then r.value else none)

/-- What a not around a node comes back as.  Four operators have a negated form. -/
def denial : Node → Node
  | .rule r =>
    match r.operator with
    | .equals => .rule { r with operator := .notEquals }
    | .contains => .rule { r with operator := .notContains }
    | .exists => .rule { r with operator := .notExists }
    | .hasChanged => .rule { r with operator := .hasNotChanged }
    | _ => .group .not 0 [.rule r]
  | n => .group .not 0 [n]

mutual

/-- **The form in which a node comes back.** -/
def canonicalNode : Node → Node
  | .rule r => .rule (canonicalRule r)
  | .group .not _ [n] => denial (canonicalNode n)
  | .group c _ ns => .group c 0 (canonicalNodes ns)

/-- The forms in which several nodes come back.  Nodes without rules do not. -/
def canonicalNodes : List Node → List Node
  | [] => []
  | n :: ns =>
    if n.rules = [] then canonicalNodes ns else canonicalNode n :: canonicalNodes ns

end

/-- **The form in which a tree comes back,** not yet numbered.  Around a root that is no and and no
or by then there is an or. -/
def canonical (g : Group) : Group :=
  Group.ofNode (canonicalNode g.toNode)

/-! ## Nodes without an expression -/

/-- Expressions are joined unless there are none, or a not is given several. -/
lemma join?_eq_none_iff {c : Connective} {es : List Expr} (h : c = .not → es.length ≤ 1) :
    c.join? es = none ↔ es = [] := by
  cases c with
  | and | or => cases es <;> simp [Connective.join?]
  | not =>
      match es, h rfl with
      | [], _ | [_], _ => simp [Connective.join?]

lemma toExprs_eq_filterMap (ns : List Node) : Node.toExprs ns = ns.filterMap Node.toExpr? := by
  induction ns with
  | nil => rfl
  | cons n ns ih =>
      rw [Node.toExprs, List.filterMap_cons, ih]
      cases n.toExpr? <;> rfl

lemma length_toExprs_le (ns : List Node) : (Node.toExprs ns).length ≤ ns.length := by
  rw [toExprs_eq_filterMap]
  exact List.length_filterMap_le _ ns

mutual

/-- **A node has no expression exactly if it has no rules.** -/
lemma toExpr?_eq_none_iff : ∀ n : Node, n.NotsSingle → (n.toExpr? = none ↔ n.rules = [])
  | .rule r, _ => by simp [Node.toExpr?, Node.rules]
  | .group c i ns, h => by
      have hlen : c = .not → (Node.toExprs ns).length ≤ 1 := by
        intro hc
        rw [← h.1 hc]
        exact length_toExprs_le ns
      rw [Node.toExpr?, join?_eq_none_iff hlen, toExprs_eq_nil_iff ns h.2, Node.rules]

lemma toExprs_eq_nil_iff : ∀ ns : List Node, Node.NotsSingleAll ns →
    (Node.toExprs ns = [] ↔ Node.rulesAll ns = [])
  | [], _ => by simp [Node.toExprs, Node.rulesAll]
  | n :: ns, h => by
      have hn := toExpr?_eq_none_iff n h.1
      have hns := toExprs_eq_nil_iff ns h.2
      rw [Node.toExprs, Node.rulesAll, List.append_eq_nil_iff, ← hn]
      cases n.toExpr? <;> simp [hns]

end

/-! ## The node of an expression of a node -/

/-- Every value of a rule comes back from its JSON form. -/
lemma ofJson?_toJson (v : Scalar) : Scalar.ofJson? v.toJson = some v := by
  cases v <;> rfl

lemma ofJson?_getD_toJson (v : Option Scalar) :
    Scalar.ofJson? ((v.map Scalar.toJson).getD .null) = v := by
  cases v with
  | none => rfl
  | some v => exact ofJson?_toJson v

lemma negation_eq_denial (n : Node) : n.negation = denial n := by
  cases n with
  | group c i ns => rfl
  | rule r =>
      obtain ⟨op, field, v, i, temporal⟩ := r
      cases op <;> rfl

/-- **A rule comes back from its expression.** -/
lemma toNode_toExpr (r : Rule) : r.toExpr.toNode = .rule (canonicalRule r) := by
  obtain ⟨op, field, v, i, temporal⟩ := r
  have hv := ofJson?_getD_toJson v
  cases op <;>
    simp [Rule.toExpr, Comparison.ofRule, Operator.isNegated, Operator.positive?, Expr.toNode,
      Comparison.toNode, Comparison.toRule?, Node.negation, Operator.negative?, canonicalRule,
      Rule.make, Operator.takesValue, hv]

/-- Expressions that are joined by and or or become nodes that are joined by it. -/
lemma toNode_of_join?_eq {c : Connective} (hc : c ≠ .not) {es : List Expr} {e : Expr}
    (h : c.join? es = some e) : e.toNode = .group c 0 (Expr.toNodes es) := by
  cases c with
  | not => exact absurd rfl hc
  | and | or =>
      cases es with
      | nil => cases h
      | cons d es =>
          obtain rfl := Option.some.inj h
          rw [Expr.toNode]

lemma canonicalNode_group {c : Connective} (hc : c ≠ .not) (i : Nat) (ns : List Node) :
    canonicalNode (.group c i ns) = .group c 0 (canonicalNodes ns) := by
  rw [canonicalNode]
  exact fun _ h => absurd h hc

mutual

/-- **The node of a node's expression is the canonical form of the node.** -/
theorem toNode_of_toExpr?_eq : ∀ (n : Node) {e : Expr}, n.NotsSingle → n.toExpr? = some e →
    e.toNode = canonicalNode n
  | .rule r, e, _, he => by
      obtain rfl := Option.some.inj he
      rw [canonicalNode, toNode_toExpr]
  | .group c i ns, e, h, he => by
      rw [Node.toExpr?] at he
      by_cases hc : c = .not
      · subst hc
        obtain ⟨n, rfl⟩ := List.length_eq_one_iff.mp (h.1 rfl)
        rw [Node.toExprs, Node.toExprs] at he
        cases hn : n.toExpr? with
        | none =>
            rw [hn] at he
            cases he
        | some d =>
            rw [hn] at he
            obtain rfl := Option.some.inj he
            rw [Expr.toNode, toNode_of_toExpr?_eq n h.2.1 hn, negation_eq_denial, canonicalNode]
      · rw [toNode_of_join?_eq hc he, toNodes_toExprs ns h.2, canonicalNode_group hc]

lemma toNodes_toExprs : ∀ ns : List Node, Node.NotsSingleAll ns →
    Expr.toNodes (Node.toExprs ns) = canonicalNodes ns
  | [], _ => rfl
  | n :: ns, h => by
      have hnone := toExpr?_eq_none_iff n h.1
      rw [Node.toExprs, canonicalNodes]
      cases he : n.toExpr? with
      | none => rw [if_pos (hnone.mp he), ← toNodes_toExprs ns h.2]
      | some e =>
          have hrules : n.rules ≠ [] := by
            rw [← hnone.ne, he]
            simp
          rw [if_neg hrules, Expr.toNodes, toNode_of_toExpr?_eq n h.1 he, toNodes_toExprs ns h.2]

end

/-! ## Trees -/

/-- **A tree comes back as its canonical form,** numbered from zero, if it has a rule.  Without
rules it has no expression. -/
theorem map_ofExpr_toExpr? (g : Group) (h : g.NotsSingle) :
    g.toExpr?.map Group.ofExpr =
      if g.rules = [] then none else some (canonical g).numbered := by
  rw [Group.notsSingle_iff] at h
  have hnone : g.toExpr? = none ↔ g.rules = [] := toExpr?_eq_none_iff g.toNode h
  cases he : g.toExpr? with
  | none => rw [if_pos (hnone.mp he), Option.map_none]
  | some e =>
      have hrules : g.rules ≠ [] := by
        rw [← hnone.ne, he]
        simp
      rw [if_neg hrules, Option.map_some, Group.ofExpr, toNode_of_toExpr?_eq g.toNode h he,
        canonical]

/-- A tree whose root is a not, with a value that presence does not look at, nots of a comparison
that has a negated form and of one that is negated already, and groups without rules. -/
def negatedTree : Group :=
  ⟨.not, 9, [.group .or 4 [.rule ⟨.exists, "mail", some (.text "x"), 3, .before⟩,
    .group .not 7 [.rule ⟨.contains, "cn", some (.text "a"), 2, .after⟩],
    .group .not 5 [.rule ⟨.notEquals, "uid", some (.bool true), 1, .after⟩],
    .group .and 2 [.group .or 1 []]]]⟩

theorem map_ofExpr_toExpr?_negatedTree :
    negatedTree.NotsSingle ∧ negatedTree.toExpr?.map Group.ofExpr =
      some ⟨.or, 0, [.group .not 1 [.group .or 2 [.rule ⟨.exists, "mail", none, 3, .after⟩,
        .rule ⟨.notContains, "cn", some (.text "a"), 4, .after⟩,
        .group .not 5 [.rule ⟨.notEquals, "uid", some (.bool true), 6, .after⟩]]]]⟩ := by
  have h : negatedTree.NotsSingle := by decide
  refine ⟨h, ?_⟩
  rw [map_ofExpr_toExpr? negatedTree h, if_neg (by decide)]
  rfl

end AccessFilter.Governance
