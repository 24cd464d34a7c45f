import AccessFilter.Proofs.Meaning.Formula
import AccessFilter.Proofs.Tree.Negation

/-!
# Pushing negations down keeps the meaning

What a tree means is the truth of its formula.  Of the rules no more is asked than that the opposite
of an equality rule has the opposite truth value.  Then a not and what it gives way to mean the
same, for one rule by that law and for a group of rules by De Morgan's.

* `Group.formula` — what a tree says, rule by rule.
* `Node.holds_formula_pushNegations` — the same meaning, for nodes.
* **`Group.holds_pushNegations`** — the same meaning, for trees.
-/

namespace AccessFilter

namespace Node

mutual

/-- What a node says.  The rules are its atoms, and indices say nothing. -/
def formula : Node → Formula Rule
  | rule r => .atom r
  | group c _ ns => .join c (formulas ns)

/-- What several nodes say. -/
def formulas : List Node → List (Formula Rule)
  | [] => []
  | n :: ns => n.formula :: formulas ns

end

end Node

/-- **What a tree says.** -/
def Group.formula (g : Group) : Formula Rule :=
  g.toNode.formula

/-- A truth assignment to rules under which a rule with the operator not-equals says the opposite of
the rule with equals.  The other operators have nothing to do with one another. -/
def Rule.Opposing (v : Rule → Bool) : Prop :=
  ∀ r : Rule, v { r with operator := .notEquals } = !v { r with operator := .equals }

section

variable {v : Rule → Bool}

lemma Rule.Opposing.eq_not_of_flipped? (hv : Rule.Opposing v) {r q : Rule}
    (h : r.flipped? = some q) : v q = !v r := by
  obtain ⟨op, field, value, index, temporal⟩ := r
  rcases Rule.flipped?_eq_some_iff.mp h with ⟨rfl, rfl⟩ | ⟨rfl, rfl⟩
  · exact hv ⟨.equals, field, value, index, temporal⟩
  · rw [← Bool.not_not (v _)]
    exact congrArg Bool.not (hv ⟨.notEquals, field, value, index, temporal⟩).symm

namespace Node

lemma Opposite.holds_eq_not (hv : Rule.Opposing v) {n m : Node} (h : Opposite n m) :
    m.formula.holds v = !n.formula.holds v := by
  obtain ⟨hq⟩ := h
  exact hv.eq_not_of_flipped? hq

lemma holdsAll_formulas_of_forall₂ (hv : Rule.Opposing v) {ns ms : List Node}
    (h : List.Forall₂ Opposite ns ms) :
    Formula.holdsAll v (formulas ms) = (Formula.holdsAll v (formulas ns)).map (!·) := by
  induction h with
  | nil => rfl
  | cons hn _ ih =>
      rw [formulas, formulas, Formula.holdsAll, Formula.holdsAll, List.map_cons, ih,
        hn.holds_eq_not hv]

lemma holds_group (c : Connective) (i : Nat) (ns : List Node) :
    (group c i ns).formula.holds v = c.combine (Formula.holdsAll v (formulas ns)) := by
  rw [formula, Formula.holds]

/-- A not says the negation of its child. -/
lemma holds_not (i : Nat) (n : Node) :
    (group .not i [n]).formula.holds v = !n.formula.holds v := by
  simp [holds_group, formulas, Formula.holdsAll, Connective.combine]

/-- **The dual of a group of rules, with their opposites in it, says the opposite.** -/
lemma holds_dual (hv : Rule.Opposing v) {c : Connective} (hc : c ≠ .not) (i j : Nat)
    {ns ms : List Node} (h : List.Forall₂ Opposite ns ms) :
    (group c.dual i ms).formula.holds v = !(group c j ns).formula.holds v := by
  rw [holds_group, holds_group, holdsAll_formulas_of_forall₂ hv h, Connective.combine_dual hc]

mutual

/-- **Pushing negations down keeps what a node says.** -/
theorem holds_formula_pushNegations (hv : Rule.Opposing v) : ∀ n : Node,
    n.pushNegations.formula.holds v = n.formula.holds v
  | rule r => rfl
  | group c i ns => by
      by_cases hc : c = .not
      · subst hc
        rcases pushNegations_not i ns with hp | ⟨n, m, rfl, hm, hp⟩ |
          ⟨c, j, ms, ks, hc, rfl, hk, hp⟩
        · rw [hp]
        · rw [hp, holds_not, hm.holds_eq_not hv]
        · rw [hp, holds_not, holds_dual hv hc i j hk]
      · rw [pushNegations_group hc, holds_group, holds_group, holdsAll_pushAll hv ns]

lemma holdsAll_pushAll (hv : Rule.Opposing v) : ∀ ns : List Node,
    Formula.holdsAll v (formulas (pushAll ns)) = Formula.holdsAll v (formulas ns)
  | [] => rfl
  | n :: ns => by
      rw [pushAll, formulas, formulas, Formula.holdsAll, Formula.holdsAll,
        holds_formula_pushNegations hv n, holdsAll_pushAll hv ns]

end

end Node

namespace Group

/-- An or of one node says what the node says. -/
lemma holds_or_singleton (i : Nat) (n : Node) :
    (Group.formula ⟨.or, i, [n]⟩).holds v = n.formula.holds v := by
  simp [formula, toNode, Node.holds_group, Node.formulas, Formula.holdsAll, Connective.combine]

/-- **Pushing negations down keeps what a tree says,** whatever the root becomes. -/
theorem holds_pushNegations (hv : Rule.Opposing v) (g : Group) :
    g.pushNegations.formula.holds v = g.formula.holds v := by
  obtain ⟨d, i, ns⟩ := g
  rcases pushNegations_cases ⟨d, i, ns⟩ with ⟨-, hp⟩ | ⟨hnot, hp | ⟨n, m, hn, hm, hp⟩ |
    ⟨c, j, ms, ks, hc, hn, hk, hp⟩⟩
  · rw [hp]
    exact congrArg d.combine (Node.holdsAll_pushAll hv ns)
  · rw [hp]
  · obtain rfl : d = .not := hnot
    obtain rfl : ns = [n] := hn
    rw [hp, holds_or_singleton, hm.holds_eq_not hv]
    exact (Node.holds_not i n).symm
  · obtain rfl : d = .not := hnot
    obtain rfl : ns = [.group c j ms] := hn
    rw [hp, holds_or_singleton, Node.holds_dual hv hc _ j hk]
    exact (Node.holds_not i _).symm

end Group

end

namespace Group

/-- A not of an or, in it a not of a not: the outer one stays.  Next to it a not that gives way. -/
def refusedTree : Group :=
  ⟨.and, 0, [.group .not 1 [.group .or 2 [.rule ⟨.contains, "a", none, 3, .after⟩,
    .group .not 4 [.group .not 5 [.rule ⟨.equals, "b", none, 6, .after⟩]]]],
    .group .not 7 [.group .and 8 [.rule ⟨.equals, "b", none, 9, .after⟩,
      .rule ⟨.notEquals, "c", none, 10, .before⟩]]]⟩

/-- Only a field `c` is what it is asked to be. -/
def onlyC (r : Rule) : Bool :=
  match r.operator with
  | .notEquals => r.field != "c"
  | _ => r.field == "c"

theorem holds_pushNegations_refusedTree :
    Rule.Opposing onlyC ∧ refusedTree.pushNegations.indices = [0, 1, 2, 3, 4, 5, 6, 7, 9, 10] ∧
      refusedTree.formula.holds onlyC = true ∧
      refusedTree.pushNegations.formula.holds onlyC = true := by
  have hv : Rule.Opposing onlyC := fun r => rfl
  have htrue : refusedTree.formula.holds onlyC = true := by decide
  exact ⟨hv, by decide, htrue, (holds_pushNegations hv refusedTree).trans htrue⟩

end Group

end AccessFilter
