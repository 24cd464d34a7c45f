import AccessFilter.Tree.Numbering

/-!
# Pushing negations down

An editor of rules and groups has no place for a not, so negations are pushed down to the rules
where that is possible without new nodes:

* the not of an equality rule is the rule under the opposite operator;
* the not of an and or an or of equality rules is the dual group of the opposite rules.

All other nots stay, and nothing below them is touched.

* `Rule.flipped?` — an equality rule under the opposite operator.
* `Node.pushed?` — a not without its negation.
* `Node.pushNegations` — the same through all groups that are no nots.
* **`Group.pushNegations`** — a tree, whose root is again an and or an or.
-/

namespace AccessFilter

/-- An equality rule under the opposite operator, none for any other rule. -/
def Rule.flipped? (r : Rule) : Option Rule :=
  if r.operator.isEquality then r.negated? else none

namespace Node

/-- The opposites of nodes that are all equality rules. -/
def flippedAll? : List Node → Option (List Node)
  | [] => some []
  | .rule r :: ns =>
    match r.flipped?, flippedAll? ns with
    | some r, some ns => some (rule r :: ns)
    | _, _ => none
  | .group .. :: _ => none

/-- The node that a not of these children amounts to, if it can do without the negation.  A group in
its place keeps the index of the not. -/
def pushed? (index : Nat) : List Node → Option Node
  | [rule r] => r.flipped?.map rule
  | [group .and _ ns] => (flippedAll? ns).map (group .or index)
  | [group .or _ ns] => (flippedAll? ns).map (group .and index)
  | _ => none

mutual

/-- The node with the negations at and below it pushed down, as far as ands and ors lead to them. -/
def pushNegations : Node → Node
  | rule r => rule r
  | group .not i ns => (pushed? i ns).getD (group .not i ns)
  | group .and i ns => group .and i (pushAll ns)
  | group .or i ns => group .or i (pushAll ns)

/-- Several nodes with their negations pushed down. -/
def pushAll : List Node → List Node
  | [] => []
  | n :: ns => n.pushNegations :: pushAll ns

end

end Node

/-- **A tree with its negations pushed down.**  A not at the root that gives way becomes an or of
what it amounts to; if that is a group it is numbered after the rest of the tree, because the root
keeps its own index. -/
def Group.pushNegations (g : Group) : Group :=
  match g.toNode.pushNegations with
  | .rule r => ⟨.or, g.index, [.rule r]⟩
  | .group c i ns =>
    if g.connective = .not ∧ c ≠ .not then ⟨.or, g.index, [.group c g.nextIndex ns]⟩
    else ⟨c, i, ns⟩

end AccessFilter
