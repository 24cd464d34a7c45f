import AccessFilter.Proofs.Tree.Rules
import AccessFilter.Tree.Negation
import Mathlib.Data.List.Forall2
import Mathlib.Tactic.Common

/-!
# Where a not gives way

A negation that is pushed down changes a tree in two ways only.  Both are stated here once, so that
nothing else has to look into the functions that do it.

* `Rule.flipped?_eq_some_iff` — which rules have an opposite.
* `Node.Opposite` — an equality rule and the rule under the opposite operator.
* **`Node.pushNegations_not`** — a not stays, gives way to the opposite of its rule, or to the dual
  of its group with the opposite of every rule in it.
* **`Group.pushNegations_cases`** — the same for the root of a tree.
* `Group.map_rules_pushNegations` — what opposite rules have in common stays.
-/

namespace AccessFilter

/-- The dual of an and or an or is no not. -/
lemma Connective.dual_ne_not {c : Connective} (hc : c ≠ .not) : c.dual ≠ .not := by
  cases c with
  | and | or => decide
  | not => exact absurd rfl hc

/-- The rules that have an opposite, and which one. -/
lemma Rule.flipped?_eq_some_iff {r q : Rule} : r.flipped? = some q ↔
    r.operator = .equals ∧ q = { r with operator := .notEquals } ∨
      r.operator = .notEquals ∧ q = { r with operator := .equals } := by
  obtain ⟨op, field, value, index, temporal⟩ := r
  cases op <;> simp [flipped?, negated?, Operator.isEquality, Operator.opposite?,
    Operator.positive?, Operator.negative?, eq_comm]

namespace Node

/-- An equality rule and the same rule under the opposite operator. -/
inductive Opposite : Node → Node → Prop where
  | rule {r q : Rule} (h : r.flipped? = some q) : Opposite (rule r) (rule q)

/-- Nodes that have opposites are equality rules, each with its opposite in its place. -/
lemma forall₂_of_flippedAll?_eq : ∀ {ns ms : List Node}, flippedAll? ns = some ms →
    List.Forall₂ Opposite ns ms
  | [], ms, h => by
      obtain rfl := Option.some.inj h
      exact .nil
  | .rule r :: ns, ms, h => by
      rw [flippedAll?] at h
      split at h
      · next q ks hq hks =>
        obtain rfl := Option.some.inj h
        exact .cons (.rule hq) (forall₂_of_flippedAll?_eq hks)
      · cases h
  | .group .. :: ns, ms, h => by cases h

/-- What a not gives way to: the opposite of its rule, or the dual of its group, which takes the
index of the not and has the opposite of every rule in it. -/
lemma exists_of_pushed?_eq {i : Nat} {ns : List Node} {p : Node} (hp : pushed? i ns = some p) :
    (∃ n, ns = [n] ∧ Opposite n p) ∨
      ∃ c j ms ks, c ≠ .not ∧ ns = [group c j ms] ∧ List.Forall₂ Opposite ms ks ∧
        p = group c.dual i ks := by
  unfold pushed? at hp
  split at hp
  · next r =>
    obtain ⟨q, hq, rfl⟩ := Option.map_eq_some_iff.mp hp
    exact .inl ⟨rule r, rfl, .rule hq⟩
  · next j ms =>
    obtain ⟨ks, hks, rfl⟩ := Option.map_eq_some_iff.mp hp
    exact .inr ⟨.and, j, ms, ks, by decide, rfl, forall₂_of_flippedAll?_eq hks, rfl⟩
  · next j ms =>
    obtain ⟨ks, hks, rfl⟩ := Option.map_eq_some_iff.mp hp
    exact .inr ⟨.or, j, ms, ks, by decide, rfl, forall₂_of_flippedAll?_eq hks, rfl⟩
  · cases hp

/-- **What becomes of a not.**  It stays; or it negates an equality rule and gives way to the
opposite one; or it negates an and or an or of equality rules, and gives way to the dual of that
group. -/
theorem pushNegations_not (i : Nat) (ns : List Node) :
    (group .not i ns).pushNegations = group .not i ns ∨
      (∃ n m, ns = [n] ∧ Opposite n m ∧ (group .not i ns).pushNegations = m) ∨
      ∃ c j ms ks, c ≠ .not ∧ ns = [group c j ms] ∧ List.Forall₂ Opposite ms ks ∧
        (group .not i ns).pushNegations = group c.dual i ks := by
  rw [pushNegations]
  cases hp : pushed? i ns with
  | none => exact .inl rfl
  | some p =>
      rw [Option.getD_some]
      rcases exists_of_pushed?_eq hp with ⟨n, hn, hm⟩ | ⟨c, j, ms, ks, hc, hn, hk, hp⟩
      · exact .inr (.inl ⟨n, p, hn, hm, rfl⟩)
      · exact .inr (.inr ⟨c, j, ms, ks, hc, hn, hk, hp⟩)

/-- Ands and ors stay, and negations are pushed down inside them. -/
lemma pushNegations_group {c : Connective} (hc : c ≠ .not) (i : Nat) (ns : List Node) :
    (group c i ns).pushNegations = group c i (pushAll ns) := by
  cases c with
  | and | or => rfl
  | not => exact absurd rfl hc

end Node

namespace Group

/-- **What becomes of the root.**  An and or an or stays.  A not stays, or becomes an or of what it
gives way to; a group there gets the next free index, because the root keeps that of the not. -/
theorem pushNegations_cases (g : Group) :
    (g.connective ≠ .not ∧ g.pushNegations = { g with children := Node.pushAll g.children }) ∨
      g.connective = .not ∧ (g.pushNegations = g ∨
        (∃ n m, g.children = [n] ∧ Node.Opposite n m ∧ g.pushNegations = ⟨.or, g.index, [m]⟩) ∨
        ∃ c j ms ks, c ≠ .not ∧ g.children = [.group c j ms] ∧ List.Forall₂ Node.Opposite ms ks ∧
          g.pushNegations = ⟨.or, g.index, [.group c.dual g.nextIndex ks]⟩) := by
  obtain ⟨c, i, ns⟩ := g
  by_cases hc : c = .not
  · subst hc
    right
    refine ⟨rfl, ?_⟩
    rcases Node.pushNegations_not i ns with h | ⟨n, m, rfl, hnm, h⟩ |
      ⟨c, j, ms, ks, hc, rfl, hks, h⟩
    · left
      simp [pushNegations, toNode, h]
    · right; left
      refine ⟨n, m, rfl, hnm, ?_⟩
      cases hnm
      simp [pushNegations, toNode, h]
    · right; right
      refine ⟨c, j, ms, ks, hc, rfl, hks, ?_⟩
      simp [pushNegations, toNode, h, Connective.dual_ne_not hc]
  · left
    refine ⟨hc, ?_⟩
    simp [pushNegations, toNode, Node.pushNegations_group hc, hc]

/-- **The root and its node.**  The root is what becomes of its node, or an or around it: around a
rule as it is, and around an and or an or with an index of its own. -/
lemma toNode_pushNegations_cases (g : Group) :
    g.toNode.pushNegations = g.pushNegations.toNode ∨
      (∃ r, g.toNode.pushNegations = .rule r ∧ g.pushNegations = ⟨.or, g.index, [.rule r]⟩) ∨
      ∃ c i ns, c ≠ .not ∧ g.toNode.pushNegations = .group c i ns ∧
        g.pushNegations = ⟨.or, g.index, [.group c g.nextIndex ns]⟩ := by
  cases hn : g.toNode.pushNegations with
  | rule r =>
      refine .inr (.inl ⟨r, rfl, ?_⟩)
      rw [pushNegations, hn]
  | group c i ns =>
      by_cases hc : g.connective = .not ∧ c ≠ .not
      · refine .inr (.inr ⟨c, i, ns, hc.2, rfl, ?_⟩)
        rw [pushNegations, hn]
        exact if_pos hc
      · left
        rw [pushNegations, hn]
        dsimp only
        rw [if_neg hc]
        rfl

end Group

/-! ## What stays of the rules -/

/-- Whether a rule and its opposite have something in common. -/
def Rule.Common {β : Type} (k : Rule → β) : Prop :=
  ∀ {r q : Rule}, r.flipped? = some q → k q = k r

section

variable {β : Type} {k : Rule → β}

namespace Node

lemma map_rules_opposite (hk : Rule.Common k) {n m : Node} (h : Opposite n m) :
    m.rules.map k = n.rules.map k := by
  obtain ⟨hq⟩ := h
  exact congrArg (fun b => [b]) (hk hq)

lemma map_rulesAll_of_forall₂ (hk : Rule.Common k) {ns ms : List Node}
    (h : List.Forall₂ Opposite ns ms) : (rulesAll ms).map k = (rulesAll ns).map k := by
  induction h with
  | nil => rfl
  | cons hn _ ih =>
      rw [rulesAll, rulesAll, List.map_append, List.map_append, map_rules_opposite hk hn, ih]

mutual

lemma map_rules_pushNegations (hk : Rule.Common k) : ∀ n : Node,
    n.pushNegations.rules.map k = n.rules.map k
  | rule r => rfl
  | group c i ns => by
      by_cases hc : c = .not
      · subst hc
        rcases pushNegations_not i ns with hp | ⟨n, m, rfl, hm, hp⟩ |
          ⟨c, j, ms, ks, hc, rfl, hks, hp⟩
        · rw [hp]
        · rw [hp, rules_singleton, map_rules_opposite hk hm]
        · rw [hp, rules_singleton, rules, rules, map_rulesAll_of_forall₂ hk hks]
      · rw [pushNegations_group hc, rules, rules, map_rulesAll_pushAll hk ns]

lemma map_rulesAll_pushAll (hk : Rule.Common k) : ∀ ns : List Node,
    (rulesAll (pushAll ns)).map k = (rulesAll ns).map k
  | [] => rfl
  | n :: ns => by
      rw [pushAll, rulesAll, rulesAll, List.map_append, List.map_append,
        map_rules_pushNegations hk n, map_rulesAll_pushAll hk ns]

end

end Node

/-- **What opposite rules have in common stays** when negations are pushed down. -/
lemma Group.map_rules_pushNegations (hk : Rule.Common k) (g : Group) :
    g.pushNegations.rules.map k = g.rules.map k := by
  have hroot : g.pushNegations.rules = g.toNode.pushNegations.rules := by
    rcases g.toNode_pushNegations_cases with hn | ⟨r, hn, hp⟩ | ⟨c, i, ns, -, hn, hp⟩
    · rw [hn, rules]
    · rw [hn, hp]
      rfl
    · rw [hn, hp]
      exact Node.rules_singleton .or g.index (.group c g.nextIndex ns)
  rw [hroot, Node.map_rules_pushNegations hk, rules]

end

end AccessFilter
