import AccessFilter.Proofs.Tree.Negation

/-!
# Nothing is left to push down

One pass over a tree pushes down all there is to push.  A not that gives way leaves rules, and
groups of rules only, so nothing new turns up; and a not that stays shields what stands below it in
the second pass as in the first.

**What stays.**  A not has no other form exactly if it has more or fewer children than one, or
negates a rule without an opposite, another not, or a group of which some child is no equality rule
(`pushed?_eq_none_iff`).  These are the only nots that ands and ors still lead to.

**What is touched.**  Rules stay where they are, with all they have, but for equality and its
negation.

* `Node.reachedNots` — the nots that ands and ors lead to.
* `Group.Stays` — why a not has no other form.
* `Group.pushNegations_pushNegations` — a second pass changes nothing.
* **`Group.normal_pushNegations`** — what one pass leaves.
-/

namespace AccessFilter

/-! ## Nots that stay -/

namespace Node

/-- Whether a node is a rule that tests for equality or its negation. -/
def isEqualityRule : Node → Bool
  | rule r => r.operator.isEquality
  | group .. => false

/-- Whether a node keeps a not around it: it is another rule, a not, or a group in which not every
child is an equality rule. -/
def Resists : Node → Prop
  | rule r => r.operator.isEquality = false
  | group c _ ns => c = .not ∨ ∃ n ∈ ns, n.isEqualityRule = false

mutual

/-- The nots at and below a node that ands and ors lead to.  What stands below one of them is not
among them. -/
def reachedNots : Node → List Group
  | rule _ => []
  | group c i ns => if c = .not then [⟨c, i, ns⟩] else reachedNotsAll ns

/-- The nots at and below several nodes that ands and ors lead to. -/
def reachedNotsAll : List Node → List Group
  | [] => []
  | n :: ns => n.reachedNots ++ reachedNotsAll ns

end

end Node

/-- Why a not stays: it does not have exactly one child, or that child keeps it. -/
def Group.Stays (g : Group) : Prop :=
  g.children.length ≠ 1 ∨ ∃ n, g.children = [n] ∧ n.Resists

/-- The nots of a tree that ands and ors lead to, the root included. -/
def Group.reachedNots (g : Group) : List Group :=
  g.toNode.reachedNots

lemma Rule.flipped?_eq_none_iff {r : Rule} :
    r.flipped? = none ↔ r.operator.isEquality = false := by
  obtain ⟨op, field, value, index, temporal⟩ := r
  cases op <;> simp [flipped?, negated?, Operator.isEquality, Operator.opposite?,
    Operator.positive?, Operator.negative?]

namespace Node

lemma flippedAll?_eq_none_iff : ∀ ns : List Node,
    flippedAll? ns = none ↔ ∃ n ∈ ns, n.isEqualityRule = false
  | [] => by simp [flippedAll?]
  | .group c i ms :: ns => by simp [flippedAll?, isEqualityRule]
  | .rule r :: ns => by
      have ih := flippedAll?_eq_none_iff ns
      have hr := Rule.flipped?_eq_none_iff (r := r)
      rw [List.exists_mem_cons_iff, isEqualityRule, ← ih, ← hr, flippedAll?]
      cases r.flipped? <;> cases flippedAll? ns <;> simp

/-- **A not has no other form exactly if it stays.** -/
theorem pushed?_eq_none_iff {i : Nat} {ns : List Node} :
    pushed? i ns = none ↔ Group.Stays ⟨.not, i, ns⟩ := by
  rw [Group.Stays]
  match ns with
  | [] => simp [pushed?]
  | n :: m :: ns => simp [pushed?]
  | [.rule r] => simp [pushed?, Resists, Rule.flipped?_eq_none_iff]
  | [.group .not j ms] => simp [pushed?, Resists]
  | [.group .and j ms] | [.group .or j ms] =>
      simp [pushed?, Resists, flippedAll?_eq_none_iff]

/-! ## One pass -/

lemma reachedNots_group {c : Connective} (hc : c ≠ .not) (i : Nat) (ns : List Node) :
    (group c i ns).reachedNots = reachedNotsAll ns := by
  rw [reachedNots, if_neg hc]

/-- Rules are no nots, and below them there are none. -/
lemma reachedNotsAll_of_forall₂ {ns ms : List Node} (h : List.Forall₂ Opposite ns ms) :
    reachedNotsAll ms = [] := by
  induction h with
  | nil => rfl
  | cons hn _ ih =>
      cases hn
      exact ih

/-- What a not gives way to leads to no nots. -/
lemma reachedNots_of_pushed?_eq {i : Nat} {ns : List Node} {p : Node}
    (hp : pushed? i ns = some p) : p.reachedNots = [] := by
  rcases exists_of_pushed?_eq hp with ⟨n, -, hm⟩ | ⟨c, j, ms, ks, hc, -, hk, rfl⟩
  · cases hm
    rfl
  · rw [reachedNots_group (Connective.dual_ne_not hc), reachedNotsAll_of_forall₂ hk]

mutual

/-- **After a pass only nots that stay are reached.** -/
theorem stays_of_mem_reachedNots : ∀ n : Node, ∀ h ∈ n.pushNegations.reachedNots, h.Stays
  | rule r, h, hh => absurd hh List.not_mem_nil
  | group c i ns, h, hh => by
      by_cases hc : c = .not
      · subst hc
        rw [pushNegations] at hh
        cases hp : pushed? i ns with
        | none =>
            rw [hp, Option.getD_none, reachedNots, if_pos rfl] at hh
            obtain rfl := List.mem_singleton.mp hh
            exact pushed?_eq_none_iff.mp hp
        | some p =>
            rw [hp, Option.getD_some, reachedNots_of_pushed?_eq hp] at hh
            exact absurd hh List.not_mem_nil
      · rw [pushNegations_group hc, reachedNots_group hc] at hh
        exact stays_of_mem_reachedNotsAll ns h hh

lemma stays_of_mem_reachedNotsAll : ∀ ns : List Node,
    ∀ h ∈ reachedNotsAll (pushAll ns), h.Stays
  | [], h, hh => absurd hh List.not_mem_nil
  | n :: ns, h, hh => by
      rw [pushAll, reachedNotsAll, List.mem_append] at hh
      rcases hh with hh | hh
      · exact stays_of_mem_reachedNots n h hh
      · exact stays_of_mem_reachedNotsAll ns h hh

end

lemma pushAll_of_forall₂ {ns ms : List Node} (h : List.Forall₂ Opposite ns ms) :
    pushAll ms = ms := by
  induction h with
  | nil => rfl
  | cons hn _ ih =>
      cases hn
      rw [pushAll, ih, pushNegations]

mutual

/-- **A second pass changes nothing.** -/
theorem pushNegations_pushNegations : ∀ n : Node, n.pushNegations.pushNegations = n.pushNegations
  | rule r => rfl
  | group c i ns => by
      by_cases hc : c = .not
      · subst hc
        rcases pushNegations_not i ns with hp | ⟨n, m, -, hm, hp⟩ |
          ⟨c, j, ms, ks, hc, -, hk, hp⟩
        · rw [hp, hp]
        · rw [hp]
          cases hm
          rfl
        · rw [hp, pushNegations_group (Connective.dual_ne_not hc), pushAll_of_forall₂ hk]
      · rw [pushNegations_group hc, pushNegations_group hc, pushAll_pushAll ns]

lemma pushAll_pushAll : ∀ ns : List Node, pushAll (pushAll ns) = pushAll ns
  | [] => rfl
  | n :: ns => by
      rw [pushAll, pushAll, pushNegations_pushNegations n, pushAll_pushAll ns]

end

end Node

/-! ## Rules -/

/-- Whether two rules are the same, but for equality and its negation. -/
structure Rule.SameButForEquality (r q : Rule) : Prop where
  parts : q = { r with operator := q.operator }
  operator : q.operator = r.operator ∨
    r.operator.isEquality = true ∧ q.operator.isEquality = true

/-- A rule with the operator equals in place of its negation. -/
def Rule.positive (r : Rule) : Rule :=
  { r with operator := if r.operator.isEquality then .equals else r.operator }

lemma Rule.common_positive : Rule.Common Rule.positive := by
  intro r q hq
  rcases Rule.flipped?_eq_some_iff.mp hq with ⟨hr, rfl⟩ | ⟨hr, rfl⟩ <;>
    simp [positive, hr, Operator.isEquality]

lemma Rule.sameButForEquality_of_positive_eq {r q : Rule} (h : r.positive = q.positive) :
    r.SameButForEquality q := by
  obtain ⟨op, field, value, index, temporal⟩ := r
  obtain ⟨op', field', value', index', temporal'⟩ := q
  simp only [positive, Rule.mk.injEq] at h
  obtain ⟨hop, rfl, rfl, rfl, rfl⟩ := h
  refine ⟨rfl, ?_⟩
  dsimp only
  split_ifs at hop with hr hq hq
  · exact .inr ⟨hr, hq⟩
  · subst hop
    exact absurd rfl hq
  · subst hop
    exact absurd rfl hr
  · exact .inl hop.symm

namespace Group

lemma forall₂_rules_pushNegations (g : Group) :
    List.Forall₂ Rule.SameButForEquality g.rules g.pushNegations.rules := by
  have hmap := map_rules_pushNegations Rule.common_positive g
  have hforall : List.Forall₂ (fun r q => r.positive = q.positive) g.rules
      g.pushNegations.rules := by
    rw [← List.forall₂_map_right_iff, ← List.forall₂_map_left_iff, hmap]
    exact List.forall₂_refl _
  exact hforall.imp fun _ _ => Rule.sameButForEquality_of_positive_eq

/-! ## The root -/

lemma pushNegations_of_ne_not {g : Group} (hg : g.connective ≠ .not) :
    g.pushNegations = { g with children := Node.pushAll g.children } := by
  rcases g.pushNegations_cases with ⟨-, hp⟩ | ⟨hnot, -⟩
  · exact hp
  · exact absurd hnot hg

/-- **A second pass over a tree changes nothing.** -/
theorem pushNegations_pushNegations (g : Group) :
    g.pushNegations.pushNegations = g.pushNegations := by
  rcases g.pushNegations_cases with ⟨hc, hp⟩ | ⟨-, hp | ⟨n, m, -, hm, hp⟩ |
    ⟨c, j, ms, ks, hc, -, hk, hp⟩⟩
  · have hc' : g.pushNegations.connective ≠ .not := by rwa [hp]
    rw [pushNegations_of_ne_not hc', hp]
    exact congrArg (Group.mk g.connective g.index) (Node.pushAll_pushAll g.children)
  · rw [hp, hp]
  · cases hm
    rw [hp]
    rfl
  · rw [hp, pushNegations_of_ne_not (by simp), Node.pushAll, Node.pushAll,
      Node.pushNegations_group (Connective.dual_ne_not hc), Node.pushAll_of_forall₂ hk]

lemma stays_of_mem_reachedNots (g : Group) : ∀ h ∈ g.pushNegations.reachedNots, h.Stays := by
  have hnode := Node.stays_of_mem_reachedNots g.toNode
  intro h hh
  rcases g.toNode_pushNegations_cases with hn | ⟨r, -, hp⟩ | ⟨c, i, ns, hc, hn, hp⟩
  · rw [hn] at hnode
    exact hnode h hh
  · rw [hp] at hh
    exact absurd hh List.not_mem_nil
  · rw [hp] at hh
    rw [hn, Node.reachedNots_group hc] at hnode
    refine hnode h ?_
    simpa [reachedNots, toNode, Node.reachedNots, Node.reachedNotsAll, hc] using hh

/-- **One pass leaves nothing to push down and touches nothing else.**  A second pass gives the same
tree, indices included.  The nots that ands and ors lead to are such that stay.  And the rules are
the old ones in their old order, each with its field, value, index and temporal, and with its
operator unless that tests for equality and its opposite does. -/
theorem normal_pushNegations (g : Group) :
    g.pushNegations.pushNegations = g.pushNegations ∧
      (∀ h ∈ g.pushNegations.reachedNots, h.Stays) ∧
      List.Forall₂ Rule.SameButForEquality g.rules g.pushNegations.rules :=
  ⟨g.pushNegations_pushNegations, g.stays_of_mem_reachedNots, g.forall₂_rules_pushNegations⟩

/-- A not that shields another one, beside a not that gives way. -/
def shieldingTree : Group :=
  ⟨.or, 0, [.group .not 1 [.group .and 2 [.rule ⟨.equals, "a", none, 3, .after⟩,
    .group .not 4 [.rule ⟨.equals, "b", none, 5, .after⟩]]],
    .group .not 6 [.group .or 7 [.rule ⟨.equals, "c", none, 8, .before⟩,
      .rule ⟨.notEquals, "d", none, 9, .after⟩]]]⟩

/-- The not that shields another one. -/
def shieldingNot : Group :=
  ⟨.not, 1, [.group .and 2 [.rule ⟨.equals, "a", none, 3, .after⟩,
    .group .not 4 [.rule ⟨.equals, "b", none, 5, .after⟩]]]⟩

theorem normal_pushNegations_shieldingTree :
    shieldingTree.pushNegations = ⟨.or, 0, [shieldingNot.toNode,
        .group .and 6 [.rule ⟨.notEquals, "c", none, 8, .before⟩,
          .rule ⟨.equals, "d", none, 9, .after⟩]]⟩ ∧
      shieldingTree.pushNegations.pushNegations = shieldingTree.pushNegations ∧
      shieldingNot ∈ shieldingTree.pushNegations.reachedNots ∧ shieldingNot.Stays ∧
      List.Forall₂ Rule.SameButForEquality shieldingTree.rules
        shieldingTree.pushNegations.rules := by
  have hmem : shieldingNot ∈ shieldingTree.pushNegations.reachedNots := by decide
  obtain ⟨hidem, hstays, hrules⟩ := normal_pushNegations shieldingTree
  exact ⟨by decide, hidem, hmem, hstays _ hmem, hrules⟩

end Group

end AccessFilter
