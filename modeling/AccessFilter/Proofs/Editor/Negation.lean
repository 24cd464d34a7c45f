import AccessFilter.Proofs.Editor.Obstacle
import AccessFilter.Proofs.Tree.Pushed
import AccessFilter.Proofs.Tree.Shape
import Mathlib.Order.MinMax

/-!
# Pushing negations down brings no obstacle

A tree that the structured editor can show can still be shown when its negations are pushed down,
and then no not is left in it.

**Depth.**  A not of a rule becomes a rule, and a not of a group becomes one group in place of two.
At the root the level that is won is lost again to the or around it, and no more.

**Nots.**  In an editable tree a not negates equality rules only.  If it also has exactly one child,
that child has an opposite, so every not gives way.

* `Group.depth_pushNegations_le` — trees become no deeper.
* `Node.isPositive_pushNegations` — of an editable node no not is left.
* **`Group.depth_pushNegations_le_and_obstacle?`** — both for trees, as the editor asks for it.
-/

namespace AccessFilter

/-! ## Depth -/

namespace Node

lemma depthAll_of_forall₂ {ns ms : List Node} (h : List.Forall₂ Opposite ns ms) :
    depthAll ms = 0 := by
  induction h with
  | nil => rfl
  | cons hn _ ih =>
      cases hn
      rw [depthAll, ih]
      rfl

mutual

lemma depth_pushNegations_le : ∀ n : Node, n.pushNegations.depth ≤ n.depth
  | rule r => le_rfl
  | group c i ns => by
      by_cases hc : c = .not
      · subst hc
        rcases pushNegations_not i ns with hp | ⟨n, m, -, hm, hp⟩ |
          ⟨c, j, ms, ks, -, -, hk, hp⟩
        · rw [hp]
        · rw [hp]
          cases hm
          exact Nat.zero_le _
        · rw [hp, depth, depthAll_of_forall₂ hk, depth]
          omega
      · rw [pushNegations_group hc, depth, depth]
        exact Nat.succ_le_succ (depthAll_pushAll_le ns)

lemma depthAll_pushAll_le : ∀ ns : List Node, depthAll (pushAll ns) ≤ depthAll ns
  | [] => le_rfl
  | n :: ns => by
      rw [pushAll, depthAll, depthAll]
      exact max_le_max (depth_pushNegations_le n) (depthAll_pushAll_le ns)

end

end Node

/-- **Trees become no deeper.** -/
theorem Group.depth_pushNegations_le (g : Group) : g.pushNegations.depth ≤ g.depth := by
  rcases g.pushNegations_cases with ⟨-, hp⟩ | ⟨-, hp | ⟨n, m, -, hm, hp⟩ |
    ⟨c, j, ms, ks, -, hn, hk, hp⟩⟩
  · rw [hp]
    exact Nat.succ_le_succ (Node.depthAll_pushAll_le g.children)
  · rw [hp]
  · cases hm
    rw [hp]
    exact Nat.succ_le_succ (Nat.zero_le _)
  · rw [hp]
    simp only [depth, toNode, hn, Node.depth, Node.depthAll, Node.depthAll_of_forall₂ hk]
    omega

/-! ## Nots -/

namespace Node

mutual

/-- There is no not at or below a node, and the rules there test for equality. -/
def IsPositive : Node → Prop
  | rule r => r.operator.isEquality = true
  | group c _ ns => c ≠ .not ∧ IsPositiveAll ns

/-- The same for several nodes. -/
def IsPositiveAll : List Node → Prop
  | [] => True
  | n :: ns => n.IsPositive ∧ IsPositiveAll ns

end

mutual

lemma IsPositive.editable : ∀ {n : Node}, n.IsPositive → n.Editable
  | rule _, h => h
  | group _ _ _, h => ⟨fun hc => absurd hc h.1, IsPositiveAll.editableAll h.2⟩

lemma IsPositiveAll.editableAll : ∀ {ns : List Node}, IsPositiveAll ns → EditableAll ns
  | [], _ => trivial
  | _ :: _, h => ⟨IsPositive.editable h.1, IsPositiveAll.editableAll h.2⟩

end

mutual

lemma IsPositive.ne_not : ∀ {n : Node}, n.IsPositive → ∀ h ∈ n.groups, h.connective ≠ .not
  | rule _, _, h, hh => absurd hh List.not_mem_nil
  | group c i ns, hn, h, hh => by
      rw [groups, List.mem_cons] at hh
      rcases hh with rfl | hh
      · exact hn.1
      · exact IsPositiveAll.ne_not hn.2 h hh

lemma IsPositiveAll.ne_not : ∀ {ns : List Node}, IsPositiveAll ns →
    ∀ h ∈ groupsAll ns, h.connective ≠ .not
  | [], _, h, hh => absurd hh List.not_mem_nil
  | n :: ns, hn, h, hh => by
      rw [groupsAll, List.mem_append] at hh
      rcases hh with hh | hh
      · exact IsPositive.ne_not hn.1 h hh
      · exact IsPositiveAll.ne_not hn.2 h hh

end

/-- The opposite of a rule tests for equality as well. -/
lemma Opposite.isPositive {n m : Node} (h : Opposite n m) : m.IsPositive := by
  obtain ⟨hq⟩ := h
  rcases Rule.flipped?_eq_some_iff.mp hq with ⟨-, rfl⟩ | ⟨-, rfl⟩ <;> rfl

/-- A not of an equality rule gives way. -/
lemma isPositive_pushNegations_not {i : Nat} {ns : List Node} (hone : ns.length = 1)
    (hrules : ns.all isRule = true) (hedit : EditableAll ns) :
    (group .not i ns).pushNegations.IsPositive := by
  obtain ⟨n, rfl⟩ := List.length_eq_one_iff.mp hone
  cases n with
  | group c j ms => simp [isRule] at hrules
  | rule r =>
      have hr : r.operator.isEquality = true := hedit.1
      cases hq : r.flipped? with
      | none =>
          rw [Rule.flipped?_eq_none_iff, hr] at hq
          cases hq
      | some q =>
          have hpushed : (group .not i [rule r]).pushNegations = rule q := by
            rw [pushNegations, pushed?, hq]
            rfl
          rw [hpushed]
          exact Opposite.isPositive (.rule hq)

mutual

/-- **Of an editable node no not is left.** -/
theorem isPositive_pushNegations : ∀ n : Node, n.NotsSingle → n.Editable →
    n.pushNegations.IsPositive
  | rule r, _, he => he
  | group c i ns, hs, he => by
      by_cases hc : c = .not
      · subst hc
        exact isPositive_pushNegations_not (hs.1 rfl) (he.1 rfl) he.2
      · rw [pushNegations_group hc]
        exact ⟨hc, isPositiveAll_pushAll ns hs.2 he.2⟩

lemma isPositiveAll_pushAll : ∀ ns : List Node, NotsSingleAll ns → EditableAll ns →
    IsPositiveAll (pushAll ns)
  | [], _, _ => trivial
  | n :: ns, hs, he =>
      ⟨isPositive_pushNegations n hs.1 he.1, isPositiveAll_pushAll ns hs.2 he.2⟩

end

end Node

namespace Group

lemma isPositive_pushNegations {g : Group} (hs : g.NotsSingle) (he : g.toNode.Editable) :
    g.pushNegations.toNode.IsPositive := by
  have hnode := Node.isPositive_pushNegations g.toNode ((notsSingle_iff g).mp hs) he
  rcases g.toNode_pushNegations_cases with hn | ⟨r, hn, hp⟩ | ⟨c, i, ns, -, hn, hp⟩
  · rwa [hn] at hnode
  · rw [hn] at hnode
    rw [hp]
    exact ⟨nofun, hnode, trivial⟩
  · rw [hn] at hnode
    rw [hp]
    exact ⟨nofun, hnode, trivial⟩

/-- **Pushing negations down brings no obstacle.**  No tree becomes deeper.  And if every not of a
tree has exactly one child and the structured editor can show the tree, it can also show the tree
with its negations pushed down, in which there is no not. -/
theorem depth_pushNegations_le_and_obstacle? (g : Group) :
    g.pushNegations.depth ≤ g.depth ∧
      (g.NotsSingle → ∀ maxDepth, g.obstacle? maxDepth = none →
        g.pushNegations.obstacle? maxDepth = none ∧
          ∀ h ∈ g.pushNegations.groups, h.connective ≠ .not) := by
  have hdepth := g.depth_pushNegations_le
  refine ⟨hdepth, ?_⟩
  intro hs maxDepth hnone
  obtain ⟨he, hmax⟩ := obstacle?_eq_none_iff.mp hnone
  have hpositive := isPositive_pushNegations hs he
  exact ⟨obstacle?_eq_none_iff.mpr ⟨hpositive.editable, hdepth.trans hmax⟩, hpositive.ne_not⟩

/-- A tree as deep as allowed, with a not right under its root and one at its greatest depth. -/
def deepTree : Group :=
  ⟨.and, 0, [.group .not 1 [.rule ⟨.notEquals, "a", none, 2, .after⟩],
    .group .or 3 [.group .not 4 [.rule ⟨.equals, "b", some (.text "1"), 5, .before⟩]]]⟩

/-- A not at the root; no other one can be shown than that of a rule. -/
def deniedRule : Group :=
  ⟨.not, 0, [.rule ⟨.equals, "c", some (.text "2"), 1, .after⟩]⟩

theorem depth_pushNegations_le_and_obstacle?_deepTree :
    deepTree.NotsSingle ∧ deepTree.obstacle? 3 = none ∧ deepTree.obstacle? 2 ≠ none ∧
      deepTree.pushNegations.depth ≤ deepTree.depth ∧
      deepTree.pushNegations.obstacle? 3 = none ∧
      (∀ h ∈ deepTree.pushNegations.groups, h.connective ≠ .not) ∧
      deniedRule.NotsSingle ∧ deniedRule.obstacle? 1 = none ∧
      deniedRule.pushNegations.obstacle? 1 = none ∧
      ∀ h ∈ deniedRule.pushNegations.groups, h.connective ≠ .not := by
  have hs : deepTree.NotsSingle := by decide
  have hnone : deepTree.obstacle? 3 = none := by decide
  obtain ⟨hdepth, hkeeps⟩ := depth_pushNegations_le_and_obstacle? deepTree
  obtain ⟨hnone', hnots⟩ := hkeeps hs 3 hnone
  have hdenied : deniedRule.NotsSingle := by decide
  have hshown : deniedRule.obstacle? 1 = none := by decide
  obtain ⟨-, hkeeps'⟩ := depth_pushNegations_le_and_obstacle? deniedRule
  obtain ⟨hshown', hpositive⟩ := hkeeps' hdenied 1 hshown
  exact ⟨hs, hnone, by decide, hdepth, hnone', hnots, hdenied, hshown, hshown', hpositive⟩

end Group

end AccessFilter
