import AccessFilter.Editor.Obstacle
import AccessFilter.Proofs.Tree.Numbering

/-!
# What the structured editor can show

The search for an obstacle goes through the groups of a tree, then through its rules, and then looks
at its depth.  Inductions along a tree need the same as a property of nodes.

* `Node.Editable` — rules test for equality, and nots negate rules only.
* **`Group.obstacle?_eq_none_iff`** — a tree without an obstacle is editable, and is not too deep.
* `Group.editable_numbered`, `Group.depth_numbered` — indices do not matter to that.
-/

namespace AccessFilter

lemma Group.negatesGroup_eq_false_iff {g : Group} :
    g.negatesGroup = false ↔ (g.connective = .not → g.children.all Node.isRule = true) := by
  simp [negatesGroup]

namespace Node

mutual

/-- The rules at and below a node test for equality, and its nots negate rules only. -/
def Editable : Node → Prop
  | rule r => r.operator.isEquality = true
  | group c _ ns => (c = .not → ns.all isRule = true) ∧ EditableAll ns

/-- The same for several nodes. -/
def EditableAll : List Node → Prop
  | [] => True
  | n :: ns => n.Editable ∧ EditableAll ns

end

mutual

/-- **Editable is what the search for an obstacle looks for** in the groups and rules of a node. -/
lemma editable_iff : ∀ n : Node, n.Editable ↔
    (∀ g ∈ n.groups, g.negatesGroup = false) ∧ ∀ r ∈ n.rules, r.operator.isEquality = true
  | rule r => by simp [Editable, groups, rules]
  | group c i ns => by
      rw [Editable, groups, rules, List.forall_mem_cons, Group.negatesGroup_eq_false_iff,
        editableAll_iff ns, and_assoc]

lemma editableAll_iff : ∀ ns : List Node, EditableAll ns ↔
    (∀ g ∈ groupsAll ns, g.negatesGroup = false) ∧
      ∀ r ∈ rulesAll ns, r.operator.isEquality = true
  | [] => by simp [EditableAll, groupsAll, rulesAll]
  | n :: ns => by
      rw [EditableAll, groupsAll, rulesAll, List.forall_mem_append, List.forall_mem_append,
        editable_iff n, editableAll_iff ns]
      exact and_and_and_comm

end

/-! ## Indices do not matter -/

lemma isRule_cleared (n : Node) : n.cleared.isRule = n.isRule := by
  cases n <;> rfl

mutual

lemma editable_cleared : ∀ n : Node, n.cleared.Editable ↔ n.Editable
  | rule r => Iff.rfl
  | group c i ns => by
      have hrules : (clearedAll ns).all isRule = ns.all isRule := by
        simp [clearedAll_eq_map, List.all_map, Function.comp_def, isRule_cleared]
      rw [cleared, Editable, Editable, hrules, editableAll_clearedAll ns]

lemma editableAll_clearedAll : ∀ ns : List Node, EditableAll (clearedAll ns) ↔ EditableAll ns
  | [] => Iff.rfl
  | n :: ns => by
      rw [clearedAll, EditableAll, EditableAll, editable_cleared n, editableAll_clearedAll ns]

end

mutual

lemma depth_cleared : ∀ n : Node, n.cleared.depth = n.depth
  | rule r => rfl
  | group c i ns => by rw [cleared, depth, depth, depthAll_clearedAll ns]

lemma depthAll_clearedAll : ∀ ns : List Node, depthAll (clearedAll ns) = depthAll ns
  | [] => rfl
  | n :: ns => by rw [clearedAll, depthAll, depthAll, depth_cleared n, depthAll_clearedAll ns]

end

end Node

namespace Group

/-- **A tree has no obstacle if it is editable and not too deep.** -/
theorem obstacle?_eq_none_iff {g : Group} {maxDepth : Nat} :
    g.obstacle? maxDepth = none ↔ g.toNode.Editable ∧ g.depth ≤ maxDepth := by
  have hgroups : g.groups.any negatesGroup = false ↔
      ∀ h ∈ g.toNode.groups, h.negatesGroup = false := by
    rw [List.any_eq_false, groups]
    exact forall₂_congr fun h _ => by rw [Bool.not_eq_true]
  have hrules : (g.rules.find? fun r => !r.operator.isEquality) = none ↔
      ∀ r ∈ g.toNode.rules, r.operator.isEquality = true := by
    simp [rules]
  rw [Node.editable_iff, ← hgroups, ← hrules, obstacle?]
  cases hg : g.groups.any negatesGroup with
  | true => simp
  | false =>
      cases hr : g.rules.find? fun r => !r.operator.isEquality with
      | some r => simp
      | none => simp

lemma editable_numbered (g : Group) : g.numbered.toNode.Editable ↔ g.toNode.Editable := by
  rw [← Node.editable_cleared, ← Node.editable_cleared g.toNode, ← toNode_cleared,
    ← toNode_cleared, cleared_numbered]

lemma depth_numbered (g : Group) : g.numbered.depth = g.depth := by
  rw [depth, depth, ← Node.depth_cleared, ← Node.depth_cleared g.toNode, ← toNode_cleared,
    ← toNode_cleared, cleared_numbered]

end Group

end AccessFilter
