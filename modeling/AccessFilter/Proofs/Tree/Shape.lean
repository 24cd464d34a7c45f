import AccessFilter.Proofs.Tree.Numbering

/-!
# Trees whose nots negate one node

An editor never lets a not have any number of children but one, and a reader never builds another
one.  Most of what is true of trees is true of those only.

* `Group.NotsSingle` — every not in a tree has exactly one child.
* `Node.NotsSingle` — the same along the tree, which is what inductions use.
* `Group.notsSingle_iff_forall`, `Group.notsSingle_set` — the same for the root and for each child,
  and after a child is exchanged.
* `Operator.isChange` — the two operators that ask for a change and not for a value.
-/

namespace AccessFilter

/-- Whether an operator asks for a change of a field over time. -/
def Operator.isChange : Operator → Bool
  | .hasChanged | .hasNotChanged => true
  | _ => false

/-- **Every not in a tree has exactly one child.** -/
def Group.NotsSingle (g : Group) : Prop :=
  ∀ h ∈ g.groups, h.connective = .not → h.children.length = 1

instance (g : Group) : Decidable g.NotsSingle :=
  inferInstanceAs (Decidable (∀ h ∈ g.groups, h.connective = .not → h.children.length = 1))

namespace Node

mutual

/-- Every not at and below a node has exactly one child. -/
def NotsSingle : Node → Prop
  | rule _ => True
  | group c _ ns => (c = .not → ns.length = 1) ∧ NotsSingleAll ns

/-- Every not at and below several nodes has exactly one child. -/
def NotsSingleAll : List Node → Prop
  | [] => True
  | n :: ns => n.NotsSingle ∧ NotsSingleAll ns

end

mutual

lemma notsSingle_iff : ∀ n : Node,
    n.NotsSingle ↔ ∀ h ∈ n.groups, h.connective = .not → h.children.length = 1
  | rule r => by simp [NotsSingle, groups]
  | group c i ns => by
      rw [NotsSingle, groups, List.forall_mem_cons, notsSingleAll_iff ns]

lemma notsSingleAll_iff : ∀ ns : List Node,
    NotsSingleAll ns ↔ ∀ h ∈ groupsAll ns, h.connective = .not → h.children.length = 1
  | [] => by simp [NotsSingleAll, groupsAll]
  | n :: ns => by
      rw [NotsSingleAll, groupsAll, List.forall_mem_append, notsSingle_iff n, notsSingleAll_iff ns]

end

end Node

lemma Group.notsSingle_iff (g : Group) : g.NotsSingle ↔ g.toNode.NotsSingle :=
  (Node.notsSingle_iff g.toNode).symm

namespace Node

lemma notsSingleAll_iff_forall {ns : List Node} : NotsSingleAll ns ↔ ∀ n ∈ ns, n.NotsSingle := by
  induction ns with
  | nil => simp [NotsSingleAll]
  | cons n ns ih => rw [NotsSingleAll, ih, List.forall_mem_cons]

mutual

/-- Indices do not matter to the number of children. -/
lemma notsSingle_cleared : ∀ n : Node, n.cleared.NotsSingle ↔ n.NotsSingle
  | rule r => Iff.rfl
  | group c i ns => by
      have hlen : (clearedAll ns).length = ns.length := by rw [clearedAll_eq_map, List.length_map]
      rw [cleared, NotsSingle, NotsSingle, hlen, notsSingleAll_clearedAll ns]

lemma notsSingleAll_clearedAll : ∀ ns : List Node,
    NotsSingleAll (clearedAll ns) ↔ NotsSingleAll ns
  | [] => Iff.rfl
  | n :: ns => by
      rw [clearedAll, NotsSingleAll, NotsSingleAll, notsSingle_cleared n,
        notsSingleAll_clearedAll ns]

end

end Node

namespace Group

/-- What is asked of a tree is asked of its root and of every child. -/
lemma notsSingle_iff_forall (g : Group) : g.NotsSingle ↔
    (g.connective = .not → g.children.length = 1) ∧ ∀ n ∈ g.children, n.NotsSingle := by
  rw [notsSingle_iff, toNode, Node.NotsSingle, Node.notsSingleAll_iff_forall]

/-- A child can be exchanged for another node. -/
lemma notsSingle_set {g : Group} (hg : g.NotsSingle) {n : Node} (hn : n.NotsSingle) (i : Nat) :
    (Group.mk g.connective g.index (g.children.set i n)).NotsSingle := by
  rw [notsSingle_iff_forall] at hg ⊢
  refine ⟨fun hc => by rw [List.length_set]; exact hg.1 hc, ?_⟩
  intro m hm
  rcases List.mem_or_eq_of_mem_set hm with hm | rfl
  · exact hg.2 m hm
  · exact hn

lemma notsSingle_numbered (g : Group) : g.numbered.NotsSingle ↔ g.NotsSingle := by
  rw [notsSingle_iff, notsSingle_iff, ← Node.notsSingle_cleared, ← Node.notsSingle_cleared g.toNode,
    ← toNode_cleared, ← toNode_cleared, cleared_numbered]

end Group

end AccessFilter
