import AccessFilter.Proofs.Tree.Numbering

/-!
# What renumbering does to a tree

Renumbering gives the nodes of a tree consecutive indices and leaves everything else as it is.  Hence
what two trees are like after they were renumbered from one start depends on their shapes alone: it
tells the same trees apart as clearing all indices does.

**Two equalities.**  Trees can be compared part by part, or with numbers taken by their value, for
which the two zeros of the floats are one.  Indices are compared in the same way in both, so what
is said about them holds of both.

**Counting.**  How many indices are given out depends on the shape only, since there is one for each
rule and one for each group.

* `Group.nodeCount` — the number of nodes of a tree.
* `Node.same_renumber` — renumbered nodes are compared like cleared ones.
* **`Group.indices_renumber_and_eq_iff`** — what becomes of a tree, and when two become the same.
-/

namespace AccessFilter

namespace Node

/-! ## Counting nodes -/

mutual

/-- There is one index for each rule and one for each group. -/
lemma length_indices : ∀ n : Node, n.indices.length = n.rules.length + n.groups.length
  | rule r => rfl
  | group c i ns => by
      have ih := length_indicesAll ns
      simp only [indices, rules, groups, List.length_cons, ih]
      omega

lemma length_indicesAll : ∀ ns : List Node,
    (indicesAll ns).length = (rulesAll ns).length + (groupsAll ns).length
  | [] => rfl
  | n :: ns => by
      simp only [indicesAll, rulesAll, groupsAll, List.length_append, length_indices n,
        length_indicesAll ns]
      omega

end

/-! ## Comparing renumbered nodes -/

mutual

lemma length_indices_of_same : ∀ {n m : Node}, n.same m = true →
    n.indices.length = m.indices.length
  | rule _, rule _, _ => rfl
  | group c i ns, group d j ms, h => by
      simp only [same, Bool.and_eq_true] at h
      rw [indices, indices, List.length_cons, List.length_cons, length_indicesAll_of_same h.2]
  | rule _, group .., h | group .., rule _, h => by simp [same] at h

lemma length_indicesAll_of_same : ∀ {ns ms : List Node}, sameAll ns ms = true →
    (indicesAll ns).length = (indicesAll ms).length
  | [], [], _ => rfl
  | n :: ns, m :: ms, h => by
      simp only [sameAll, Bool.and_eq_true] at h
      rw [indicesAll, indicesAll, List.length_append, List.length_append,
        length_indices_of_same h.1, length_indicesAll_of_same h.2]
  | [], _ :: _, h | _ :: _, [], h => by simp [sameAll] at h

end

/-- Nodes of the same shape take up the same number of indices. -/
lemma next_renumber_eq {n m : Node} (h : n.cleared.same m.cleared = true) (start : Nat) :
    (n.renumber start).2 = (m.renumber start).2 := by
  have hlength := length_indices_of_same h
  rw [length_indices_cleared, length_indices_cleared] at hlength
  rw [(n.indices_renumber start).2, (m.indices_renumber start).2, hlength]

mutual

/-- **Renumbered nodes are compared like cleared ones.** -/
lemma same_renumber : ∀ (n m : Node) (start : Nat),
    (n.renumber start).1.same (m.renumber start).1 = n.cleared.same m.cleared
  | rule r, rule q, start => by simp [renumber, cleared, same, Rule.same]
  | group c i ns, group d j ms, start => by
      simp [renumber, cleared, same, sameAll_renumberAll ns ms (start + 1)]
  | rule _, group .., _ | group .., rule _, _ => by simp [renumber, cleared, same]

lemma sameAll_renumberAll : ∀ (ns ms : List Node) (start : Nat),
    sameAll (renumberAll ns start).1 (renumberAll ms start).1 =
      sameAll (clearedAll ns) (clearedAll ms)
  | [], [], _ => rfl
  | n :: ns, m :: ms, start => by
      simp only [renumberAll, clearedAll, sameAll, same_renumber n m start]
      -- the others start with one index only if the first two nodes have the same shape
      cases hfirst : n.cleared.same m.cleared with
      | false => rfl
      | true => rw [next_renumber_eq hfirst, sameAll_renumberAll ns ms]
  | [], _ :: _, _ | _ :: _, [], _ => rfl

end

end Node

namespace Group

/-- The number of nodes of a tree. -/
def nodeCount (g : Group) : Nat :=
  g.rules.length + g.groups.length

lemma length_indices (g : Group) : g.indices.length = g.nodeCount :=
  g.toNode.length_indices

/-- **Renumbered trees are the same exactly if they have the same shape.** -/
lemma renumber_eq_iff {g h : Group} (start : Nat) :
    (g.renumber start).1 = (h.renumber start).1 ↔ g.cleared = h.cleared := by
  constructor
  · intro heq
    rw [← cleared_renumber g start, heq, cleared_renumber]
  · intro hshape
    have hcleared : g.toNode.cleared = h.toNode.cleared := by
      rw [← toNode_cleared, hshape, toNode_cleared]
    have hlength : g.indices.length = h.indices.length := Node.length_indices_eq hcleared
    refine toNode_injective (Node.eq_of_cleared_eq ?_ ?_)
    · rw [← toNode_cleared, ← toNode_cleared, cleared_renumber, cleared_renumber, hshape]
    · change (g.renumber start).1.indices = (h.renumber start).1.indices
      rw [(g.indices_renumber start).1, (h.indices_renumber start).1, hlength]

/-- As long as there are indices, the next one after a renumbering is the one it ended with. -/
lemma nextIndex_renumber {g : Group} {start : Nat} (hlimit : start + g.nodeCount ≤ indexLimit) :
    (g.renumber start).1.nextIndex = start + g.nodeCount := by
  have hindices := (g.indices_renumber start).1
  rw [g.length_indices] at hindices
  have hbelow : ∀ i ∈ (g.renumber start).1.indices, start ≤ i ∧ i < start + g.nodeCount := by
    intro i hi
    rw [hindices] at hi
    exact List.mem_range'_1.mp hi
  have hlargest := hbelow _ (maxIndex_mem_indices _)
  have hlast : start + g.nodeCount - 1 ∈ (g.renumber start).1.indices := by
    rw [hindices, List.mem_range'_1]
    omega
  have hle := le_maxIndex hlast
  rw [nextIndex_eq fun i hi => (hbelow i hi).2.trans_le hlimit]
  omega

/-- **Renumbering numbers the nodes one after the other, and changes nothing else.**  The indices
come out in the order of a walk from the root down, the next free one follows them, and the shape
stays.  So two trees become the same exactly if they are the same without their indices. -/
theorem indices_renumber_and_eq_iff (g : Group) {start : Nat}
    (hlimit : start + g.nodeCount ≤ indexLimit) :
    (g.renumber start).1.indices = List.range' start g.nodeCount ∧
      (g.renumber start).2 = start + g.nodeCount ∧
      (g.renumber start).1.nextIndex = start + g.nodeCount ∧
      (g.renumber start).1.cleared = g.cleared ∧
      ∀ h : Group,
        ((g.renumber start).1 = (h.renumber start).1 ↔ g.cleared = h.cleared) ∧
        (g.renumber start).1.same (h.renumber start).1 = g.cleared.same h.cleared := by
  obtain ⟨hindices, hnext⟩ := g.indices_renumber start
  rw [g.length_indices] at hindices hnext
  exact ⟨hindices, hnext, nextIndex_renumber hlimit, cleared_renumber g start, fun h =>
    ⟨renumber_eq_iff start, Node.same_renumber g.toNode h.toNode start⟩⟩

/-- A not in an or beside an empty and, with indices in no order, one of them twice. -/
def unorderedTree : Group :=
  ⟨.or, 7, [.group .not 3 [.rule { Rule.make "a" .equals (some (.text "x")) with index := 7 }],
    .group .and 0 []]⟩

/-- Numbered up to the last index but one, after which one more node can be numbered.  The tree is
told from the same tree without the empty group, and not from the one with its indices cleared. -/
theorem indices_renumber_and_eq_iff_unorderedTree :
    4294967291 + unorderedTree.nodeCount = indexLimit ∧
      (unorderedTree.renumber 4294967291).1.indices =
        [4294967291, 4294967292, 4294967293, 4294967294] ∧
      (unorderedTree.renumber 4294967291).1.nextIndex = 4294967295 ∧
      (unorderedTree.renumber 4294967291).1 =
        (unorderedTree.cleared.renumber 4294967291).1 ∧
      (unorderedTree.renumber 4294967291).1 ≠
        (renumber { unorderedTree with children := unorderedTree.children.take 1 } 4294967291).1 := by
  have hlimit : 4294967291 + unorderedTree.nodeCount ≤ indexLimit := by decide
  obtain ⟨hindices, -, hnext, -, hsame⟩ := indices_renumber_and_eq_iff unorderedTree hlimit
  refine ⟨by decide, hindices, hnext, (hsame _).1.mpr (by decide), ?_⟩
  intro heq
  exact absurd ((hsame _).1.mp heq) (by decide)

end Group

end AccessFilter
