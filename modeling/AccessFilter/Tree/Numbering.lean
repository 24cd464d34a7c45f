import AccessFilter.Tree.Basic

/-!
# Numbering the nodes of a tree

Indices are not stored anywhere but in the nodes: the next free one is found by looking through the
tree.  A tree that is read from a text is numbered from the root down, each group before its
children and each child after everything below the children before it.

**The limit.**  Indices have 32 bits.  A tree that is numbered from zero has far fewer nodes than
there are indices, but the next free index can be as large as an index can be: it stays at the limit
once that is reached.  Numbering goes on from there without a check, so what is numbered after it
begins again at zero (`wrapIndex`).

* `Group.nextIndex` — the index for the next node.
* `Group.renumber` — the tree numbered from a start, with the next free index.
* `Node.wrapped` — a node whose numbers are taken as indices.
* `Group.cleared` — the tree with every index zero, which forgets the numbering.
* `Group.starting` — the group an editor starts with.
* **`Group.indices_renumber`** — the indices come out as consecutive numbers from the start.
-/

namespace AccessFilter

/-- The largest index a node can carry. -/
def indexLimit : Nat := 0xFFFFFFFF

/-- A number as an index: counting begins again at zero after the largest index. -/
def wrapIndex (i : Nat) : Nat :=
  i % (indexLimit + 1)

/-! ## Renumbering -/

namespace Node

mutual

/-- A node numbered from `start`, with the next free index. -/
def renumber : Node → (start : Nat) → Node × Nat
  | rule r, start => (rule { r with index := start }, start + 1)
  | group c _ ns, start =>
    let (numbered, next) := renumberAll ns (start + 1)
    (group c start numbered, next)

/-- Several nodes numbered one after the other, with the next free index. -/
def renumberAll : List Node → (start : Nat) → List Node × Nat
  | [], start => ([], start)
  | n :: ns, start =>
    let (first, middle) := n.renumber start
    let (others, next) := renumberAll ns middle
    (first :: others, next)

end

mutual

/-- A node with the numbers at and below it taken as indices. -/
def wrapped : Node → Node
  | rule r => rule { r with index := wrapIndex r.index }
  | group c i ns => group c (wrapIndex i) (wrappedAll ns)

/-- Several nodes with their numbers taken as indices. -/
def wrappedAll : List Node → List Node
  | [] => []
  | n :: ns => n.wrapped :: wrappedAll ns

end

mutual

/-- A node with every index at and below it zero. -/
def cleared : Node → Node
  | rule r => rule { r with index := 0 }
  | group c _ ns => group c 0 (clearedAll ns)

/-- Several nodes with every index zero. -/
def clearedAll : List Node → List Node
  | [] => []
  | n :: ns => n.cleared :: clearedAll ns

end

end Node

namespace Group

/-- The tree numbered from `start`, with the next free index. -/
def renumber (g : Group) (start : Nat) : Group × Nat :=
  let (numbered, next) := Node.renumberAll g.children (start + 1)
  ({ g with index := start, children := numbered }, next)

/-- The tree numbered from zero. -/
def numbered (g : Group) : Group :=
  (g.renumber 0).1

/-- The tree with every index zero. -/
def cleared (g : Group) : Group :=
  { g with index := 0, children := Node.clearedAll g.children }

/-- The index for the next node: one more than the largest in the tree, and the largest possible one
for ever once that is reached. -/
def nextIndex (g : Group) : Nat :=
  min (g.maxIndex + 1) indexLimit

/-- An or of the given children.  If none are given it holds one blank rule, numbered right after
the group. -/
def starting (children : Option (List Node)) (index : Nat) : Group :=
  ⟨.or, index, children.getD [.rule (Rule.blank (min (index + 1) indexLimit))]⟩

end Group

/-! ## Numbers as indices -/

theorem wrapIndex_of_le {i : Nat} (h : i ≤ indexLimit) : wrapIndex i = i :=
  Nat.mod_eq_of_lt (Nat.lt_succ_of_le h)

/-- The number after an index is the next index, and zero after the largest one. -/
theorem wrapIndex_succ {i : Nat} (h : i ≤ indexLimit) :
    wrapIndex (i + 1) = if i = indexLimit then 0 else i + 1 := by
  split
  · next hlast => rw [hlast, wrapIndex, Nat.mod_self]
  · next hnot => exact wrapIndex_of_le (Nat.lt_of_le_of_ne h hnot)

theorem Group.nextIndex_le (g : Group) : g.nextIndex ≤ indexLimit :=
  Nat.min_le_right _ _

/-! ## What renumbering does to the indices -/

namespace Node

mutual

/-- A numbered node holds consecutive indices, one for each node. -/
theorem indices_renumber (n : Node) (start : Nat) :
    (n.renumber start).1.indices = List.range' start n.indices.length ∧
      (n.renumber start).2 = start + n.indices.length := by
  cases n with
  | rule r => simp [renumber, indices]
  | group c i ns =>
    obtain ⟨h, k⟩ := indicesAll_renumberAll ns (start + 1)
    simp only [renumber, indices, h, k, List.length_cons, List.range'_succ, true_and]
    omega

theorem indicesAll_renumberAll (ns : List Node) (start : Nat) :
    indicesAll (renumberAll ns start).1 = List.range' start (indicesAll ns).length ∧
      (renumberAll ns start).2 = start + (indicesAll ns).length := by
  cases ns with
  | nil => simp [renumberAll, indicesAll]
  | cons n ns =>
    obtain ⟨h, k⟩ := indices_renumber n start
    obtain ⟨h', k'⟩ := indicesAll_renumberAll ns (n.renumber start).2
    rw [k] at h' k'
    simp only [renumberAll, indicesAll, h, k, h', k', List.length_append, List.range'_append_1,
      true_and, Nat.add_assoc]

end

end Node

namespace Group

/-- **Renumbering gives consecutive indices,** from the start on and in the order in which the nodes
come in a walk from the root down; the next free index follows the last one. -/
theorem indices_renumber (g : Group) (start : Nat) :
    (g.renumber start).1.indices = List.range' start g.indices.length ∧
      (g.renumber start).2 = start + g.indices.length :=
  Node.indices_renumber g.toNode start

end Group

end AccessFilter
