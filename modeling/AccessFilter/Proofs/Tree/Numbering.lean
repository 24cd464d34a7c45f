import AccessFilter.Tree.Numbering
import Mathlib.Data.List.TakeWhile
import Mathlib.Order.MinMax
import Mathlib.Tactic.Common

/-!
# A tree is its shape and its indices

Renumbering changes nothing but indices, and clearing forgets nothing but indices.  So a tree that
is numbered from zero is determined by what is left of it when its indices are cleared.

* `Node.cleared_renumber` — clearing undoes renumbering up to the indices there were before.
* `Node.eq_of_cleared_eq` — two nodes with the same shape and the same indices are the same.
* `Group.maxIndex_mem_indices`, `Group.nextIndex_eq` — the largest index, and the next one while there
  is one.
* `Group.freeIndices_eq` — the next free indices are consecutive as long as they stay below the limit.
* **`Group.eq_numbered_iff`** — the tree numbered from zero is the one of its shape whose indices
  are consecutive from zero in the order of a walk from the root down.
-/

namespace AccessFilter

namespace Node

mutual

/-- Renumbering a node does not change its shape. -/
lemma cleared_renumber (n : Node) (start : Nat) : (n.renumber start).1.cleared = n.cleared := by
  cases n with
  | rule r => rfl
  | group c i ns =>
      have ih := clearedAll_renumberAll ns (start + 1)
      simp only [renumber, cleared, ih]

lemma clearedAll_renumberAll (ns : List Node) (start : Nat) :
    clearedAll (renumberAll ns start).1 = clearedAll ns := by
  cases ns with
  | nil => rfl
  | cons n ns =>
      simp only [renumberAll, clearedAll, cleared_renumber n, clearedAll_renumberAll ns]

end

mutual

/-- There is one index to a node, whatever the indices are. -/
lemma length_indices_cleared (n : Node) : n.cleared.indices.length = n.indices.length := by
  cases n with
  | rule r => rfl
  | group c i ns =>
      have ih := length_indicesAll_clearedAll ns
      simp only [cleared, indices, List.length_cons, ih]

lemma length_indicesAll_clearedAll (ns : List Node) :
    (indicesAll (clearedAll ns)).length = (indicesAll ns).length := by
  cases ns with
  | nil => rfl
  | cons n ns =>
      simp only [clearedAll, indicesAll, List.length_append, length_indices_cleared n,
        length_indicesAll_clearedAll ns]

end

lemma clearedAll_eq_map (ns : List Node) : clearedAll ns = ns.map cleared := by
  induction ns with
  | nil => rfl
  | cons n ns ih => rw [clearedAll, ih, List.map_cons]

lemma indicesAll_eq_flatMap (ns : List Node) : indicesAll ns = ns.flatMap indices := by
  induction ns with
  | nil => rfl
  | cons n ns ih => rw [indicesAll, ih, List.flatMap_cons]

lemma length_indices_eq {n m : Node} (h : n.cleared = m.cleared) :
    n.indices.length = m.indices.length := by
  rw [← length_indices_cleared n, h, length_indices_cleared m]

mutual

/-- **A node is its shape and its indices.** -/
theorem eq_of_cleared_eq : ∀ {n m : Node}, n.cleared = m.cleared → n.indices = m.indices → n = m
  | rule r, rule q, h, hi => by
      obtain ⟨op, f, v, i, t⟩ := r
      obtain ⟨op', f', v', i', t'⟩ := q
      simp only [cleared, rule.injEq, Rule.mk.injEq] at h
      simp only [indices, List.cons.injEq] at hi
      obtain ⟨rfl, rfl, rfl, -, rfl⟩ := h
      rw [hi.1]
  | group c i ns, group d j ms, h, hi => by
      simp only [cleared, group.injEq, true_and] at h
      simp only [indices, List.cons.injEq] at hi
      rw [h.1, hi.1, eq_of_clearedAll_eq h.2 hi.2]
  | rule _, group .., h, _ | group .., rule _, h, _ => by simp [cleared] at h

lemma eq_of_clearedAll_eq : ∀ {ns ms : List Node}, clearedAll ns = clearedAll ms →
    indicesAll ns = indicesAll ms → ns = ms
  | [], [], _, _ => rfl
  | n :: ns, m :: ms, h, hi => by
      simp only [clearedAll, List.cons.injEq] at h
      simp only [indicesAll] at hi
      obtain ⟨hn, hns⟩ := List.append_inj hi (length_indices_eq h.1)
      rw [eq_of_cleared_eq h.1 hn, eq_of_clearedAll_eq h.2 hns]
  | [], _ :: _, h, _ | _ :: _, [], h, _ => by simp [clearedAll] at h

end

end Node

namespace Group

lemma toNode_renumber (g : Group) (start : Nat) :
    (g.renumber start).1.toNode = (g.toNode.renumber start).1 := rfl

lemma toNode_cleared (g : Group) : g.cleared.toNode = g.toNode.cleared := rfl

lemma toNode_injective {g h : Group} (e : g.toNode = h.toNode) : g = h := by
  cases g
  cases h
  cases e
  rfl

/-- Renumbering a tree does not change its shape. -/
lemma cleared_renumber (g : Group) (start : Nat) : (g.renumber start).1.cleared = g.cleared := by
  refine toNode_injective ?_
  rw [toNode_cleared, toNode_cleared, toNode_renumber, Node.cleared_renumber]

lemma cleared_numbered (g : Group) : g.numbered.cleared = g.cleared :=
  cleared_renumber g 0

lemma indices_numbered (g : Group) : g.numbered.indices = List.range g.indices.length := by
  rw [numbered, (g.indices_renumber 0).1, List.range_eq_range']

/-- **The numbered tree is the one of its shape with the indices 0, 1, 2 and so on.** -/
theorem eq_numbered_iff {t g : Group} :
    t = g.numbered ↔ t.cleared = g.cleared ∧ t.indices = List.range t.indices.length := by
  constructor
  · rintro rfl
    refine ⟨cleared_numbered g, ?_⟩
    rw [indices_numbered, List.length_range]
  · rintro ⟨hc, hi⟩
    have hn : t.toNode.cleared = g.numbered.toNode.cleared := by
      rw [← toNode_cleared, ← toNode_cleared, cleared_numbered, hc]
    have hl : t.indices.length = g.indices.length :=
      Node.length_indices_eq (by rw [← toNode_cleared, ← toNode_cleared, hc])
    refine toNode_injective (Node.eq_of_cleared_eq hn ?_)
    change t.indices = g.numbered.indices
    rw [indices_numbered, ← hl, ← hi]

end Group

/-! ## The largest index -/

namespace Node

mutual

lemma maxIndex_le_iff {b : Nat} : ∀ n : Node, n.maxIndex ≤ b ↔ ∀ i ∈ n.indices, i ≤ b
  | rule r => by simp [maxIndex, indices]
  | group c i ns => by
      rw [maxIndex, indices, max_le_iff, List.forall_mem_cons, maxIndexAll_le_iff ns]

lemma maxIndexAll_le_iff {b : Nat} : ∀ ns : List Node,
    maxIndexAll ns ≤ b ↔ ∀ i ∈ indicesAll ns, i ≤ b
  | [] => by simp [maxIndexAll, indicesAll]
  | n :: ns => by
      rw [maxIndexAll, indicesAll, max_le_iff, List.forall_mem_append, maxIndex_le_iff n,
        maxIndexAll_le_iff ns]

end

end Node

namespace Group

lemma le_maxIndex {g : Group} {i : Nat} (hi : i ∈ g.indices) : i ≤ g.maxIndex :=
  (Node.maxIndex_le_iff g.toNode).mp le_rfl i hi

/-- The largest index is that of a node, since the root has one. -/
lemma maxIndex_mem_indices (g : Group) : g.maxIndex ∈ g.indices := by
  by_contra hnone
  have hlt : ∀ i ∈ g.indices, i < g.maxIndex := by
    intro i hi
    refine (le_maxIndex hi).lt_of_ne ?_
    rintro rfl
    exact hnone hi
  have hpred : g.maxIndex ≤ g.maxIndex - 1 :=
    (Node.maxIndex_le_iff g.toNode).mpr fun i hi => Nat.le_sub_one_of_lt (hlt i hi)
  have hroot := hlt g.index List.mem_cons_self
  omega

/-- Below the limit, the next index follows the largest one. -/
lemma nextIndex_eq {g : Group} (hlimit : ∀ i ∈ g.indices, i < indexLimit) :
    g.nextIndex = g.maxIndex + 1 :=
  min_eq_left (hlimit _ g.maxIndex_mem_indices)

/-- **Below the limit, the next index is above all others.** -/
lemma lt_nextIndex {g : Group} (hlimit : ∀ i ∈ g.indices, i < indexLimit) {i : Nat}
    (hi : i ∈ g.indices) : i < g.nextIndex := by
  rw [nextIndex_eq hlimit]
  exact Nat.lt_succ_of_le (le_maxIndex hi)

/-- The next free indices of a tree, as many as asked for. -/
def freeIndices (g : Group) (count : Nat) : List Nat :=
  (List.range' g.nextIndex count).map wrapIndex

lemma freeIndices_one (g : Group) : g.freeIndices 1 = [g.nextIndex] :=
  congrArg (fun i => [i]) (wrapIndex_of_le g.nextIndex_le)

lemma nextIndex_mem_freeIndices {g : Group} {count : Nat} (h : 0 < count) :
    g.nextIndex ∈ g.freeIndices count :=
  List.mem_map.mpr ⟨g.nextIndex, List.mem_range'_1.mpr ⟨le_rfl, Nat.lt_add_of_pos_right h⟩,
    wrapIndex_of_le g.nextIndex_le⟩

/-- **Below the limit, the next free indices are consecutive.** -/
lemma freeIndices_eq {g : Group} {count : Nat} (h : ∀ i ∈ g.freeIndices count, i < indexLimit) :
    g.freeIndices count = List.range' g.nextIndex count := by
  have hroom : g.nextIndex + count ≤ indexLimit := by
    by_contra hover
    -- counting to the limit or past it would give out the largest index
    have hlast : indexLimit ∈ g.freeIndices count :=
      List.mem_map.mpr ⟨indexLimit, List.mem_range'_1.mpr ⟨g.nextIndex_le, by omega⟩,
        wrapIndex_of_le le_rfl⟩
    exact lt_irrefl _ (h _ hlast)
  have hsame : ∀ i ∈ List.range' g.nextIndex count, wrapIndex i = i := by
    intro i hi
    have hlt := (List.mem_range'_1.mp hi).2
    exact wrapIndex_of_le (by omega)
  rw [freeIndices, List.map_congr_left hsame, List.map_id']

end Group

end AccessFilter
