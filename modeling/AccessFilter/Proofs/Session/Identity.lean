import AccessFilter.Proofs.Tree.Edit
import AccessFilter.Proofs.Tree.Negation
import AccessFilter.Proofs.Tree.Numbering
import AccessFilter.Tree.Session
import Mathlib.Data.List.Flatten
import Mathlib.Data.List.Nodup

/-!
# Nodes keep their indices

An editor knows a node by its index while the node moves about: the children after one that is
removed all come one position forward.  So indices have to be told apart by the node they are found
at, and a node is followed from one tree to the next by its position, the way to it from the root.

**Positions.**  `Group.indexAt?` is the index at a position.  An edit changes it at no position, or
at new ones only, or moves it as `beforeRemoval` says.

**Distinct indices.**  No index comes up more often after an edit than in the tree and in the new
nodes together, and new nodes are numbered from `Group.nextIndex`, above all others.  That is so as
long as indices stay below `indexLimit`; once the limit is reached they are given out again.

* `Edit.KeepsIndices` — what an edit may do to the index of a node.
* `Group.Extends` — what an edit may do to the indices of a tree as a whole.
* `Group.nodup_indices_apply`, `Group.keepsIndices` — what one edit does.
* **`Group.nodup_indices_run_and_keepsIndices`** — what holds all along a session.
-/

namespace AccessFilter

/-! ## Positions -/

/-- The index of the node at a position, none if the position is not in the tree. -/
def Node.indexAt? : Node → (position : List Nat) → Option Nat
  | n, [] => some n.index
  | group _ _ ns, k :: position => ns[k]?.bind fun n => n.indexAt? position
  | rule _, _ :: _ => none

lemma Node.mem_indices_of_indexAt?_eq {i : Nat} : ∀ {position : List Nat} {n : Node},
    n.indexAt? position = some i → i ∈ n.indices
  | [], n, h => by
      obtain rfl := Option.some.inj h
      cases n with
      | rule r => exact List.mem_singleton_self _
      | group c j ns => exact List.mem_cons_self
  | k :: position, .group c j ns, h => by
      obtain ⟨n, hn, hi⟩ := Option.bind_eq_some_iff.mp h
      rw [indices, indicesAll_eq_flatMap]
      refine List.mem_cons_of_mem j (List.mem_flatMap.mpr ⟨n, List.mem_of_getElem? hn, ?_⟩)
      exact mem_indices_of_indexAt?_eq hi

namespace Group

/-- The index of the node at a position of a tree. -/
def indexAt? (g : Group) (position : List Nat) : Option Nat :=
  g.toNode.indexAt? position

lemma indexAt?_cons (g : Group) (k : Nat) (position : List Nat) :
    g.indexAt? (k :: position) = g.children[k]?.bind fun n => n.indexAt? position := rfl

/-- The positions below a child that is exchanged are those of the new node. -/
lemma indexAt?_set {g : Group} {i : Nat} {old : Node} (hi : g.children[i]? = some old) (n : Node)
    (k : Nat) (position : List Nat) :
    indexAt? { g with children := g.children.set i n } (k :: position) =
      if k = i then n.indexAt? position else g.indexAt? (k :: position) := by
  rw [indexAt?_cons]
  split_ifs with hk
  · rw [hk, List.getElem?_set_self (List.getElem?_eq_some_iff.mp hi).1]
    rfl
  · rw [List.getElem?_set_ne (Ne.symm hk), indexAt?_cons]

/-- Where a node was before the child at `removed` of the group at a path was taken out: the
children after that one came forward. -/
def beforeRemoval (removed : Nat) : (path position : List Nat) → List Nat
  | [], k :: position => (if k < removed then k else k + 1) :: position
  | i :: path, k :: position => k :: if k = i then beforeRemoval removed path position else position
  | _, [] => []

/-- **The positions after an edit, seen from the group that it changes.** -/
lemma indexAt?_edit {Q : Option Nat → Option Nat → Prop} (hrefl : ∀ o, Q o o)
    {change : Group → Option Group}
    (hchange : ∀ g h, change g = some h → ∀ p, Q (g.indexAt? p) (h.indexAt? p))
    (g : Group) (path p : List Nat) : Q (g.indexAt? p) ((g.edit path change).indexAt? p) := by
  refine edit_induction (motive := fun g h => ∀ p, Q (g.indexAt? p) (h.indexAt? p))
    (fun _ _ => hrefl _) hchange ?_ g path p
  intro g i child h hi ih p
  cases p with
  | nil => exact hrefl _
  | cons k p =>
      rw [indexAt?_set hi]
      split_ifs with hk
      · rw [hk, indexAt?_cons, hi]
        exact ih p
      · exact hrefl _

lemma indexAt?_removeChild (g : Group) (path : List Nat) (removed : Nat) :
    g.removeChild path removed = g ∨ ∀ p,
      (g.removeChild path removed).indexAt? p = g.indexAt? (beforeRemoval removed path p) := by
  refine (edit_eq_or g path (eraseChild removed)).symm.imp_right ?_
  refine editAt?_induction (motive := fun path g h =>
    ∀ p, h.indexAt? p = g.indexAt? (beforeRemoval removed path p)) ?_ ?_
  · intro g h herase p
    obtain ⟨-, -, rfl⟩ := eraseChild_eq_some_iff.mp herase
    cases p with
    | nil => rfl
    | cons k p =>
        rw [beforeRemoval, indexAt?_cons, indexAt?_cons, List.getElem?_eraseIdx]
        split_ifs <;> rfl
  · intro g i path child h hi ih p
    cases p with
    | nil => rfl
    | cons k p =>
        rw [beforeRemoval, indexAt?_set hi]
        split_ifs with hk
        · rw [hk, indexAt?_cons, hi]
          exact ih p
        · rfl

lemma indexAt?_setConnective (g : Group) (path : List Nat) (connective : Connective)
    (p : List Nat) : (g.setConnective path connective).indexAt? p = g.indexAt? p := by
  refine (indexAt?_edit (Q := Eq) Eq.refl ?_ g path p).symm
  intro g h hset p
  obtain ⟨-, rfl⟩ := withConnective_eq_some_iff.mp hset
  cases p <;> rfl

lemma indexAt?_changeRule (g : Group) (path : List Nat) (position : Nat) (change : RuleChange)
    (p : List Nat) : (g.changeRule path position change).indexAt? p = g.indexAt? p := by
  refine (indexAt?_edit (Q := Eq) Eq.refl ?_ g path p).symm
  intro g h hset p
  obtain ⟨r, hr, rfl⟩ := changeChild_eq_some_iff.mp hset
  cases p with
  | nil => rfl
  | cons k p =>
      rw [indexAt?_set hr]
      split_ifs with hk
      · rw [hk, indexAt?_cons, hr]
        cases p <;> rfl
      · rfl

end Group

/-! ## New nodes -/

namespace Group

/-- A new node has the next free indices, a new group before the rule in it. -/
lemma indices_newNode (g : Group) (rule : Option Rule) (asGroup : Bool) :
    (newNode rule asGroup g.nextIndex).indices = g.freeIndices (if asGroup then 2 else 1) := by
  cases asGroup <;> rfl

lemma indexAt?_addRule (g : Group) (path : List Nat) (rule : Option Rule) (asGroup : Bool)
    (p : List Nat) : (g.addRule path rule asGroup).indexAt? p = g.indexAt? p ∨
      g.indexAt? p = none ∧ ∀ i ∈ (g.addRule path rule asGroup).indexAt? p,
        i ∈ g.freeIndices (if asGroup then 2 else 1) := by
  rw [← g.indices_newNode rule asGroup]
  refine indexAt?_edit (Q := fun o o' => o' = o ∨
    o = none ∧ ∀ i ∈ o', i ∈ (newNode rule asGroup g.nextIndex).indices)
    (fun o => .inl rfl) ?_ g path p
  intro k h hadd p
  obtain ⟨-, rfl⟩ := addChild_eq_some_iff.mp hadd
  cases p with
  | nil => exact .inl rfl
  | cons j p =>
      rw [indexAt?_cons, indexAt?_cons]
      rcases lt_trichotomy j k.children.length with hj | hj | hj
      · left
        rw [List.getElem?_append_left hj]
      · right
        subst hj
        rw [List.getElem?_concat_length, List.getElem?_eq_none le_rfl]
        exact ⟨rfl, fun i hi => Node.mem_indices_of_indexAt?_eq hi⟩
      · left
        have hpast : (k.children ++ [newNode rule asGroup g.nextIndex]).length ≤ j := by
          simpa [Nat.succ_le_iff] using hj
        rw [List.getElem?_eq_none hj.le, List.getElem?_eq_none hpast]

end Group

/-! ## Distinct indices -/

namespace Node

/-- Putting a node in place of another one trades the indices of the two. -/
lemma count_indicesAll_set {ns : List Node} {k : Nat} {n : Node} (h : ns[k]? = some n) (m : Node)
    (i : Nat) : (indicesAll (ns.set k m)).count i + n.indices.count i =
      (indicesAll ns).count i + m.indices.count i := by
  obtain ⟨hk, rfl⟩ := List.getElem?_eq_some_iff.mp h
  obtain ⟨as, bs, hns, -, hset⟩ : ∃ as bs, ns = as ++ ns[k] :: bs ∧ as.length = k ∧
      ns.set k m = as ++ m :: bs := List.exists_of_set hk
  have hold : (indicesAll ns).count i =
      (indicesAll as).count i + (ns[k].indices.count i + (indicesAll bs).count i) := by
    conv_lhs => rw [hns]
    rw [indicesAll_append, indicesAll, List.count_append, List.count_append]
  rw [hset, hold, indicesAll_append, indicesAll, List.count_append, List.count_append]
  omega

/-- The opposite of a rule has its index. -/
lemma Opposite.indices_eq {n m : Node} (h : Opposite n m) : m.indices = n.indices := by
  obtain ⟨hq⟩ := h
  rcases Rule.flipped?_eq_some_iff.mp hq with ⟨-, rfl⟩ | ⟨-, rfl⟩ <;> rfl

lemma indicesAll_eq_of_forall₂ {ns ms : List Node} (h : List.Forall₂ Opposite ns ms) :
    indicesAll ms = indicesAll ns := by
  induction h with
  | nil => rfl
  | cons hn _ ih => rw [indicesAll, indicesAll, ih, hn.indices_eq]

mutual

/-- Pushing negations down takes nodes away, and the other ones keep their indices. -/
lemma indices_pushNegations_sublist : ∀ n : Node, n.pushNegations.indices.Sublist n.indices
  | rule r => .refl _
  | group c i ns => by
      by_cases hc : c = .not
      · subst hc
        rcases pushNegations_not i ns with hp | ⟨n, m, rfl, hm, hp⟩ |
          ⟨c, j, ms, ks, -, rfl, hk, hp⟩
        · rw [hp]
        · rw [hp, hm.indices_eq, indices, indicesAll, indicesAll, List.append_nil]
          exact List.sublist_cons_self i _
        · rw [hp, indices, indices, indicesAll, indicesAll, List.append_nil, indices,
            indicesAll_eq_of_forall₂ hk]
          exact (List.sublist_cons_self j _).cons_cons i
      · rw [pushNegations_group hc, indices, indices]
        exact (indicesAll_pushAll_sublist ns).cons_cons i

lemma indicesAll_pushAll_sublist : ∀ ns : List Node,
    (indicesAll (pushAll ns)).Sublist (indicesAll ns)
  | [] => .refl _
  | n :: ns => by
      rw [pushAll, indicesAll, indicesAll]
      exact (indices_pushNegations_sublist n).append (indicesAll_pushAll_sublist ns)

end

end Node

namespace Group

lemma indices_eq_cons (g : Group) : g.indices = g.index :: Node.indicesAll g.children := rfl

/-- **The indices after an edit, seen from the group that it changes.** -/
lemma count_indices_edit {new : List Nat} {change : Group → Option Group}
    (hchange : ∀ g h, change g = some h → ∀ i, h.indices.count i ≤ (g.indices ++ new).count i)
    (g : Group) (path : List Nat) (i : Nat) :
    (g.edit path change).indices.count i ≤ (g.indices ++ new).count i := by
  refine edit_induction (motive := fun g h => ∀ i, h.indices.count i ≤ (g.indices ++ new).count i)
    ?_ hchange ?_ g path i
  · intro g i
    rw [List.count_append]
    exact Nat.le_add_right _ _
  · intro g k child h hk ih i
    have hset := Node.count_indicesAll_set hk h.toNode i
    have hchild : h.toNode.indices.count i ≤ (child.toNode.indices ++ new).count i := ih i
    rw [List.count_append] at hchild ⊢
    simp only [indices_eq_cons, List.count_cons]
    omega

/-- **What an edit does to the indices of a tree.**  None of them comes up more often than before,
and the new ones are given out. -/
structure Extends (new : List Nat) (before after : Group) : Prop where
  count_le : ∀ i, after.indices.count i ≤ (before.indices ++ new).count i
  subset : new ⊆ after.indices

lemma extends_self (g : Group) : Extends [] g g :=
  ⟨fun _ => by rw [List.append_nil], List.nil_subset _⟩

/-- Edits without new nodes. -/
lemma extends_edit {change : Group → Option Group}
    (hchange : ∀ g h, change g = some h → ∀ i, h.indices.count i ≤ g.indices.count i)
    (g : Group) (path : List Nat) : Extends [] g (g.edit path change) :=
  ⟨count_indices_edit (by simpa using hchange) g path, List.nil_subset _⟩

/-- The indices of a new node are given out if the node finds its place. -/
lemma indices_newNode_subset {node : Node} {path : List Nat} {g h : Group}
    (hadd : editAt? (addChild node) g path = some h) : node.indices ⊆ h.indices := by
  refine editAt?_induction (motive := fun _ _ h => node.indices ⊆ h.indices) ?_ ?_ hadd
  · intro g h hadd i hi
    obtain ⟨-, rfl⟩ := addChild_eq_some_iff.mp hadd
    simp [indices_eq_cons, Node.indicesAll, hi]
  · intro g k path child h hk ih i hi
    have hlt : k < g.children.length := (List.getElem?_eq_some_iff.mp hk).1
    have hmem : h.toNode ∈ g.children.set k h.toNode := List.mem_set hlt h.toNode
    rw [indices_eq_cons, Node.indicesAll_eq_flatMap]
    exact List.mem_cons_of_mem _ (List.mem_flatMap.mpr ⟨h.toNode, hmem, ih hi⟩)

/-- An addition gives out the next free index, and two if it adds a group, or it leaves the tree as
it is. -/
lemma extends_addRule (g : Group) (path : List Nat) (rule : Option Rule) (asGroup : Bool) :
    g.addRule path rule asGroup = g ∨
      Extends (g.freeIndices (if asGroup then 2 else 1)) g (g.addRule path rule asGroup) := by
  refine (edit_eq_or g path (addChild (newNode rule asGroup g.nextIndex))).symm.imp_right ?_
  intro hadd
  rw [← g.indices_newNode rule asGroup]
  refine ⟨count_indices_edit ?_ g path, indices_newNode_subset hadd⟩
  intro g h hadd i
  obtain ⟨-, rfl⟩ := addChild_eq_some_iff.mp hadd
  simp [indices_eq_cons, Node.indicesAll]

lemma extends_removeChild (g : Group) (path : List Nat) (position : Nat) :
    Extends [] g (g.removeChild path position) := by
  refine extends_edit ?_ g path
  intro g h herase i
  obtain ⟨-, -, rfl⟩ := eraseChild_eq_some_iff.mp herase
  refine List.Sublist.count_le i ?_
  rw [indices_eq_cons, indices_eq_cons, Node.indicesAll_eq_flatMap, Node.indicesAll_eq_flatMap]
  exact ((List.eraseIdx_sublist _ _).flatMap _).cons_cons _

lemma extends_setConnective (g : Group) (path : List Nat) (connective : Connective) :
    Extends [] g (g.setConnective path connective) := by
  refine extends_edit ?_ g path
  intro g h hset i
  obtain ⟨-, rfl⟩ := withConnective_eq_some_iff.mp hset
  exact le_rfl

lemma extends_changeRule (g : Group) (path : List Nat) (position : Nat) (change : RuleChange) :
    Extends [] g (g.changeRule path position change) := by
  refine extends_edit ?_ g path
  intro g h hset i
  obtain ⟨r, hr, rfl⟩ := changeChild_eq_some_iff.mp hset
  have hcount := Node.count_indicesAll_set hr (.rule (change.apply r)) i
  have hrule : (Node.rule (change.apply r)).indices = (Node.rule r).indices := rfl
  rw [hrule] at hcount
  simp only [indices_eq_cons, List.count_cons]
  omega

/-- Where the root gives way to a group the next index is given out, and else none. -/
lemma extends_pushNegations (g : Group) :
    Extends [] g g.pushNegations ∨ Extends (g.freeIndices 1) g g.pushNegations := by
  rw [freeIndices_one]
  rcases g.pushNegations_cases with ⟨-, hp⟩ | ⟨-, hp | ⟨n, m, hn, hm, hp⟩ |
    ⟨c, j, ms, ks, -, hn, hk, hp⟩⟩
  · left
    refine ⟨fun i => ?_, List.nil_subset _⟩
    rw [hp, indices_eq_cons, List.append_nil]
    exact ((Node.indicesAll_pushAll_sublist g.children).cons_cons g.index).count_le i
  · left
    rw [hp]
    exact extends_self g
  · left
    have hsame : g.pushNegations.indices = g.indices := by
      rw [hp, indices_eq_cons, indices_eq_cons, hn, Node.indicesAll, hm.indices_eq]
      rfl
    exact ⟨fun i => by rw [hsame, List.append_nil], List.nil_subset _⟩
  · right
    rw [hp]
    refine ⟨fun i => ?_, ?_⟩
    · simp only [indices_eq_cons, hn, Node.indicesAll, Node.indices, List.append_nil,
        Node.indicesAll_eq_of_forall₂ hk, List.count_cons, List.count_append, List.count_nil]
      omega
    · simp [indices_eq_cons, Node.indicesAll, Node.indices]

/-- **Every edit gives out the next free indices,** as many as it has new nodes. -/
theorem extends_apply (g : Group) (e : Edit) :
    ∃ count, Extends (g.freeIndices count) g (g.apply e) := by
  cases e with
  | addRule path rule asGroup =>
      rcases extends_addRule g path rule asGroup with h | h
      · refine ⟨0, ?_⟩
        rw [apply, h]
        exact extends_self g
      · exact ⟨_, h⟩
  | removeChild path position => exact ⟨0, extends_removeChild g path position⟩
  | setConnective path connective => exact ⟨0, extends_setConnective g path connective⟩
  | changeRule path position change => exact ⟨0, extends_changeRule g path position change⟩
  | select path position field raw resolver => exact ⟨0, extends_changeRule g path position _⟩
  | pushNegations =>
      rcases extends_pushNegations g with h | h
      · exact ⟨0, h⟩
      · exact ⟨1, h⟩

/-- Below the limit these are the numbers from the next index on. -/
lemma extends_apply_range' {g : Group} {e : Edit}
    (hafter : ∀ i ∈ (g.apply e).indices, i < indexLimit) :
    ∃ count, Extends (List.range' g.nextIndex count) g (g.apply e) := by
  obtain ⟨count, hext⟩ := extends_apply g e
  refine ⟨count, ?_⟩
  rw [← freeIndices_eq fun i hi => hafter i (hext.subset hi)]
  exact hext

/-- **One edit leaves distinct indices distinct.** -/
theorem nodup_indices_apply {g : Group} {e : Edit} (hg : g.indices.Nodup)
    (hlimit : ∀ i ∈ g.indices, i < indexLimit)
    (hafter : ∀ i ∈ (g.apply e).indices, i < indexLimit) : (g.apply e).indices.Nodup := by
  obtain ⟨count, hext⟩ := extends_apply_range' hafter
  have hfresh : ∀ i ∈ g.indices, ∀ j ∈ List.range' g.nextIndex count, i ≠ j := by
    intro i hi j hj
    exact ((lt_nextIndex hlimit hi).trans_le (List.mem_range'_1.mp hj).1).ne
  have hboth : (g.indices ++ List.range' g.nextIndex count).Nodup :=
    List.nodup_append.mpr ⟨hg, List.nodup_range', hfresh⟩
  exact List.nodup_iff_count_le_one.mpr fun i =>
    (hext.count_le i).trans (List.nodup_iff_count_le_one.mp hboth i)

end Group

/-! ## Sessions -/

/-- **What becomes of the index of a node.**  A rule that is added, or the group around it, gets an
index greater than all in the tree before, and the nodes that were there keep theirs.  After a child
is removed every node that is left has the index it had where it stood before.  The edits of a
connective or of a rule change no index.  A root that was a not and gives way to a group keeps its
index, and that group gets one greater than all before. -/
def Edit.KeepsIndices (g : Group) : Edit → Prop
  | .addRule path rule asGroup =>
    (∀ p i, g.indexAt? p = some i → (g.addRule path rule asGroup).indexAt? p = some i) ∧
      ∀ p i, g.indexAt? p = none → (g.addRule path rule asGroup).indexAt? p = some i →
        ∀ j ∈ g.indices, j < i
  | .removeChild path position =>
    g.removeChild path position = g ∨ ∀ p,
      (g.removeChild path position).indexAt? p = g.indexAt? (Group.beforeRemoval position path p)
  | .setConnective path connective =>
    ∀ p, (g.setConnective path connective).indexAt? p = g.indexAt? p
  | .changeRule path position change =>
    ∀ p, (g.changeRule path position change).indexAt? p = g.indexAt? p
  | .select path position field raw resolver =>
    ∀ p, (g.select path position field raw resolver).indexAt? p = g.indexAt? p
  | .pushNegations =>
    g.connective = .not → g.pushNegations = g ∨
      (∃ r, g.pushNegations = ⟨.or, g.index, [.rule r]⟩) ∨
      ∃ c i ns, g.pushNegations = ⟨.or, g.index, [.group c i ns]⟩ ∧ ∀ j ∈ g.indices, j < i

namespace Group

/-- An added node has an index above all in the tree, as long as indices stay below the limit. -/
lemma lt_of_indexAt?_addRule_eq {g : Group} {path : List Nat} {rule : Option Rule} {asGroup : Bool}
    (hlimit : ∀ i ∈ g.indices, i < indexLimit)
    (hafter : ∀ i ∈ (g.addRule path rule asGroup).indices, i < indexLimit) {p : List Nat} {i : Nat}
    (hnone : g.indexAt? p = none) (hi : (g.addRule path rule asGroup).indexAt? p = some i) :
    ∀ j ∈ g.indices, j < i := by
  intro j hj
  rcases indexAt?_addRule g path rule asGroup p with h | ⟨-, hfree⟩
  · rw [h, hnone] at hi
    cases hi
  · rcases extends_addRule g path rule asGroup with hsame | hext
    · rw [hsame, hnone] at hi
      cases hi
    · have hmem := hfree i hi
      rw [freeIndices_eq fun i hi => hafter i (hext.subset hi), List.mem_range'_1] at hmem
      exact (lt_nextIndex hlimit hj).trans_le hmem.1

/-- **What one edit does to the index of a node.** -/
theorem keepsIndices {g : Group} {e : Edit} (hlimit : ∀ i ∈ g.indices, i < indexLimit)
    (hafter : ∀ i ∈ (g.apply e).indices, i < indexLimit) : e.KeepsIndices g := by
  cases e with
  | addRule path rule asGroup =>
      constructor
      · intro p i hi
        rcases indexAt?_addRule g path rule asGroup p with h | ⟨h, -⟩
        · rw [h, hi]
        · rw [h] at hi
          cases hi
      · intro p i hnone hi
        exact lt_of_indexAt?_addRule_eq hlimit hafter hnone hi
  | removeChild path position => exact indexAt?_removeChild g path position
  | setConnective path connective => exact indexAt?_setConnective g path connective
  | changeRule path position change => exact indexAt?_changeRule g path position change
  | select path position field raw resolver => exact indexAt?_changeRule g path position _
  | pushNegations =>
      intro hnot
      rcases g.pushNegations_cases with ⟨hc, -⟩ | ⟨-, hp | ⟨n, m, -, hm, hp⟩ |
        ⟨c, j, ms, ks, -, -, -, hp⟩⟩
      · exact absurd hnot hc
      · exact .inl hp
      · obtain ⟨hq⟩ := hm
        exact .inr (.inl ⟨_, hp⟩)
      · exact .inr (.inr ⟨_, _, _, hp, fun j hj => lt_nextIndex hlimit hj⟩)

lemma run_take_succ (g : Group) {edits : List Edit} {k : Nat} (hk : k < edits.length) :
    g.run (edits.take (k + 1)) = (g.run (edits.take k)).apply edits[k] := by
  rw [List.take_succ_eq_append_getElem hk, run_append]
  rfl

/-- **Nodes keep their indices all along a session.**  As long as no index reaches the limit, a
session that starts from a tree with distinct indices goes through such trees only, and every edit
of it does to the index of a node what `Edit.KeepsIndices` says. -/
theorem nodup_indices_run_and_keepsIndices {g : Group} {edits : List Edit} (hg : g.indices.Nodup)
    (hlimit : ∀ k ≤ edits.length, ∀ i ∈ (g.run (edits.take k)).indices, i < indexLimit) :
    (∀ k ≤ edits.length, (g.run (edits.take k)).indices.Nodup) ∧
      ∀ k, ∀ hk : k < edits.length, edits[k].KeepsIndices (g.run (edits.take k)) := by
  have hafter : ∀ k, ∀ hk : k < edits.length,
      ∀ i ∈ ((g.run (edits.take k)).apply edits[k]).indices, i < indexLimit := by
    intro k hk
    rw [← run_take_succ g hk]
    exact hlimit (k + 1) hk
  constructor
  · intro k hk
    induction k with
    | zero => exact hg
    | succ k ih =>
        rw [run_take_succ g hk]
        exact nodup_indices_apply (ih (Nat.le_of_succ_le hk)) (hlimit k (Nat.le_of_succ_le hk))
          (hafter k hk)
  · intro k hk
    exact keepsIndices (hlimit k hk.le) (hafter k hk)

/-- A not at the root and indices in no order. -/
def scatteredTree : Group :=
  ⟨.not, 7, [.group .and 3 [.rule ⟨.equals, "a", some (.text "1"), 9, .after⟩,
    .rule ⟨.notEquals, "b", none, 4, .before⟩]]⟩

/-- The root gives way, a rule with an index of its own is added in a group, and a path is stale. -/
def scatteredEdits : List Edit :=
  [.changeRule [0] 1 RuleChange.empty, .pushNegations,
    .addRule [0] (some ⟨.contains, "c", none, 9, .after⟩) true, .removeChild [0] 0,
    .setConnective [0, 1] .not, .select [0, 1] 0 ⟨.other, none⟩ (.bool true) Resolver.plain,
    .addRule [5] none false, .addRule [] none false]

theorem nodup_indices_run_and_keepsIndices_scattered :
    scatteredTree.indices = [7, 3, 9, 4] ∧ scatteredTree.indices.Nodup ∧
      (∀ k ≤ 8, ∀ i ∈ (scatteredTree.run (scatteredEdits.take k)).indices, i < indexLimit) ∧
      (scatteredTree.run scatteredEdits).indices = [7, 10, 4, 11, 12, 13] ∧
      (scatteredTree.run scatteredEdits).indices.Nodup ∧
      Edit.pushNegations.KeepsIndices (scatteredTree.run (scatteredEdits.take 1)) := by
  have hnodup : scatteredTree.indices.Nodup := by decide
  have hlimit : ∀ k ≤ 8, ∀ i ∈ (scatteredTree.run (scatteredEdits.take k)).indices,
      i < indexLimit := by decide
  obtain ⟨hdistinct, hkeeps⟩ :=
    @nodup_indices_run_and_keepsIndices scatteredTree scatteredEdits hnodup hlimit
  exact ⟨by decide, hnodup, hlimit, by decide, hdistinct 8 le_rfl, hkeeps 1 (by decide)⟩

end Group

end AccessFilter
