import AccessFilter.Proofs.Tree.Edit
import AccessFilter.Proofs.Tree.Numbering

/-!
# An edit changes one group or nothing

The path of an edit leads from the root through groups to a group, or it is out of date.  What an
edit does to the tree is said here in full, for both cases.

**The rest of the tree.**  In the new tree the path leads to the changed group.  The groups on the
way keep their connectives, their indices and the number of their children, and every position that
is neither on the path nor below it holds the node it held (`ReplacedAt`).  This leaves no freedom:
the old tree and the changed group determine the new tree (`replacedAt_iff`).

**The group.**  It has one child more, one less, another connective, or a rule with other parts; a
group that cannot take the change refuses it, and then the tree stays as it is (`Outcome`).

* `Node.at?`, `Group.nodeAt?` — the node at a position.
* `Group.replaceAt` — the tree with another group at a path.
* **`replacedAt_iff`** — what is left of a tree when one group is replaced.
* `outcome_edit` — the outcome of any edit, from what it does to a group.
* **`outcome_edits`** — the outcomes of the four edits.
-/

namespace AccessFilter

/-! ## Positions -/

/-- The node at a position below a node, none if the position is not there. -/
def Node.at? : Node → (position : List Nat) → Option Node
  | n, [] => some n
  | group _ _ ns, k :: position => ns[k]?.bind fun n => n.at? position
  | rule _, _ :: _ => none

namespace Group

/-- The node at a position of a tree. -/
def nodeAt? (g : Group) (position : List Nat) : Option Node :=
  g.toNode.at? position

lemma nodeAt?_cons (g : Group) (k : Nat) (position : List Nat) :
    g.nodeAt? (k :: position) = g.children[k]?.bind fun n => n.at? position := rfl

lemma nodeAt?_singleton (g : Group) (k : Nat) : g.nodeAt? [k] = g.children[k]? := by
  rw [nodeAt?_cons]
  cases g.children[k]? <;> rfl

lemma nodeAt?_cons_of_getElem? {g k : Group} {i : Nat}
    (hi : g.children[i]? = some k.toNode) (position : List Nat) :
    g.nodeAt? (i :: position) = k.nodeAt? position := by
  rw [nodeAt?_cons, hi]
  rfl

/-- What stands above a group is a group. -/
lemma exists_child_of_nodeAt?_eq {g h : Group} {i : Nat} {position : List Nat}
    (hat : g.nodeAt? (i :: position) = some h.toNode) :
    ∃ child : Group, g.children[i]? = some child.toNode ∧
      child.nodeAt? position = some h.toNode := by
  obtain ⟨n, hi, hn⟩ := Option.bind_eq_some_iff.mp (g.nodeAt?_cons i position ▸ hat)
  cases n with
  | group c j ns => exact ⟨⟨c, j, ns⟩, hi, hn⟩
  | rule r => cases position <;> cases hn

/-- **A path leads to a group exactly if the group stands at the position.** -/
lemma at?_eq_some_iff {path : List Nat} {g h : Group} :
    g.at? path = some h ↔ g.nodeAt? path = some h.toNode := by
  induction path generalizing g with
  | nil =>
      change some g = some h ↔ some g.toNode = some h.toNode
      rw [Option.some_inj, Option.some_inj]
      exact ⟨congrArg toNode, toNode_injective⟩
  | cons i path ih =>
      rw [at?]
      constructor
      · intro hat
        split at hat
        · next c j ns hi =>
          rw [nodeAt?_cons_of_getElem? (k := ⟨c, j, ns⟩) hi]
          exact ih.mp hat
        · cases hat
      · intro hat
        obtain ⟨child, hi, hchild⟩ := exists_child_of_nodeAt?_eq hat
        rw [hi]
        exact ih.mpr hchild

/-! ## Another group at a path -/

/-- The tree with another group at a path, and the tree itself if the path leads nowhere. -/
def replaceAt : Group → (path : List Nat) → (new : Group) → Group
  | _, [], new => new
  | g, i :: path, new =>
    match g.children[i]? with
    | some (.group c j ns) =>
      { g with children := g.children.set i (replaceAt ⟨c, j, ns⟩ path new).toNode }
    | _ => g

lemma replaceAt_cons {g child : Group} {i : Nat} (hi : g.children[i]? = some child.toNode)
    (path : List Nat) (new : Group) : g.replaceAt (i :: path) new =
      { g with children := g.children.set i (child.replaceAt path new).toNode } := by
  rw [replaceAt, hi]
  rfl

/-- **A tree in which one group is another one.** -/
structure ReplacedAt (path : List Nat) (new before after : Group) : Prop where
  /-- The new group stands at the end of the path. -/
  here : after.nodeAt? path = some new.toNode
  /-- On the way there stand groups with the connectives, the indices and the numbers of children
  that the groups there had. -/
  above : ∀ q, q <+: path → q ≠ path → ∃ h h' : Group, before.nodeAt? q = some h.toNode ∧
    after.nodeAt? q = some h'.toNode ∧ h'.connective = h.connective ∧ h'.index = h.index ∧
      h'.children.length = h.children.length
  /-- A position that is neither on the path nor below it holds the node it held. -/
  aside : ∀ q, ¬ q <+: path → ¬ path <+: q → after.nodeAt? q = before.nodeAt? q

lemma replacedAt_nil_iff {new before after : Group} :
    ReplacedAt [] new before after ↔ after = new := by
  constructor
  · intro h
    exact toNode_injective (Option.some.inj h.here)
  · rintro rfl
    refine ⟨rfl, ?_, ?_⟩
    · intro q hq hne
      exact absurd (List.prefix_nil.mp hq) hne
    · intro q _ hq
      exact absurd List.nil_prefix hq

/-- **One step down the path:** the child that the path leads through is the only one that is
another, and in it the group at the rest of the path. -/
lemma replacedAt_cons_iff {new before after child : Group} {i : Nat} {path : List Nat}
    (hi : before.children[i]? = some child.toNode) :
    ReplacedAt (i :: path) new before after ↔ ∃ inner, ReplacedAt path new child inner ∧
      after = { before with children := before.children.set i inner.toNode } := by
  have hlt : i < before.children.length := (List.getElem?_eq_some_iff.mp hi).1
  constructor
  · intro h
    obtain ⟨inner, hinner, hhere⟩ := exists_child_of_nodeAt?_eq h.here
    obtain ⟨g, g', hbefore, hafter, hc, hj, -⟩ :=
      h.above [] List.nil_prefix (List.cons_ne_nil i path).symm
    obtain rfl : before = g := toNode_injective (Option.some.inj hbefore)
    obtain rfl : after = g' := toNode_injective (Option.some.inj hafter)
    have hchildren : after.children = before.children.set i inner.toNode := by
      refine List.ext_getElem? fun k => ?_
      by_cases hk : k = i
      · rw [hk, hinner, List.getElem?_set_self hlt]
      · have hstep := h.aside [k] (by simpa [List.cons_prefix_cons] using hk)
          (by simp [List.cons_prefix_cons, Ne.symm hk])
        rw [nodeAt?_singleton, nodeAt?_singleton] at hstep
        rw [hstep, List.getElem?_set_ne (Ne.symm hk)]
    refine ⟨inner, ⟨hhere, ?_, ?_⟩, by rw [← hchildren, ← hc, ← hj]⟩
    · intro q hq hne
      have hstep := h.above (i :: q) (List.cons_prefix_cons.mpr ⟨rfl, hq⟩) (by simpa using hne)
      rwa [nodeAt?_cons_of_getElem? hi, nodeAt?_cons_of_getElem? hinner] at hstep
    · intro q hq hq'
      have hstep := h.aside (i :: q) (by simpa [List.cons_prefix_cons] using hq)
        (by simpa [List.cons_prefix_cons] using hq')
      rwa [nodeAt?_cons_of_getElem? hi, nodeAt?_cons_of_getElem? hinner] at hstep
  · rintro ⟨inner, h, rfl⟩
    have hinner : (before.children.set i inner.toNode)[i]? = some inner.toNode :=
      List.getElem?_set_self hlt
    refine ⟨?_, ?_, ?_⟩
    · rw [nodeAt?_cons_of_getElem? hinner, h.here]
    · intro q hq hne
      cases q with
      | nil => exact ⟨_, _, rfl, rfl, rfl, rfl, List.length_set⟩
      | cons j q =>
          obtain ⟨rfl, hrest⟩ := List.cons_prefix_cons.mp hq
          rw [nodeAt?_cons_of_getElem? hi, nodeAt?_cons_of_getElem? hinner]
          exact h.above q hrest (by simpa using hne)
    · intro q hq hq'
      cases q with
      | nil => exact absurd List.nil_prefix hq
      | cons k q =>
          by_cases hk : k = i
          · subst hk
            rw [nodeAt?_cons_of_getElem? hi, nodeAt?_cons_of_getElem? hinner]
            exact h.aside q (by simpa [List.cons_prefix_cons] using hq)
              (by simpa [List.cons_prefix_cons] using hq')
          · rw [nodeAt?_cons, nodeAt?_cons, List.getElem?_set_ne (Ne.symm hk)]

/-- **What is left of a tree when one group is replaced.** -/
theorem replacedAt_iff {new before after h : Group} {path : List Nat}
    (hat : before.nodeAt? path = some h.toNode) :
    ReplacedAt path new before after ↔ after = before.replaceAt path new := by
  induction path generalizing before after with
  | nil => rw [replacedAt_nil_iff, replaceAt]
  | cons i path ih =>
      obtain ⟨child, hi, hchild⟩ := exists_child_of_nodeAt?_eq hat
      rw [replacedAt_cons_iff hi, replaceAt_cons hi]
      simp only [ih hchild, exists_eq_left]

/-! ## The outcome of an edit -/

/-- An edit goes on in the child that its path leads through. -/
lemma editAt?_cons {change : Group → Option Group} {g child : Group} {i : Nat}
    (hi : g.children[i]? = some child.toNode) (path : List Nat) :
    editAt? change g (i :: path) = (editAt? change child path).map fun inner =>
      { g with children := g.children.set i inner.toNode } := by
  rw [editAt?, hi]
  rfl

/-- **An edit replaces the group at its path by what the change makes of it.** -/
lemma editAt?_of_nodeAt?_eq {change : Group → Option Group} {path : List Nat} {g h : Group}
    (hat : g.nodeAt? path = some h.toNode) :
    editAt? change g path = (change h).map fun new => g.replaceAt path new := by
  induction path generalizing g with
  | nil =>
      obtain rfl : g = h := toNode_injective (Option.some.inj hat)
      rw [editAt?]
      simp only [replaceAt, Option.map_id']
  | cons i path ih =>
      obtain ⟨child, hi, hchild⟩ := exists_child_of_nodeAt?_eq hat
      rw [editAt?_cons hi, ih hchild, Option.map_map]
      simp only [Function.comp_def, replaceAt_cons hi]

/-- **The outcome of an edit at a path.**  The tree is the old one if there is no group at the end
of the path or the group there refuses.  Otherwise it is the old one with only that group
changed. -/
def Outcome (g : Group) (path : List Nat) (refuses : Group → Prop) (changed : Group → Group)
    (after : Group) : Prop :=
  match g.nodeAt? path with
  | some (.group c i ns) => (refuses ⟨c, i, ns⟩ → after = g) ∧
      (¬ refuses ⟨c, i, ns⟩ → ReplacedAt path (changed ⟨c, i, ns⟩) g after)
  | _ => after = g

/-- The outcome of an edit, from what it does to a group. -/
lemma outcome_edit {change : Group → Option Group} {refuses : Group → Prop}
    {changed : Group → Group} (hrefuses : ∀ h, refuses h → change h = none)
    (hchanged : ∀ h, ¬ refuses h → change h = some (changed h)) (g : Group) (path : List Nat) :
    Outcome g path refuses changed (g.edit path change) := by
  rw [Outcome]
  split
  · next c i ns hat =>
    have hedit : editAt? change g path = _ := editAt?_of_nodeAt?_eq (h := ⟨c, i, ns⟩) hat
    refine ⟨fun hno => ?_, fun hyes => ?_⟩
    · rw [edit, hedit, hrefuses _ hno]
      rfl
    · rw [replacedAt_iff (h := ⟨c, i, ns⟩) hat, edit, hedit, hchanged _ hyes]
      rfl
  · next hno =>
    refine edit_of_at?_eq_none change g path (Option.eq_none_iff_forall_ne_some.mpr ?_)
    intro h hat
    exact hno _ _ _ (at?_eq_some_iff.mp hat)

end Group

/-! ## The four edits -/

/-- The node that an edit adds: a rule with the next free index, blank if none is given, or an or of
the rule alone with that index, and the rule numbered after it.  After the largest index comes
zero. -/
def Group.addedNode (g : Group) (rule : Option Rule) (asGroup : Bool) : Node :=
  let rule := rule.getD ⟨.contains, "", some (.text ""), 0, .after⟩
  let following := if g.nextIndex = indexLimit then 0 else g.nextIndex + 1
  if asGroup then .group .or g.nextIndex [.rule { rule with index := following }]
  else .rule { rule with index := g.nextIndex }

/-- A rule with the parts that a change has for it, the others and the index being its own.  A group
stays as it is. -/
def RuleChange.overwritten (change : RuleChange) : Node → Node
  | .rule r => .rule
    { operator := change.operator.getD r.operator
      field := change.field.getD r.field
      value := change.value.getD r.value
      index := r.index
      temporal := change.temporal.getD r.temporal }
  | .group c i ns => .group c i ns

namespace Group

lemma newNode_eq_addedNode (g : Group) (rule : Option Rule) (asGroup : Bool) :
    newNode rule asGroup g.nextIndex = g.addedNode rule asGroup := by
  have hfirst := wrapIndex_of_le g.nextIndex_le
  have hsecond := wrapIndex_succ g.nextIndex_le
  cases asGroup with
  | false =>
      change Node.rule { rule.getD _ with index := wrapIndex g.nextIndex } = _
      rw [hfirst]
      rfl
  | true =>
      change Node.group .or (wrapIndex g.nextIndex)
        [.rule { rule.getD _ with index := wrapIndex (g.nextIndex + 1) }] = _
      rw [hfirst, hsecond]
      rfl

/-- **What the four edits do.**  Each of them changes the group at its path and nothing else, or
leaves the tree as it is.  A node is added after the children of a group, numbered from the next
index of the whole tree, unless that group is a not with a child; a child is removed, unless it is
the child of a not or not there; a group gets another connective, unless it would become a not
without having exactly one child; and a rule gets other parts, unless there is no rule at its
position. -/
theorem outcome_edits (g : Group) (path : List Nat) :
    (∀ rule asGroup, Outcome g path
      (fun h => h.connective = .not ∧ h.children ≠ [])
      (fun h => { h with children := h.children ++ [g.addedNode rule asGroup] })
      (g.addRule path rule asGroup)) ∧
    (∀ position, Outcome g path
      (fun h => h.connective = .not ∨ h.children.length ≤ position)
      (fun h => { h with children := h.children.take position ++ h.children.drop (position + 1) })
      (g.removeChild path position)) ∧
    (∀ connective, Outcome g path
      (fun h => connective = .not ∧ h.children.length ≠ 1)
      (fun h => { h with connective })
      (g.setConnective path connective)) ∧
    ∀ position change, Outcome g path
      (fun h => ¬ ∃ r, h.children[position]? = some (.rule r))
      (fun h => { h with children := h.children.modify position change.overwritten })
      (g.changeRule path position change) := by
  refine ⟨fun rule asGroup => ?_, fun position => ?_, fun connective => ?_,
    fun position change => ?_⟩
  · rw [addRule, newNode_eq_addedNode]
    refine outcome_edit (fun h hno => ?_) (fun h hyes => ?_) g path
    · rw [addChild, if_pos hno]
    · rw [addChild, if_neg hyes]
  · rw [removeChild]
    refine outcome_edit (fun h hno => ?_) (fun h hyes => ?_) g path
    · rw [eraseChild, if_pos hno]
    · rw [eraseChild, if_neg hyes, List.eraseIdx_eq_take_drop_succ]
  · rw [setConnective]
    refine outcome_edit (fun h hno => ?_) (fun h hyes => ?_) g path
    · rw [withConnective, if_pos hno]
    · rw [withConnective, if_neg hyes]
  · rw [changeRule]
    refine outcome_edit (fun h hno => ?_) (fun h hyes => ?_) g path
    · rw [Option.eq_none_iff_forall_ne_some]
      intro new hnew
      obtain ⟨r, hr, -⟩ := changeChild_eq_some_iff.mp hnew
      exact hno ⟨r, hr⟩
    · obtain ⟨r, hr⟩ := not_not.mp hyes
      rw [changeChild_eq_some_iff]
      refine ⟨r, hr, ?_⟩
      rw [List.modify_eq_set, hr]
      rfl

/-- Where the largest index is taken, an addition gives it out once more and goes on from zero.  A
path that leads nowhere is ignored there as anywhere else. -/
example :
    let full : Group := ⟨.and, indexLimit, []⟩
    (full.addRule [] none true).indices = [indexLimit, indexLimit, 0] ∧
      full.addRule [7] none true = full := by
  decide

end Group

end AccessFilter
