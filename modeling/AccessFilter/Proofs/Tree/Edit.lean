import AccessFilter.Tree.Edit
import Mathlib.Tactic.Common

/-!
# What an edit does

An edit changes one group, the one that its path leads to, and puts the result back into the groups
on the way down to it.  What the four changes of a group come to, with the conditions under which
they apply, is stated here, and an induction by which a fact about the group that is changed becomes
one about the whole tree.

* `addChild_eq_some_iff`, `eraseChild_eq_some_iff`, `withConnective_eq_some_iff`,
  `changeChild_eq_some_iff` — the four changes.
* **`editAt?_induction`**, `edit_induction` — from the changed group to the tree.
* `edit_eq_or` — an edit applies, or leaves the tree as it is.
-/

namespace AccessFilter.Group

/-! ## The four changes -/

lemma addChild_eq_some_iff {node : Node} {g h : Group} : addChild node g = some h ↔
    (g.connective = .not → g.children = []) ∧ { g with children := g.children ++ [node] } = h := by
  rw [addChild]
  split_ifs with hfull
  · simp [hfull]
  · have hopen : g.connective = .not → g.children = [] := by simpa using hfull
    rw [Option.some.injEq, and_iff_right hopen]

lemma eraseChild_eq_some_iff {position : Nat} {g h : Group} : eraseChild position g = some h ↔
    g.connective ≠ .not ∧ position < g.children.length ∧
      { g with children := g.children.eraseIdx position } = h := by
  rw [eraseChild]
  split_ifs with hstays <;> grind

lemma withConnective_eq_some_iff {connective : Connective} {g h : Group} :
    withConnective connective g = some h ↔
      (connective = .not → g.children.length = 1) ∧ { g with connective } = h := by
  rw [withConnective]
  split_ifs with hstays <;> grind

lemma changeChild_eq_some_iff {position : Nat} {change : RuleChange} {g h : Group} :
    changeChild position change g = some h ↔ ∃ r, g.children[position]? = some (.rule r) ∧
      { g with children := g.children.set position (.rule (change.apply r)) } = h := by
  rw [changeChild]
  split
  · next r hr => simp [hr]
  · next hr => simpa using fun r h => absurd h (hr r)

/-! ## From the changed group to the tree -/

/-- **An edit seen from the group that it changes.**  What holds of that group and what becomes of
it, and with a child and what becomes of it also holds of the group around them, holds of the tree
and what becomes of it. -/
theorem editAt?_induction {change : Group → Option Group}
    {motive : (path : List Nat) → (before after : Group) → Prop}
    (here : ∀ g h, change g = some h → motive [] g h)
    (below : ∀ (g : Group) (i : Nat) (path : List Nat) (child h : Group),
      g.children[i]? = some child.toNode → motive path child h →
        motive (i :: path) g { g with children := g.children.set i h.toNode }) :
    ∀ {path : List Nat} {g h : Group}, editAt? change g path = some h → motive path g h
  | [], g, h, e => here g h e
  | i :: path, g, h, e => by
      rw [editAt?] at e
      split at e
      · next c j ns hi =>
        obtain ⟨k, hk, rfl⟩ := Option.map_eq_some_iff.mp e
        exact below g i path ⟨c, j, ns⟩ k hi (editAt?_induction here below hk)
      · cases e

/-- An edit applies, or leaves the tree as it is. -/
lemma edit_eq_or (g : Group) (path : List Nat) (change : Group → Option Group) :
    editAt? change g path = some (g.edit path change) ∨ g.edit path change = g := by
  rw [edit]
  cases editAt? change g path with
  | none => exact .inr rfl
  | some h => exact .inl rfl

/-- The same for an edit that may not apply, if what is to be shown also holds of every group and
itself. -/
theorem edit_induction {change : Group → Option Group} {motive : (before after : Group) → Prop}
    (refl : ∀ g, motive g g) (here : ∀ g h, change g = some h → motive g h)
    (below : ∀ (g : Group) (i : Nat) (child h : Group), g.children[i]? = some child.toNode →
      motive child h → motive g { g with children := g.children.set i h.toNode })
    (g : Group) (path : List Nat) : motive g (g.edit path change) := by
  rcases edit_eq_or g path change with h | h
  · exact editAt?_induction (motive := fun _ => motive) here
      (fun g i _ child h hi hchild => below g i child h hi hchild) h
  · rw [h]
    exact refl g

end AccessFilter.Group
