import AccessFilter.Editor.Obstacle
import AccessFilter.Ldap.Reader

/-!
# Opening a stored filter

A stored LDAP filter opens in the structured editor if that can show it, and as text otherwise; a
filter that cannot be read is no failure here.

* `EditorView` — what is shown.
* `EditorView.load` — the state for a stored filter.
-/

namespace AccessFilter

/-- Why a filter is shown as text. -/
inductive TextCause where
  | unreadable (failure : Failure)
  | tooComplex (obstacle : Obstacle)
  deriving DecidableEq, Repr

/-- How a filter is shown: as a tree, or as its text with the reason. -/
inductive EditorView where
  | structured (tree : Group)
  | text (raw : String) (cause : TextCause)
  deriving DecidableEq, Repr

/-- **The state for a stored filter.**  A blank one starts an empty tree. -/
def EditorView.load (raw : String) (maxDepth : Nat) : EditorView :=
  if Text.isBlankText raw then .structured (Group.make .or [])
  else
    match Ldap.parse raw with
    | .error e => .text raw (.unreadable e)
    | .ok tree =>
      match tree.obstacle? maxDepth with
      | some obstacle => .text raw (.tooComplex obstacle)
      | none => .structured tree

end AccessFilter
