import Mathlib.Tactic.Common

/-!
# Results of readers

A reader gives a result or a fault, and readers are put together by running one on what the other
left.  These laws take such a composition apart: it succeeds exactly when every part does, and its
fault is that of the first part that fails.

* `ok_bind`, `error_bind` — what a composition computes.
* **`bind_eq_ok_iff`**, `map_eq_ok_iff` — when it succeeds.
* `bind_eq_error_iff`, `map_eq_error_iff` — with which fault it fails.
-/

namespace AccessFilter

variable {ε α β : Type}

@[simp] lemma ok_bind (a : α) (f : α → Except ε β) : (Except.ok a >>= f) = f a := rfl

@[simp] lemma error_bind (e : ε) (f : α → Except ε β) :
    (Except.error e >>= f) = Except.error e := rfl

@[simp] lemma pure_eq_ok (a : α) : (pure a : Except ε α) = Except.ok a := rfl

/-- **A composition succeeds exactly when both parts do.** -/
lemma bind_eq_ok_iff {x : Except ε α} {f : α → Except ε β} {b : β} :
    (x >>= f) = Except.ok b ↔ ∃ a, x = Except.ok a ∧ f a = Except.ok b := by
  cases x with
  | error e => simp
  | ok a => simp

lemma map_eq_ok_iff {x : Except ε α} {f : α → β} {b : β} :
    x.map f = Except.ok b ↔ ∃ a, x = Except.ok a ∧ f a = b := by
  cases x with
  | error e => simp [Except.map]
  | ok a => simp [Except.map]

/-- **A composition fails with the fault of the part that fails first.** -/
lemma bind_eq_error_iff {x : Except ε α} {f : α → Except ε β} {e : ε} :
    (x >>= f) = Except.error e ↔
      x = Except.error e ∨ ∃ a, x = Except.ok a ∧ f a = Except.error e := by
  cases x with
  | error e => simp
  | ok a => simp

lemma map_eq_error_iff {x : Except ε α} {f : α → β} {e : ε} :
    x.map f = Except.error e ↔ x = Except.error e := by
  cases x with
  | error e => simp [Except.map]
  | ok a => simp [Except.map]

end AccessFilter
