import AccessFilter.Tree.Connective
import Mathlib.Tactic.Common

/-!
# Formulas

Trees, expressions and filter texts say the same kind of thing: conditions joined by and, or and
not.  A `Formula` is what they have in common, whatever the conditions are.

**Parts without conditions.**  A part of a formula in which there is no atom is true or false once
and for all.  Such parts are left out when a filter changes its notation (`trimmed`).  That makes no
difference where the part is neutral, a true operand of an and or a false one of an or
(`trimmableUnder`), and may make one anywhere else.

* `Formula`, `holds` — formulas and their truth.
* `core?`, `value?` — what is left of a formula without the parts that have no atoms, and its truth.
* **`value?_join`** — the truth of what is left, operand by operand.
* **`getD_value?_of_trimmableUnder`** — leaving out neutral parts does not change the truth.
-/

namespace AccessFilter

/-! ## Truth -/

namespace Connective

/-- What a connective makes of the truth values of its operands.  A not has one operand. -/
def combine : Connective → List Bool → Bool
  | .and, bs => bs.all id
  | .or, bs => bs.any id
  | .not, bs => !bs.all id

/-- The same, none if there are no operands. -/
def combine? (c : Connective) : List Bool → Option Bool
  | [] => none
  | b :: bs => some (c.combine (b :: bs))

/-- The truth value that makes no difference among the operands of a connective. -/
def neutral : Connective → Bool
  | .or => false
  | .and | .not => true

/-- **Operands without a truth value can be taken for neutral ones.** -/
lemma combine_filterMap {β : Type} (c : Connective) (value? : β → Option Bool) (xs : List β) :
    c.combine (xs.filterMap value?) = c.combine (xs.map fun x => (value? x).getD c.neutral) := by
  cases c with
  | and | or | not =>
      induction xs with
      | nil => rfl
      | cons x xs ih =>
          simp only [combine] at ih ⊢
          cases hx : value? x <;> simp_all [neutral]

lemma combine?_of_ne_nil {c : Connective} {bs : List Bool} (h : bs ≠ []) :
    c.combine? bs = some (c.combine bs) := by
  cases bs with
  | nil => exact absurd rfl h
  | cons b bs => rfl

/-- **De Morgan's laws.** -/
lemma combine_dual {c : Connective} (hc : c ≠ .not) (bs : List Bool) :
    c.dual.combine (bs.map (!·)) = !c.combine bs := by
  cases c with
  | and | or =>
      induction bs with
      | nil => rfl
      | cons b bs ih =>
          simp only [combine, dual] at ih ⊢
          simp [ih]
  | not => exact absurd rfl hc

end Connective

/-- Conditions of some kind, joined by connectives. -/
inductive Formula (α : Type) where
  | atom (a : α)
  | join (connective : Connective) (operands : List (Formula α))

namespace Formula

variable {α : Type}

mutual

/-- **Whether a formula is true** when its atoms have these truth values. -/
def holds (v : α → Bool) : Formula α → Bool
  | atom a => v a
  | join c fs => c.combine (holdsAll v fs)

/-- The truth values of several formulas. -/
def holdsAll (v : α → Bool) : List (Formula α) → List Bool
  | [] => []
  | f :: fs => f.holds v :: holdsAll v fs

end

mutual

/-- The atoms of a formula. -/
def atoms : Formula α → List α
  | atom a => [a]
  | join _ fs => atomsAll fs

/-- The atoms of several formulas. -/
def atomsAll : List (Formula α) → List α
  | [] => []
  | f :: fs => f.atoms ++ atomsAll fs

end

lemma holdsAll_eq_map (v : α → Bool) (fs : List (Formula α)) :
    holdsAll v fs = fs.map (holds v) := by
  induction fs with
  | nil => rfl
  | cons f fs ih => rw [holdsAll, ih, List.map_cons]

mutual

/-- The truth of a formula depends on its atoms only. -/
lemma holds_congr {v w : α → Bool} : ∀ f : Formula α, (∀ a ∈ f.atoms, v a = w a) →
    f.holds v = f.holds w
  | atom a, h => h a (List.mem_singleton_self a)
  | join c fs, h => by rw [holds, holds, holdsAll_congr fs h]

lemma holdsAll_congr {v w : α → Bool} : ∀ fs : List (Formula α), (∀ a ∈ atomsAll fs, v a = w a) →
    holdsAll v fs = holdsAll w fs
  | [], _ => rfl
  | f :: fs, h => by
      rw [atomsAll, List.forall_mem_append] at h
      rw [holdsAll, holdsAll, holds_congr f h.1, holdsAll_congr fs h.2]

end

/-! ## Parts without atoms -/

mutual

/-- A formula without the operands in it that have no atoms. -/
def trimmed : Formula α → Formula α
  | atom a => atom a
  | join c fs => join c (trimmedAll fs)

/-- Several formulas without those that have no atoms, and without such operands in the others. -/
def trimmedAll : List (Formula α) → List (Formula α)
  | [] => []
  | f :: fs => if f.atoms = [] then trimmedAll fs else f.trimmed :: trimmedAll fs

end

/-- **What is left of a formula without the parts that have no atoms,** none if it has none. -/
def core? (f : Formula α) : Option (Formula α) :=
  if f.atoms = [] then none else some f.trimmed

/-- The truth of what is left of a formula. -/
def value? (v : α → Bool) (f : Formula α) : Option Bool :=
  f.core?.map (holds v)

lemma trimmedAll_eq_filterMap (fs : List (Formula α)) : trimmedAll fs = fs.filterMap core? := by
  induction fs with
  | nil => rfl
  | cons f fs ih =>
      rw [trimmedAll, List.filterMap_cons, core?, ih]
      split_ifs <;> rfl

lemma value?_eq_none_iff (v : α → Bool) {f : Formula α} : f.value? v = none ↔ f.atoms = [] := by
  rw [value?, core?]
  split_ifs with h <;> simp [h]

lemma filterMap_value?_eq_nil_iff (v : α → Bool) (fs : List (Formula α)) :
    fs.filterMap (value? v) = [] ↔ atomsAll fs = [] := by
  induction fs with
  | nil => simp [atomsAll]
  | cons f fs ih =>
      rw [atomsAll, List.append_eq_nil_iff, ← ih, ← value?_eq_none_iff v,
        List.filterMap_cons]
      cases f.value? v <;> simp

@[simp] lemma holds_atom (v : α → Bool) (a : α) : (atom a).holds v = v a := rfl

@[simp] lemma value?_atom (v : α → Bool) (a : α) : (atom a).value? v = some (v a) := rfl

/-- **The truth of what is left of a formula,** operand by operand. -/
theorem value?_join (v : α → Bool) (c : Connective) (fs : List (Formula α)) :
    (join c fs).value? v = c.combine? (fs.filterMap (value? v)) := by
  have hnil := filterMap_value?_eq_nil_iff v fs
  by_cases h : atomsAll fs = []
  · rw [hnil.mpr h, (value?_eq_none_iff v).mpr (by rw [atoms, h])]
    rfl
  · rw [Connective.combine?_of_ne_nil (hnil.ne.mpr h), value?, core?, atoms, if_neg h,
      Option.map_some, trimmed, holds, holdsAll_eq_map, trimmedAll_eq_filterMap,
      List.map_filterMap]
    rfl

/-! ### Neutral parts -/

mutual

/-- Whether the parts without atoms are neutral where they stand, the whole formula standing under a
connective. -/
def trimmableUnder (c : Connective) : Formula α → Bool
  | atom _ => true
  | join d fs =>
    -- without atoms there is one truth value, whatever the atoms are
    if atomsAll fs = [] then (join d fs).holds (fun _ => true) == c.neutral
    else allTrimmableUnder d fs

/-- The same for several operands of a connective. -/
def allTrimmableUnder (c : Connective) : List (Formula α) → Bool
  | [] => true
  | f :: fs => f.trimmableUnder c && allTrimmableUnder c fs

end

mutual

/-- **Leaving out neutral parts does not change the truth of a formula.** -/
theorem getD_value?_of_trimmableUnder (v : α → Bool) {c : Connective} : ∀ f : Formula α,
    f.trimmableUnder c = true → (f.value? v).getD c.neutral = f.holds v
  | atom a, _ => rfl
  | join d fs, h => by
      rw [trimmableUnder] at h
      split_ifs at h with hatoms
      · have hnone : (join d fs).value? v = none := (value?_eq_none_iff v).mpr (by rwa [atoms])
        rw [hnone, Option.getD_none, ← beq_iff_eq.mp h]
        exact holds_congr _ (by simp [atoms, hatoms])
      · have hne := (filterMap_value?_eq_nil_iff v fs).ne.mpr hatoms
        rw [value?_join, Connective.combine?_of_ne_nil hne, Option.getD_some,
          Connective.combine_filterMap, map_getD_value?_of_trimmableUnder v fs h, holds]

lemma map_getD_value?_of_trimmableUnder (v : α → Bool) {c : Connective} :
    ∀ fs : List (Formula α), allTrimmableUnder c fs = true →
      fs.map (fun f => (f.value? v).getD c.neutral) = holdsAll v fs
  | [], _ => rfl
  | f :: fs, h => by
      rw [allTrimmableUnder, Bool.and_eq_true] at h
      rw [List.map_cons, holdsAll, getD_value?_of_trimmableUnder v f h.1,
        map_getD_value?_of_trimmableUnder v fs h.2]

end

end Formula

end AccessFilter
