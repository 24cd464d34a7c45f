import AccessFilter.Governance.Wire
import Mathlib.Tactic.Common

/-!
# Expressions come back from their JSON form

The JSON form does not say what an operand is: it is read as expressions if all its items are ones,
and as a target otherwise, and only then the operator is looked at.  What is written can still be
read in one way only.

**Operands.**  Expressions are written as an array and a target as an object, so no target is
mistaken for expressions; and all items of the array are readable because they were written.

**Operators.**  A name that is written is in capitals, without blanks around it and without the word
that negates a comparison in front of it, so it is taken as it stands.

* `operand?_toJson`, `operand?_array` — the operands that are written are read.
* `ofOperator_name` — the name of a comparison is taken for the comparison.
* **`Expr.ofJson_toJson`** — every expression comes back.
-/

namespace AccessFilter

/-! ## Operands -/

/-- **A target comes back.**  The value null is left out, and null is what a missing value is. -/
lemma Target.ofJson?_toJson (t : Target) : Target.ofJson? t.toJson = some t := by
  obtain ⟨name, value⟩ := t
  cases value <;> rfl

namespace Expr

/-- A target is written as an object, and an object is never read as expressions. -/
lemma operand?_toJson (t : Target) : operand? t.toJson = some (.leaf t) := by
  have h := t.ofJson?_toJson
  rw [Target.toJson] at h ⊢
  rw [operand?, h]
  · rfl
  all_goals exact nofun

/-- An array is read as expressions if all its items can be, also if there are none. -/
lemma operand?_array {js : List Json} {es : List Expr} (h : ofJsonAll? js = some es) :
    operand? (.array js) = some (.exprs es) := by
  rw [operand?, h]

lemma ofJsonAll?_toJsonAll {es : List Expr} (h : ∀ e ∈ es, ofJson e.toJson = .ok e) :
    ofJsonAll? (toJsonAll es) = some es := by
  induction es with
  | nil => rfl
  | cons e es ih =>
      rw [List.forall_mem_cons] at h
      rw [toJsonAll, ofJsonAll?, h.1, ih h.2]
      rfl

/-! ## Operators -/

/-- **The name of a comparison is taken for the comparison:** it is none of the names that join
expressions, and none that negates. -/
lemma ofOperator_name (c : Comparison) (o : Operand) :
    ofOperator c.name o = ofComparison c false c.name o := by
  cases c <;> rfl

/-- A written operator with its operand is read as what the operator makes of the operand. -/
lemma ofJson_node {operator : String} {operand : Json} {o : Operand} {e : Expr}
    (ho : operand? operand = some o) (he : ofOperator operator o = .ok e) :
    ofJson (node operator operand) = .ok e := by
  have hoperator : Json.member? "operator" [("operand", operand), ("operator", .string operator)] =
      some (.string operator) := rfl
  have hoperand : operandMember? [("operand", operand), ("operator", .string operator)] =
      some o := by
    rw [operandMember?, if_pos rfl, ho]
  rw [node, ofJson, hoperator, hoperand, ofParts, he]
  rfl

/-! ## Expressions -/

/-- **Every expression comes back from its JSON form,** whatever its targets are called and compared
with. -/
theorem ofJson_toJson : ∀ e : Expr, ofJson e.toJson = .ok e
  | .and es => by
      have ih : ∀ e ∈ es, ofJson e.toJson = .ok e := fun e _ => ofJson_toJson e
      rw [toJson]
      exact ofJson_node (operand?_array (ofJsonAll?_toJsonAll ih)) rfl
  | .or es => by
      have ih : ∀ e ∈ es, ofJson e.toJson = .ok e := fun e _ => ofJson_toJson e
      rw [toJson]
      exact ofJson_node (operand?_array (ofJsonAll?_toJsonAll ih)) rfl
  | .not e => by
      have ih : ofJsonAll? [e.toJson] = some [e] := by
        rw [ofJsonAll?, ofJson_toJson e]
        rfl
      rw [toJson]
      exact ofJson_node (operand?_array ih) rfl
  | .all => by
      rw [toJson]
      exact ofJson_node (operand?_array rfl) rfl
  | .compare c t => by
      rw [toJson]
      exact ofJson_node (operand?_toJson t) (ofOperator_name c _)

/-- A comparison with an array that would be read as expressions, and one without a value. -/
example :
    ofJson (.object [("operand", .array [
        .object [("operand", .object [("targetName", .string "IN"),
          ("targetValue", .array [.object [("operator", .string "ALL")]])]),
          ("operator", .string "IN")],
        .object [("operand", .object [("targetName", .string "")]),
          ("operator", .string "EXISTS")]]),
        ("operator", .string "OR")]) =
      .ok (.or [.compare .isIn ⟨"IN", .array [.object [("operator", .string "ALL")]]⟩,
        Expr.isPresent ""]) := by
  rfl

end Expr

end AccessFilter
