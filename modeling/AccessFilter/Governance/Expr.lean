import AccessFilter.Governance.Comparison
import AccessFilter.Json.Basic

/-!
# Expressions

The search filters of the governance service are expressions: comparisons of a named target with a
value, joined by and, or and not.

* `Target` — what a comparison is about.
* `Expr` — an expression.
* `Expr.operatorName` — the name of an expression's outermost operator.
-/

namespace AccessFilter

/-- The left and the right hand side of a comparison. -/
structure Target where
  name : String
  value : Json
  deriving DecidableEq, Repr

/-- A governance expression. -/
inductive Expr where
  | and (operands : List Expr)
  | or (operands : List Expr)
  | not (operand : Expr)
  /-- Everything matches. -/
  | all
  | compare (comparison : Comparison) (target : Target)
  deriving Repr

namespace Expr

instance : Inhabited Expr := ⟨all⟩

mutual

/-- Equality of expressions is decided by comparing them part by part. -/
def decEq : (a b : Expr) → Decidable (a = b)
  | and as, and bs =>
    match decEqAll as bs with
    | isTrue h => isTrue (h ▸ rfl)
    | isFalse h => isFalse fun e => h (Expr.and.inj e)
  | or as, or bs =>
    match decEqAll as bs with
    | isTrue h => isTrue (h ▸ rfl)
    | isFalse h => isFalse fun e => h (Expr.or.inj e)
  | not a, not b =>
    match decEq a b with
    | isTrue h => isTrue (h ▸ rfl)
    | isFalse h => isFalse fun e => h (Expr.not.inj e)
  | all, all => isTrue rfl
  | compare c s, compare d t =>
    if h : c = d ∧ s = t then isTrue (by rw [h.1, h.2])
    else isFalse fun e => h ⟨(Expr.compare.inj e).1, (Expr.compare.inj e).2⟩
  | and _, or _ | and _, not _ | and _, all | and _, compare ..
  | or _, and _ | or _, not _ | or _, all | or _, compare ..
  | not _, and _ | not _, or _ | not _, all | not _, compare ..
  | all, and _ | all, or _ | all, not _ | all, compare ..
  | compare .., and _ | compare .., or _ | compare .., not _ | compare .., all => isFalse nofun

/-- Equality of lists of expressions. -/
def decEqAll : (as bs : List Expr) → Decidable (as = bs)
  | [], [] => isTrue rfl
  | [], _ :: _ => isFalse nofun
  | _ :: _, [] => isFalse nofun
  | a :: as, b :: bs =>
    match decEq a b, decEqAll as bs with
    | isTrue h, isTrue k => isTrue (by rw [h, k])
    | isFalse h, _ => isFalse fun e => h (List.cons.inj e).1
    | _, isFalse k => isFalse fun e => k (List.cons.inj e).2

end

instance : DecidableEq Expr := decEq

/-- A comparison for equality. -/
def equals (name : String) (value : Json) : Expr :=
  compare .equals ⟨name, value⟩

/-- A test for containment. -/
def contains (name : String) (value : Json) : Expr :=
  compare .contains ⟨name, value⟩

/-- A test for presence, which needs no value. -/
def isPresent (name : String) : Expr :=
  compare .exists ⟨name, .null⟩

/-- The name of the outermost operator. -/
def operatorName : Expr → String
  | and _ => "AND"
  | or _ => "OR"
  | not _ => "NOT"
  | all => "ALL"
  | compare c _ => c.name

/-- An and or an or without operands, which constrains nothing. -/
def isEmptyGroup : Expr → Bool
  | and es => es.isEmpty
  | or es => es.isEmpty
  | _ => false

end Expr

end AccessFilter
