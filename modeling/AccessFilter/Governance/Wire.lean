import AccessFilter.Governance.Expr

/-!
# The JSON form of expressions

On the wire every expression is an operator with an operand: an array of expressions for and, or,
not and all, a target for a comparison.  Nothing but the operator says which, so an operand is read
first as an array of expressions and, if that fails, as a target; only then the operator is looked
at.

Reading is more liberal than writing.  A missing operand makes an empty and of any operator but or
and all; the word not in front of a comparison negates it; operators are read in any letter case.

* `Expr.toJson` — writing.
* `Operand`, `Expr.ofOperator` — what an operator makes of an operand.
* **`Expr.ofJson`** — reading.
-/

namespace AccessFilter

/-! ## Writing -/

/-- The object of a target; the value null is left out. -/
def Target.toJson (t : Target) : Json :=
  .object (("targetName", .string t.name) ::
    match t.value with
    | .null => []
    | v => [("targetValue", v)])

/-- The object of an operator and its operand. -/
def Expr.node (operator : String) (operand : Json) : Json :=
  .object [("operand", operand), ("operator", .string operator)]

mutual

/-- The object of an expression. -/
def Expr.toJson : Expr → Json
  | .and es => node "AND" (.array (toJsonAll es))
  | .or es => node "OR" (.array (toJsonAll es))
  | .not e => node "NOT" (.array [toJson e])
  | .all => node "ALL" (.array [])
  | .compare c t => node c.name t.toJson

/-- The objects of several expressions. -/
def Expr.toJsonAll : List Expr → List Json
  | [] => []
  | e :: es => toJson e :: toJsonAll es

end

/-! ## Operators and operands -/

/-- What an operator is applied to. -/
inductive Operand where
  | absent
  | exprs (operands : List Expr)
  | leaf (target : Target)

/-- A comparison applied to an operand, negated if asked for; `operator` is the text that
named it. -/
def Expr.ofComparison (comparison : Comparison) (negated : Bool) (operator : String) :
    Operand → Except Failure Expr
  | .absent => .ok (.and [])
  | .exprs _ => .error (.misapplied (.needsLeaf operator))
  | .leaf t => .ok (if negated then .not (.compare comparison t) else .compare comparison t)

/-- **An operator applied to an operand.**  The name of a comparison is checked before
its operand. -/
def Expr.ofOperator (text : String) (operand : Operand) : Except Failure Expr :=
  let letters := Text.upper (Text.trim text.toList)
  let operator := String.ofList letters
  if operator = "NOT" then
    match operand with
    | .absent => .ok (.and [])
    | .exprs [] => .ok (.and [])
    | .exprs [e] => .ok (.not e)
    | .exprs es => .error (.misapplied (.needsOne es.length))
    | .leaf _ => .error (.misapplied (.needsArray operator))
  else if operator = "AND" ∨ operator = "OR" ∨ operator = "ALL" then
    let joined := fun es =>
      if operator = "AND" then Expr.and es else if operator = "OR" then Expr.or es else Expr.all
    match operand with
    | .absent => .ok (joined [])
    | .exprs es => .ok (joined es)
    | .leaf _ => .error (.misapplied (.needsArray operator))
  else
    match ['N', 'O', 'T', ' '].isPrefixOf? letters with
    | some rest => do
      let comparison ← Comparison.read (String.ofList (Text.trim rest))
      ofComparison comparison true operator operand
    | none => do
      let comparison ← Comparison.read operator
      ofComparison comparison false operator operand

/-! ## Reading -/

/-- A target from the values of its members; the name has no default, the value is null
by default. -/
def Target.ofParts? (name value : Option Json) : Option Target :=
  match name with
  | some (.string name) => some ⟨name, value.getD .null⟩
  | _ => none

/-- A target, from its object or from the array of its name and value. -/
def Target.ofJson? : Json → Option Target
  | .object ms => ofParts? (Json.member? "targetName" ms) (Json.member? "targetValue" ms)
  | .array [name] => ofParts? (some name) none
  | .array [name, value] => ofParts? (some name) (some value)
  | _ => none

/-- An expression from its operator, which must be a text, and its operand, if that could
be read. -/
def Expr.ofParts (operator : Option Json) (operand : Option Operand) : Except JsonFault Expr :=
  match operand, operator with
  | some operand, some (.string text) => (ofOperator text operand).mapError .cause
  | _, _ => .error .shape

mutual

/-- **Reading an expression,** from an object or from the array of its operator and operand. -/
def Expr.ofJson : Json → Except JsonFault Expr
  | .object ms => ofParts (Json.member? "operator" ms) (operandMember? ms)
  | .array [operator] => ofParts (some operator) (some .absent)
  | .array [operator, operand] => ofParts (some operator) (operand? operand)
  | _ => .error .shape

/-- The operand among the members of an expression. -/
def Expr.operandMember? : List (String × Json) → Option Operand
  | [] => some .absent
  | (key, j) :: rest => if key = "operand" then operand? j else operandMember? rest

/-- An operand: expressions if all items of an array are, a target otherwise; null is
its absence. -/
def Expr.operand? : Json → Option Operand
  | .null => some .absent
  | .array items =>
    match ofJsonAll? items with
    | some es => some (.exprs es)
    | none => (Target.ofJson? (.array items)).map .leaf
  | j => (Target.ofJson? j).map .leaf

/-- Several expressions, all of which must be readable. -/
def Expr.ofJsonAll? : List Json → Option (List Expr)
  | [] => some []
  | j :: js =>
    match ofJson j with
    | .ok e => (ofJsonAll? js).map (e :: ·)
    | .error _ => none

end

end AccessFilter
