import AccessFilter.Failure
import AccessFilter.Json.Basic
import AccessFilter.Tree.Numbering

/-!
# The JSON form of trees

A group and a rule are written as objects.  They are also read from arrays that hold the values of
their members in a fixed order, of which the last ones may be missing; unknown members are ignored.
The children of a group are groups or rules and only the spelling of the operator tells them apart:
a child is a rule if it cannot be read as a group.

* `Rule.toJson`, `Group.toJson` — writing.
* `Rule.ofJson`, `Group.ofJson` — reading, with the operator's own error where that is the fault.
* `Node.ofJson?` — reading a child.
-/

namespace AccessFilter

/-! ## Writing -/

/-- A number that is not negative. -/
def Json.nat (n : Nat) : Json :=
  .number (.int n)

def Scalar.toJson : Scalar → Json
  | bool b => .bool b
  | number n => .number n
  | text s => .string s

/-- The object of a rule; a rule without a value has no such member. -/
def Rule.toJson (r : Rule) : Json :=
  .object ([("field", .string r.field), ("operator", .string r.operator.name),
    ("temporalValue", .string r.temporal.segment), ("uniqueIndex", .nat r.index)] ++
    match r.value with
    | some v => [("value", v.toJson)]
    | none => [])

mutual

/-- The object of a node. -/
def Node.toJson : Node → Json
  | .rule r => r.toJson
  | .group c i ns =>
    .object [("operator", .string c.name), ("subfilters", .array (Node.toJsonAll ns)),
      ("uniqueIndex", .nat i)]

/-- The objects of several nodes. -/
def Node.toJsonAll : List Node → List Json
  | [] => []
  | n :: ns => n.toJson :: Node.toJsonAll ns

end

/-- The object of a tree. -/
def Group.toJson (g : Group) : Json :=
  g.toNode.toJson

/-! ## Reading the parts of a rule

A part that is missing takes its default.  A part that is there must have the right form; null is
one only for a value.
-/

/-- The value of a rule that a JSON value stands for; null, arrays and objects stand for none. -/
def Scalar.ofJson? : Json → Option Scalar
  | .bool b => some (.bool b)
  | .number n => some (.number n)
  | .string s => some (.text s)
  | _ => none

/-- An optional value; null is its absence. -/
def Scalar.part? : Option Json → Option (Option Scalar)
  | none => some none
  | some .null => some none
  | some j => (ofJson? j).map some

/-- An index, zero by default. -/
def indexPart? : Option Json → Option Nat
  | none => some 0
  | some j => j.natUpTo? indexLimit

/-- A text, empty by default. -/
def textPart? : Option Json → Option String
  | none => some ""
  | some j => j.string?

/-- The name of a case without contents: a string, or an object whose only member has that name and
holds null. -/
def Json.caseName? : Json → Option String
  | .string s => some s
  | .object [(name, .null)] => some name
  | _ => none

/-- A qualifier, after by default. -/
def Temporal.part? : Option Json → Option Temporal
  | none => some .after
  | some j => j.caseName?.bind ofSegment?

/-- A rule from its operator and the values of its other members. -/
def Rule.ofParts? (operator : Operator) (field value index temporal : Option Json) :
    Option Rule := do
  let field ← textPart? field
  let value ← Scalar.part? value
  let index ← indexPart? index
  let temporal ← Temporal.part? temporal
  return { operator, field, value, index, temporal }

/-- The operator of a rule, which has no default. -/
def Operator.part : Option Json → Except JsonFault Operator
  | some (.string s) => (read s).mapError .cause
  | _ => .error .shape

/-- **Reading a rule.**  In an object the field is looked at before the operator, so a field of the
wrong form hides a wrong operator; in an array the operator comes first. -/
def Rule.ofJson : Json → Except JsonFault Rule
  | .object ms =>
    let member := fun name => Json.member? name ms
    match textPart? (member "field") with
    | none => .error .shape
    | some _ => do
      let operator ← Operator.part (member "operator")
      JsonFault.ofOption (Rule.ofParts? operator (member "field") (member "value")
        (member "uniqueIndex") (member "temporalValue"))
  | .array items => do
    let operator ← Operator.part items[0]?
    if 5 < items.length then .error .shape
    else JsonFault.ofOption (Rule.ofParts? operator items[1]? items[2]? items[3]? items[4]?)
  | _ => .error .shape

/-! ## Reading groups and nodes -/

/-- The connective of a group, which has no default. -/
def Connective.part? : Option Json → Option Connective
  | some (.string s) => ofText? s
  | _ => none

/-- A group from the values of its members, of which the children are already read. -/
def Group.ofParts? (operator index : Option Json) (children : Option (List Node)) :
    Option Group := do
  let connective ← Connective.part? operator
  let index ← indexPart? index
  let children ← children
  return { connective, index, children }

mutual

/-- A group, none if the value is not the form of one. -/
def Group.ofJson? : Json → Option Group
  | .object ms =>
    Group.ofParts? (Json.member? "operator" ms) (Json.member? "uniqueIndex" ms)
      (Node.childrenMember? ms)
  | .array [operator] => Group.ofParts? (some operator) none (some [])
  | .array [operator, index] => Group.ofParts? (some operator) (some index) (some [])
  | .array [operator, index, children] =>
    Group.ofParts? (some operator) (some index) (Node.children? children)
  | _ => none

/-- The children among the members of a group, none by default. -/
def Node.childrenMember? : List (String × Json) → Option (List Node)
  | [] => some []
  | (key, j) :: rest => if key = "subfilters" then Node.children? j else Node.childrenMember? rest

/-- The children of a group from the value that holds them. -/
def Node.children? : Json → Option (List Node)
  | .array items => Node.ofJsonAll? items
  | _ => none

/-- Several nodes, all of which must be readable. -/
def Node.ofJsonAll? : List Json → Option (List Node)
  | [] => some []
  | j :: js =>
    match Group.ofJson? j with
    | some g => (Node.ofJsonAll? js).map (g.toNode :: ·)
    | none =>
      match Rule.ofJson j with
      | .ok r => (Node.ofJsonAll? js).map (.rule r :: ·)
      | .error _ => none

end

/-- **Reading a node:** a group if the value is one, a rule otherwise. -/
def Node.ofJson? (j : Json) : Option Node :=
  match Group.ofJson? j with
  | some g => some g.toNode
  | none => (Rule.ofJson j).toOption.map .rule

/-- **Reading a tree.**  A text that is no connective is reported whatever else is wrong, for the
operator comes first in both forms. -/
def Group.ofJson (j : Json) : Except JsonFault Group :=
  let operator := match j with
    | .object ms => Json.member? "operator" ms
    | .array items => items[0]?
    | _ => none
  match operator with
  | some (.string s) => do
    let _ ← (Connective.read s).mapError .cause
    JsonFault.ofOption (Group.ofJson? j)
  | _ => .error .shape

end AccessFilter
