import AccessFilter.Failure
import AccessFilter.Tree.Edit
import AccessFilter.Tree.Json

/-!
# Choosing a value from a list

A field may hold a reference to an object of some type, and then what a user picks in a list has to
be turned into the path of that object before a rule can hold it.  Which path that is, is decided
elsewhere: a `Resolver` is any function from the field and the picked value to the value to store.

* `Field` — what is known of a field.
* `Field.resourceType?` — the type of the objects a reference leads to.
* `Resolver.managed` — the resolver that writes references under one common root.
* `Group.select` — storing a resolved value in a rule.
-/

namespace AccessFilter

/-- The declared type of a field.  Types without a meaning here are all alike. -/
inductive FieldType where
  | reference
  | number
  | string
  | boolean
  | other
  deriving DecidableEq, Repr

namespace FieldType

def name : FieldType → String
  | reference => "reference"
  | number => "number"
  | string => "string"
  | boolean => "boolean"
  | other => "other"

/-- The type of a name; letter case matters. -/
def ofName (s : String) : FieldType :=
  if s = "reference" then reference
  else if s = "number" then number
  else if s = "string" then string
  else if s = "boolean" then boolean
  else other

/-- The type that a JSON value names. -/
def ofJson? (j : Json) : Option FieldType :=
  j.caseName?.map ofName

end FieldType

/-- A field, with the path of the objects it refers to if it is a reference. -/
structure Field where
  type : FieldType
  objectPath : Option String
  deriving DecidableEq, Repr

namespace Field

/-- A field that refers to the objects under a path. -/
def reference (objectPath : String) : Field :=
  ⟨.reference, some objectPath⟩

def isReference (f : Field) : Bool :=
  f.type == .reference

/-- The last segment of a path, slashes at its end ignored; none if nothing is left. -/
def lastSegment? (path : List Char) : Option (List Char) :=
  let segment := (path.reverse.dropWhile (· == '/')).takeWhile (· != '/')
  if segment.isEmpty then none else some segment.reverse

/-- The type of the objects that a field refers to: the last segment of its object path. -/
def resourceType? (f : Field) : Option String :=
  f.objectPath.bind fun path => (lastSegment? path.toList).map String.ofList

/-! ## The JSON form -/

/-- The object of a field; a field without an object path has no such member. -/
def toJson (f : Field) : Json :=
  .object ((match f.objectPath with
    | some path => [("objectPath", .string path)]
    | none => []) ++ [("type", .string f.type.name)])

/-- An object path; null is its absence. -/
def pathPart? : Option Json → Option (Option String)
  | none => some none
  | some .null => some none
  | some j => j.string?.map some

/-- A field from the values of its members; the type has no default. -/
def ofParts? (type path : Option Json) : Option Field := do
  let type ← FieldType.ofJson? (← type)
  let objectPath ← pathPart? path
  return ⟨type, objectPath⟩

/-- A field, from its object or from the array of its type and path. -/
def ofJson? : Json → Option Field
  | .object ms => ofParts? (Json.member? "type" ms) (Json.member? "objectPath" ms)
  | .array items => if 2 < items.length then none else ofParts? items[0]? items[1]?
  | _ => none

end Field

/-! ## Resolving -/

/-- What turns a picked value into the value to store. -/
abbrev Resolver := Field → Scalar → Scalar

namespace Resolver

/-- Every value is stored as it was picked. -/
def plain : Resolver :=
  fun _ raw => raw

/-- A reference is stored as the path of a managed object of its type, any other value as it was
picked. -/
def managed : Resolver := fun field raw =>
  match field.isReference, field.resourceType? with
  | true, some type => .text ("managed/" ++ type ++ "/" ++ raw.display)
  | _, _ => raw

end Resolver

/-- **Storing a choice:** the resolved value becomes the value of a rule. -/
def Group.select (g : Group) (path : List Nat) (position : Nat) (field : Field) (raw : Scalar)
    (resolver : Resolver) : Group :=
  g.changeRule path position { RuleChange.empty with value := some (some (resolver field raw)) }

end AccessFilter
