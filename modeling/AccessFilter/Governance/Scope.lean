import AccessFilter.Governance.Conversion

/-!
# Field paths

The governance service names a field by a path: the type of the resource, the state of the record
that is meant, and the field.  A scope says how paths are built; in it, rules are written with paths
and paths are taken apart again.

* `fieldPath` — the path of a field.
* `Scope` — the resource type, and whether paths name a state.
* `Scope.toExpr?`, `Scope.toGroup` — between trees with plain fields and expressions with paths.
* **`dropResource_append`**, `splitAtPoint?_append` — a path built from segments comes apart at the
  points between them.
-/

namespace AccessFilter

/-- The path of a field, its segments joined by points. -/
def fieldPath (resourceType : String) (temporal : Temporal) (field : String)
    (showsTemporal : Bool) : String :=
  if showsTemporal then resourceType ++ "." ++ temporal.segment ++ "." ++ field
  else resourceType ++ "." ++ field

/-- How field paths are built.  Without a resource type, fields are left as they are. -/
structure Scope where
  resourceType : Option String
  showsTemporal : Bool
  deriving DecidableEq, Repr

namespace Scope

/-- **The expression of a tree,** with the path of every field in place of the field. -/
def toExpr? (s : Scope) (g : Group) : Option Expr :=
  match s.resourceType with
  | none => g.toExpr?
  | some type =>
    (g.mapRules fun r =>
      { r with field := fieldPath type r.temporal r.field s.showsTemporal }).toExpr?

/-! ## Taking paths apart -/

/-- A path without the resource type and the point after it, if it begins with them. -/
def dropResource (resourceType path : List Char) : List Char :=
  match resourceType.isPrefixOf? path with
  | some ('.' :: rest) => rest
  | _ => path

/-- What stands before and after the first point. -/
def splitAtPoint? : List Char → Option (List Char × List Char)
  | [] => none
  | c :: s =>
    if c = '.' then some ([], s)
    else (splitAtPoint? s).map fun (segment, rest) => (c :: segment, rest)

/-- The state and the field that a path names.  If paths name states, one that does not is a
failure. -/
def readPath (s : Scope) (resourceType path : String) : Except Failure (Temporal × String) :=
  let rest := dropResource resourceType.toList path.toList
  if s.showsTemporal then
    match splitAtPoint? rest with
    | none => .error (.noTemporal path)
    | some (segment, field) =>
      match Temporal.ofSegment? (String.ofList segment) with
      | some temporal => .ok (temporal, String.ofList field)
      | none => .error (.noTemporal path)
  else .ok (.after, String.ofList rest)

/-- **The tree of an expression,** with every path taken apart into field and state.  The first path
that cannot be taken apart, in the order of the rules, is the failure. -/
def toGroup (s : Scope) (e : Expr) : Except Failure Group :=
  match s.resourceType with
  | none => .ok (Group.ofExpr e)
  | some type =>
    (Group.ofExpr e).tryRules fun r =>
      (s.readPath type r.field).map fun (temporal, field) => { r with temporal, field }

/-! ## Paths come apart where they were joined -/

/-- **The resource type in front of a path is dropped,** whatever points it has itself. -/
theorem dropResource_append (resourceType path : List Char) :
    dropResource resourceType (resourceType ++ '.' :: path) = path := by
  have h : resourceType.isPrefixOf? (resourceType ++ '.' :: path) = some ('.' :: path) := by
    induction resourceType with
    | nil => rfl
    | cons c s ih =>
      show (if c == c then s.isPrefixOf? (s ++ '.' :: path) else none) = _
      rw [if_pos BEq.rfl, ih]
  simp only [dropResource, h]

/-- A segment without points is what stands before the first point. -/
theorem splitAtPoint?_append {segment : List Char} (h : '.' ∉ segment) (rest : List Char) :
    splitAtPoint? (segment ++ '.' :: rest) = some (segment, rest) := by
  induction segment with
  | nil => rfl
  | cons c s ih =>
    have hc : c ≠ '.' := fun e => h (e ▸ List.mem_cons_self)
    have hs : '.' ∉ s := fun m => h (List.mem_cons_of_mem c m)
    rw [List.cons_append, splitAtPoint?, if_neg hc, ih hs, Option.map_some]

end Scope

end AccessFilter
