/-!
# TOML documents

A document is a table.  Tables come into being in several ways, and TOML forbids to come back to a
table in ways that do not go with how it was made, so a table remembers its origin.

* `Toml` — values and tables.
* `Toml.Table.openHeader?`, `Toml.Table.openArray?` — what a table header does to a document.
* `Toml.Table.put?` — a key and value under a dotted key.
* `Toml.Table.within?` — a change made to the table under a header.
-/

namespace AccessFilter

/-- How a table was made. -/
inductive TableOrigin where
  /-- By a header of its own. -/
  | header
  /-- Because the header of a table inside it was read. -/
  | implied
  /-- By a dotted key. -/
  | dotted
  /-- As a value between braces, which is complete as it stands. -/
  | inline
  deriving DecidableEq, Repr

/-- A value of a document, or a table.  Numbers with a fraction and dates are told apart from the
other values but not kept. -/
inductive Toml where
  | string (value : String)
  | int (value : Int)
  | float
  | bool (value : Bool)
  | date
  | array (items : List Toml)
  | table (origin : TableOrigin) (entries : List (String × Toml))
  /-- An array of tables made by headers; `last` is the one that is being filled. -/
  | tables (earlier : List (List (String × Toml))) (last : List (String × Toml))
  deriving Repr

namespace Toml

/-- The keys of a table with their values, in the order in which they were made. -/
abbrev Table := List (String × Toml)

namespace Table

/-- The value of a key. -/
def get? (key : String) : Table → Option Toml
  | [] => none
  | (k, v) :: rest => if k = key then some v else get? key rest

/-- The table with the value of a key replaced, or the key added; `change` gets the value there is
and may refuse. -/
def update? (key : String) (change : Option Toml → Option Toml) : Table → Option Table
  | [] => (change none).map fun v => [(key, v)]
  | (k, v) :: rest =>
    if k = key then (change (some v)).map fun v => (k, v) :: rest
    else (update? key change rest).map ((k, v) :: ·)

/-! ## Headers -/

/-- A change made to the table that a header names.  Tables on the way are made if they are missing;
an array of tables stands for its last table.  A value on the way is a fault. -/
def within? (change : Table → Option Table) : List String → Table → Option Table
  | [], t => change t
  | key :: path, t =>
    t.update? key fun
      | none => (within? change path []).map (.table .implied)
      | some (.table .inline _) => none
      | some (.table origin inner) => (within? change path inner).map (.table origin)
      | some (.tables earlier last) => (within? change path last).map (.tables earlier)
      | some _ => none

/-- The document after the header of a table.  A table has one header. -/
def openHeader? (path : List String) (key : String) (t : Table) : Option Table :=
  t.within? (fun inner =>
    inner.update? key fun
      | none => some (.table .header [])
      | some (.table .implied entries) => some (.table .header entries)
      | some _ => none) path

/-- The document after the header of an array of tables, which begins a further table in it. -/
def openArray? (path : List String) (key : String) (t : Table) : Option Table :=
  t.within? (fun inner =>
    inner.update? key fun
      | none => some (.tables [] [])
      | some (.tables earlier last) => some (.tables (earlier ++ [last]) [])
      | some _ => none) path

/-! ## Keys and values -/

/-- The table with a value added under a dotted key, whose parts but the last are `path`.  The key
must be new, and tables on the way must not have a header of their own; the last of them must have
been made by a dotted key. -/
def put? (key : String) (value : Toml) : List String → Table → Option Table
  | [], t =>
    t.update? key fun
      | none => some value
      | some _ => none
  | part :: path, t =>
    t.update? part fun
      | none => (put? key value path []).map (.table .dotted)
      | some (.table .dotted inner) => (put? key value path inner).map (.table .dotted)
      | some (.table .implied inner) =>
        if path.isEmpty then none else (put? key value path inner).map (.table .implied)
      | some (.tables earlier last) =>
        if path.isEmpty then none else (put? key value path last).map (.tables earlier)
      | some _ => none

end Table

end Toml

end AccessFilter
