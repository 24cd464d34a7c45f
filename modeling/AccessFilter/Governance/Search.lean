import AccessFilter.Governance.Expr
import AccessFilter.Text.Blank

/-!
# Ready-made searches

The searches for requests and decisions are built from what a user ticks and types.  Typed text is
taken without the blanks around it, and blank text counts as not typed.

* `Priorities`, `priorityFilter?` — requests of some priorities.
* `activePhaseFilter?` — decisions in progress, by the name of their phase.
* `RequestCriteria`, `RequestCriteria.filter?` — requests by the people involved, type and priority.
-/

namespace AccessFilter

namespace Search

/-! ## The names of the service -/

def priorityField : String := "request.common.priority"
def phaseNameField : String := "decision.phases.name"
def phaseDisplayNameField : String := "decision.phases.displayName"
def decisionStatusField : String := "decision.status"
def inProgress : String := "in-progress"
def requestIdField : String := "request.id"
def requesterField : String := "request.requester.id"
def requestedForField : String := "request.requestedFor.id"
def requestTypeField : String := "request.type"

/-- The text a user typed, none if it is blank. -/
def typed? (text : Option String) : Option String :=
  text.bind fun s => if Text.isBlankText s then none else some (Text.trimmed s)

/-! ## Priorities -/

/-- The ticked priorities; `none` stands for requests without one. -/
structure Priorities where
  high : Bool
  medium : Bool
  low : Bool
  none : Bool
  deriving DecidableEq, Repr

/-- The ticked levels by name. -/
def Priorities.levels (p : Priorities) : List String :=
  (if p.high then ["high"] else []) ++ (if p.medium then ["medium"] else []) ++
    if p.low then ["low"] else []

/-- Requests of one of the ticked priorities, no filter if none is ticked. -/
def priorityFilter? (p : Priorities) : Option Expr :=
  let alternatives := p.levels.map (fun level => Expr.equals priorityField (.string level)) ++
    if p.none then [.not (Expr.isPresent priorityField)] else []
  if alternatives.isEmpty then Option.none else some (.or alternatives)

/-! ## Phases -/

/-- Decisions in progress whose current phase has the text in its name or display name. -/
def activePhaseFilter? (text : Option String) : Option Expr :=
  (typed? text).map fun s =>
    .and
      [.or [Expr.contains phaseNameField (.string s),
        Expr.contains phaseDisplayNameField (.string s)],
      Expr.equals decisionStatusField (.string inProgress)]

end Search

/-! ## Requests -/

/-- A search for requests. -/
structure RequestCriteria where
  requestId : Option String
  requester : Option String
  requestedFor : Option String
  requestType : Option String
  priorities : Search.Priorities
  deriving DecidableEq, Repr

namespace RequestCriteria

/-- The test for one text field, none if nothing was typed. -/
def field? (name : String) (text : Option String) : Option Expr :=
  (Search.typed? text).map fun s => Expr.equals name (.string s)

/-- The conditions of a search, in the order of its fields. -/
def conditions (s : RequestCriteria) : List Expr :=
  [field? Search.requestIdField s.requestId, field? Search.requesterField s.requester,
    field? Search.requestedForField s.requestedFor, field? Search.requestTypeField s.requestType,
    Search.priorityFilter? s.priorities].filterMap id

/-- **Requests that meet all conditions;** no filter without conditions, and a single condition
stands for itself. -/
def filter? (s : RequestCriteria) : Option Expr :=
  match s.conditions with
  | [] => none
  | [e] => some e
  | es => some (.and es)

end RequestCriteria

end AccessFilter
