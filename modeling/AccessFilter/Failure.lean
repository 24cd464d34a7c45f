import AccessFilter.Json.Place
import AccessFilter.Tree.Connective
import AccessFilter.Tree.Operator

/-!
# What can go wrong

Failures are kept as causes; the words a user sees are the business of one function.

* `Failure` — the causes.
* `Failure.message` — their wording.
* `Failure.isUnreadable` — whether a text could not be read at all, as opposed to a filter that one
  of the notations cannot express.
* `JsonFault`, `JsonFault.message?` — why a JSON value could not be read, and what is said about it.
-/

namespace AccessFilter

/-- How many parentheses may be open at once in the text of a filter. -/
def nestingLimit : Nat := 64

/-- What a reader of filter texts wanted where it stopped. -/
inductive Expected where
  | openParenthesis
  | closeParenthesis
  | attributeName
  | singleFilter
  | escapedParenthesis
  | escapedCharacter
  | validBytes
  | endOfText
  /-- A query fails without a word on what would have fitted. -/
  | unspecified
  deriving DecidableEq, Repr

/-- What is wrong with the operand of an expression's operator. -/
inductive OperandFault where
  | needsArray (operator : String)
  | needsLeaf (operator : String)
  | needsOne (count : Nat)
  deriving DecidableEq, Repr

/-- Why a filter could not be read, written or converted. -/
inductive Failure where
  /-- Something else was expected at an offset in bytes. -/
  | unexpected (offset : Nat) (expected : Expected)
  /-- A parenthesis is missing or too many at an offset in bytes. -/
  | unbalanced (offset : Nat)
  /-- A text names no operator. -/
  | unknownOperator (text : String)
  /-- More parentheses are open at once than allowed. -/
  | tooDeep
  /-- A text holds no filter at all. -/
  | blank
  /-- LDAP has no form for an operator. -/
  | inexpressible (operator : Operator)
  /-- An operator of an expression does not go with its operand. -/
  | misapplied (fault : OperandFault)
  /-- A field path does not name the state before or after a change. -/
  | noTemporal (path : String)
  deriving DecidableEq, Repr

/-! ## Wording -/

def Expected.text : Expected → String
  | openParenthesis => "expected '('"
  | closeParenthesis => "expected ')'"
  | attributeName => "expected attribute name"
  | singleFilter => "'!' must be followed by exactly one filter"
  | escapedParenthesis => "unescaped '(' in value"
  | escapedCharacter => "dangling escape"
  | validBytes => "escaped value is not valid UTF-8"
  | endOfText => "unexpected trailing characters"
  | unspecified => ""

def OperandFault.text : OperandFault → String
  | needsArray operator => operator ++ " requires an array operand"
  | needsLeaf operator => operator ++ " requires a leaf operand"
  | needsOne count => "NOT requires exactly one operand, got " ++ toString count

namespace Failure

/-- The words that tell what kind of failure it is. -/
def heading : Failure → String
  | unexpected .. => "Invalid filter at offset "
  | unbalanced _ => "Unbalanced parentheses at offset "
  | unknownOperator _ => "Unknown operator: "
  | tooDeep => "Filter nesting exceeds "
  | blank => "Filter is empty"
  | inexpressible _ => "Operator "
  | misapplied _ => "Invalid filter AST: "
  | noTemporal _ => "Field path is missing a before/after qualifier: "

/-- What follows the heading. -/
def detail : Failure → String
  | unexpected offset expected => toString offset ++ ": " ++ expected.text
  | unbalanced offset => toString offset
  | unknownOperator text => text
  | tooDeep => toString nestingLimit ++ " levels"
  | blank => ""
  | inexpressible operator => operator.name ++ " cannot be expressed in LDAP"
  | misapplied fault => fault.text
  | noTemporal path => path

/-- The wording of a failure. -/
def message (f : Failure) : String :=
  f.heading ++ f.detail

/-- Whether the failure means that a text could not be read. -/
def isUnreadable : Failure → Bool
  | unexpected .. | unbalanced _ | unknownOperator _ | tooDeep | blank => true
  | inexpressible _ | misapplied _ | noTemporal _ => false

end Failure

/-! ## JSON that cannot be read

A value that is not the JSON form of what it is read as has the wrong shape, and nothing more is
said about it.  Where the shape is right and a failure of this library stands in the way, it is
reported.
-/

/-- Why a JSON value could not be read. -/
inductive JsonFault where
  | shape
  | cause (failure : Failure)
  deriving DecidableEq, Repr

/-- What is said about a fault: the wording of its failure, with the place settled in which a text
in it may end.  Where that takes away from the heading nothing is said. -/
def JsonFault.message? : JsonFault → Option String
  | shape => none
  | cause f =>
    let message := Json.settlePlace f.message.toList
    if f.heading.toList.isPrefixOf message then some (String.ofList message) else none

/-- What was read, or a fault of shape if nothing was. -/
def JsonFault.ofOption {α : Type} : Option α → Except JsonFault α
  | some a => .ok a
  | none => .error .shape

/-! ## Operator names that are wrong -/

/-- The connective a text names; the failure shows the text as it was compared. -/
def Connective.read (s : String) : Except Failure Connective :=
  match ofText? s with
  | some c => .ok c
  | none => .error (.unknownOperator (normalized s))

/-- The rule operator a text names; the failure shows the text as it was given. -/
def Operator.read (s : String) : Except Failure Operator :=
  match ofText? s with
  | some op => .ok op
  | none => .error (.unknownOperator s)

end AccessFilter
