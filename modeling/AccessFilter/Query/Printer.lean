import AccessFilter.Governance.Conversion
import AccessFilter.Json.Printer

/-!
# Writing queries

The search service takes an expression as the text of a query parameter.  Operands of and and or
stand in parentheses.  What the notation cannot say is dropped: change over time, membership in an
empty list, and whatever has nothing left in it.

* `quote` — a text between single quotes.
* `literal` — the value of a comparison.
* `exprText` — an expression, empty if nothing is left of it.
* **`print`** — a query, which matches everything if there is no expression.
-/

namespace AccessFilter.Query

/-! ## Literals -/

/-- A character between single quotes; quotes and backslashes are escaped by a backslash. -/
def quotedChar (c : Char) : List Char :=
  if c = '\'' ∨ c = '\\' then ['\\', c] else [c]

/-- A text between single quotes. -/
def quote (s : List Char) : List Char :=
  '\'' :: s.flatMap quotedChar ++ ['\'']

/-- `quote` on strings. -/
def quoted (s : String) : String :=
  String.ofList (quote s.toList)

/-- The text of a value.  Arrays and objects are the quoted text of their JSON form. -/
def literal : Json → List Char
  | .string s => quote s.toList
  | .number n => n.text
  | .bool true => ['t', 'r', 'u', 'e']
  | .bool false => ['f', 'a', 'l', 's', 'e']
  | .null => ['n', 'u', 'l', 'l']
  | .array items => quote (Json.array items).compact
  | .object members => quote (Json.object members).compact

/-! ## Expressions -/

/-- The words of the comparisons that are written between a name and a value. -/
def word? : Comparison → Option (List Char)
  | .equals => some ['e', 'q']
  | .contains => some ['c', 'o']
  | .startsWith => some ['s', 'w']
  | .endsWith => some ['e', 'w']
  | .greaterThan => some ['g', 't']
  | .greaterOrEqual => some ['g', 'e']
  | .lessThan => some ['l', 't']
  | .lessOrEqual => some ['l', 'e']
  | .exists | .hasChanged | .isIn => none

/-- What matches everything. -/
def matchAll : List Char :=
  ['t', 'r', 'u', 'e']

/-- The word that joins the operands of an and, with its blanks. -/
def andWord : List Char :=
  [' ', 'a', 'n', 'd', ' ']

/-- The word that joins the operands of an or, with its blanks. -/
def orWord : List Char :=
  [' ', 'o', 'r', ' ']

/-- A name, a word and a value. -/
def comparisonText (name word : List Char) (value : Json) : List Char :=
  name ++ ' ' :: word ++ ' ' :: literal value

/-- The text of a comparison.  Membership is an or of equalities without parentheses. -/
def compareText (c : Comparison) (t : Target) : List Char :=
  let name := t.name.toList
  match c with
  | .exists => name ++ [' ', 'p', 'r']
  | .hasChanged => []
  | .isIn => orWord.intercalate (t.values.map (comparisonText name ['e', 'q']))
  | c => comparisonText name ((word? c).getD []) t.value

/-- An expression between parentheses. -/
def parenthesized (s : List Char) : List Char :=
  '(' :: s ++ [')']

/-- Texts of operands joined by a word; operands of which nothing is left are dropped. -/
def join (word : List Char) (operands : List (List Char)) : List Char :=
  word.intercalate ((operands.filter fun s => !s.isEmpty).map parenthesized)

mutual

/-- The text of an expression, empty if nothing is left of it. -/
def exprText : Expr → List Char
  | .and es => join andWord (exprTexts es)
  | .or es => join orWord (exprTexts es)
  | .not e =>
    match exprText e with
    | [] => []
    | c :: s => '!' :: parenthesized (c :: s)
  | .all => matchAll
  | .compare c t => compareText c t

/-- The texts of several expressions. -/
def exprTexts : List Expr → List (List Char)
  | [] => []
  | e :: es => exprText e :: exprTexts es

end

/-- **The text of a query.** -/
def print (e : Option Expr) : String :=
  match (e.map exprText).getD [] with
  | [] => String.ofList matchAll
  | c :: s => String.ofList (c :: s)

end AccessFilter.Query
