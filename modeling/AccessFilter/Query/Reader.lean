import AccessFilter.Failure
import AccessFilter.Governance.Expr
import AccessFilter.Number.Literal
import AccessFilter.Text.Utf8

/-!
# Reading queries

The grammar of queries, in which words count in any letter case, is

* or: ands joined by the word `or`; and: operands joined by the word `and`;
* operand: `!` and an expression in parentheses, an expression in parentheses, the word `true`, a
  name and the word `pr`, or a name, a comparison and a value.

A reader gives what it read with the rest of the text.  A fault holds the text from the first
character that could not be used.  Alternatives that were tried in vain use nothing.

* `Nesting` — how deeply a text nests parentheses outside quotes.
* `comparison`, `operand`, `orChain`, `expression` — the readers.
* **`parse`** — the expression of a query.
-/

namespace AccessFilter.Query

/-! ## Nesting

Before a text is read its parentheses are counted, so that reading never goes deeper than the limit.
-/

/-- How far a scan of the parentheses has come. -/
structure Nesting where
  depth : Nat
  quoted : Bool
  escaped : Bool
  deriving DecidableEq, Repr

/-- The scan after one more character, none if a parenthesis opens beyond the limit. -/
def Nesting.step? (n : Nesting) (c : Char) : Option Nesting :=
  if n.quoted then
    if n.escaped then some { n with escaped := false }
    else if c = '\\' then some { n with escaped := true }
    else if c = '\'' then some { n with quoted := false }
    else some n
  else if c = '\'' then some { n with quoted := true }
  else if c = '(' then
    if nestingLimit ≤ n.depth then none else some { n with depth := n.depth + 1 }
  else if c = ')' then some { n with depth := n.depth - 1 }
  else some n

/-- The scan after a text. -/
def Nesting.run? : Nesting → List Char → Option Nesting
  | n, [] => some n
  | n, c :: s =>
    match n.step? c with
    | some n => run? n s
    | none => none

/-- Whether a text keeps the nesting limit. -/
def keepsNestingLimit (s : List Char) : Bool :=
  (Nesting.run? ⟨0, false, false⟩ s).isSome

/-! ## Faults and words -/

/-- Why a query could not be read. -/
inductive Fault where
  /-- Nothing fits the text from here on. -/
  | stuck (rest : List Char)
  /-- More parentheses are open than the reader was allowed to open. -/
  | budget
  deriving DecidableEq, Repr

/-- The characters of names. -/
def isNameChar (c : Char) : Bool :=
  c.isAlphanum || c == '.' || c == '_' || c == ':'

/-- Whether a text goes on with a character of names. -/
def startsWithNameChar : List Char → Bool
  | [] => false
  | c :: _ => isNameChar c

/-- The text without the blanks in front. -/
def skipBlanks (s : List Char) : List Char :=
  s.dropWhile Text.isSpaceOrTab

/-- The text without the blanks in front, of which there must be one. -/
def blanks : List Char → Except Fault (List Char)
  | [] => .error (.stuck [])
  | c :: s => if Text.isSpaceOrTab c then .ok (skipBlanks s) else .error (.stuck (c :: s))

/-- The rest after a word between blanks. -/
def joiner? (word s : List Char) : Option (List Char) :=
  match blanks s with
  | .error _ => none
  | .ok s =>
    match Text.dropWord? word s with
    | none => none
    | some s => (blanks s).toOption

/-- The rest after a word that is not the beginning of a longer one. -/
def wholeWord? (word s : List Char) : Option (List Char) :=
  match Text.dropWord? word s with
  | some rest => if startsWithNameChar rest then none else some rest
  | none => none

/-! ## Values -/

/-- A quoted text from behind its opening quote. -/
def quotedText : List Char → Except Fault (List Char × List Char)
  | [] => .error (.stuck [])
  | ['\\'] => .error (.stuck [])
  | '\\' :: c :: s => (quotedText s).map fun (text, rest) => (c :: text, rest)
  | c :: s =>
    if c = '\'' then .ok ([], s) else (quotedText s).map fun (text, rest) => (c :: text, rest)

/-- The value that a bare token stands for. -/
def token? (s : List Char) : Option Json :=
  if s = ['t', 'r', 'u', 'e'] then some (.bool true)
  else if s = ['f', 'a', 'l', 's', 'e'] then some (.bool false)
  else if s = ['n', 'u', 'l', 'l'] then some .null
  else (Number.ofQueryToken? s).map .number

/-- The characters of bare tokens: all but blanks and the closing parenthesis. -/
def isTokenChar (c : Char) : Bool :=
  !Text.isBlank c && c != ')'

/-- A value: a quoted text or a bare token. -/
def value : List Char → Except Fault (Json × List Char)
  | [] => .error (.stuck [])
  | c :: s =>
    if c = '\'' then (quotedText s).map fun (text, rest) => (.string (String.ofList text), rest)
    else
      match token? ((c :: s).takeWhile isTokenChar) with
      | some j => .ok (j, (c :: s).dropWhile isTokenChar)
      | none => .error (.stuck (c :: s))

/-! ## Comparisons -/

/-- The comparisons that have a word. -/
def comparisonWords : List (List Char × Comparison) :=
  [(['e', 'q'], .equals), (['c', 'o'], .contains), (['s', 'w'], .startsWith),
    (['e', 'w'], .endsWith), (['g', 't'], .greaterThan), (['g', 'e'], .greaterOrEqual),
    (['l', 't'], .lessThan), (['l', 'e'], .lessOrEqual)]

/-- The comparison whose word comes first in a text. -/
def comparisonWord? (s : List Char) : Option (Comparison × List Char) :=
  comparisonWords.findSome? fun (word, c) => (Text.dropWord? word s).map (c, ·)

/-- A name: a letter, then characters of names. -/
def name : List Char → Except Fault (List Char × List Char)
  | [] => .error (.stuck [])
  | c :: s =>
    if c.isAlpha then .ok (c :: s.takeWhile isNameChar, s.dropWhile isNameChar)
    else .error (.stuck (c :: s))

/-- A test for presence, or a name, a comparison and a value. -/
def comparison (s : List Char) : Except Fault (Expr × List Char) := do
  let (name, s) ← name s
  let s ← blanks s
  match wholeWord? ['p', 'r'] s with
  | some rest => return (Expr.isPresent (String.ofList name), rest)
  | none =>
    match comparisonWord? s with
    | none => .error (.stuck s)
    | some (c, s) => do
      let s ← blanks s
      let (j, s) ← value s
      return (.compare c ⟨String.ofList name, j⟩, s)

/-! ## Expressions -/

/-- An expression in parentheses; `inner` reads what stands between them. -/
def parentheses (inner : List Char → Except Fault (Expr × List Char)) :
    List Char → Except Fault (Expr × List Char)
  | [] => .error (.stuck [])
  | c :: s =>
    if c = '(' then do
      let (e, s) ← inner (skipBlanks s)
      match skipBlanks s with
      | ')' :: rest => return (e, rest)
      | rest => .error (.stuck rest)
    else .error (.stuck (c :: s))

/-- An operand of a chain. -/
def operand (inner : List Char → Except Fault (Expr × List Char)) :
    List Char → Except Fault (Expr × List Char)
  | '!' :: s => do
    let (e, s) ← parentheses inner (skipBlanks s)
    return (.not e, s)
  | '(' :: s => parentheses inner ('(' :: s)
  | s =>
    match wholeWord? ['t', 'r', 'u', 'e'] s with
    | some rest => .ok (.all, rest)
    | none => comparison s

/-- The further operands of a chain, each after the joining word.  `steps` bounds their number and
is never short when it is the length of the text. -/
def chainTail (word : List Char) (one : List Char → Except Fault (Expr × List Char)) :
    (steps : Nat) → List Char → Except Fault (List Expr × List Char)
  | 0, s => .ok ([], s)
  | steps + 1, s =>
    match joiner? word s with
    | none => .ok ([], s)
    | some s => do
      let (e, s) ← one s
      let (es, s) ← chainTail word one steps s
      return (e :: es, s)

/-- The operands of a chain as one expression; a single one stands for itself. -/
def collect (make : List Expr → Expr) : Expr → List Expr → Expr
  | e, [] => e
  | e, es => make (e :: es)

/-- Operands joined by a word. -/
def chain (word : List Char) (make : List Expr → Expr)
    (one : List Char → Except Fault (Expr × List Char)) (s : List Char) :
    Except Fault (Expr × List Char) := do
  let (e, s) ← one s
  let (es, s) ← chainTail word one s.length s
  return (collect make e es, s)

/-- Operands joined by and. -/
def andChain (inner : List Char → Except Fault (Expr × List Char)) :
    List Char → Except Fault (Expr × List Char) :=
  chain ['a', 'n', 'd'] .and (operand inner)

/-- Operands joined by or, which binds less than and. -/
def orChain (inner : List Char → Except Fault (Expr × List Char)) :
    List Char → Except Fault (Expr × List Char) :=
  chain ['o', 'r'] .or (andChain inner)

/-- An expression; `budget` says how many parentheses may be open at once. -/
def expression : (budget : Nat) → List Char → Except Fault (Expr × List Char)
  | 0 => orChain fun _ => .error .budget
  | budget + 1 => orChain (expression budget)

/-- A text that is one expression and nothing else. -/
def wholeExpression (budget : Nat) (s : List Char) : Except Fault Expr := do
  let (e, rest) ← expression budget s
  if rest.isEmpty then return e else .error (.stuck rest)

/-- **The expression of a query.**  Blanks around the query do not count, except in the offset of an
error, which is in bytes from the start of the text as given.  The length of the text is budget
enough, and a text that keeps the nesting limit needs no more than that. -/
def parse (text : String) : Except Failure Expr :=
  let leading := text.toList.takeWhile Text.isBlank
  let s := Text.trim text.toList
  if s.isEmpty then .error .blank
  else if !keepsNestingLimit s then .error .tooDeep
  else
    match wholeExpression s.length s with
    | .ok e => .ok e
    | .error (.stuck rest) =>
      .error (.unexpected
        (Text.byteSize leading + (Text.byteSize s - Text.byteSize rest)) .unspecified)
    | .error .budget => .error .tooDeep

end AccessFilter.Query
