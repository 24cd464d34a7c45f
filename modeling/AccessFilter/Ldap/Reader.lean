import AccessFilter.Failure
import AccessFilter.Ldap.Value
import AccessFilter.Text.Hex
import AccessFilter.Tree.Numbering

/-!
# Reading LDAP filters

The grammar of filter texts is

* filter: an opening parenthesis, then `&` and filters, `|` and filters, `!` and one filter, or an
  item, then a closing parenthesis;
* item: an attribute name, one of `=`, `!=`, `>=`, `<=`, and a value.

A reader takes a text and gives what it read with the rest of the text.  A fault holds the rest at
which it arose, and becomes an offset only when the length of the whole text is known.

* `Fault` — what can go wrong, and where.
* `value`, `item`, `filter` — the readers.
* **`parse`** — the tree of a filter text.
-/

namespace AccessFilter.Ldap

/-! ## Faults -/

/-- A fault of a filter text; `rest` is the text from the fault on. -/
inductive Fault where
  | unexpected (expected : Expected) (rest : List Char)
  | unbalanced (rest : List Char)
  | unknownOperator (text : List Char)
  | tooDeep
  deriving DecidableEq, Repr

/-- The failure that a fault in a text is, with the offset in bytes from the start of the text. -/
def Fault.toFailure (text : List Char) : Fault → Failure
  | unexpected expected rest =>
    .unexpected (Text.byteSize text - Text.byteSize rest) expected
  | unbalanced rest => .unbalanced (Text.byteSize text - Text.byteSize rest)
  | unknownOperator token => .unknownOperator (String.ofList token)
  | tooDeep => .tooDeep

/-! ## Items -/

/-- The characters of attribute names. -/
def isAttributeChar (c : Char) : Bool :=
  c.isAlphanum || c == '_' || c == '.'

/-- The comparison after an attribute name.  A fault shows up to two characters of what stands there
instead, as far as they could be signs. -/
def operator : List Char → Except Fault (Operator × List Char)
  | '=' :: s => .ok (.equals, s)
  | '!' :: '=' :: s => .ok (.notEquals, s)
  | '>' :: '=' :: s => .ok (.greaterOrEqual, s)
  | '<' :: '=' :: s => .ok (.lessOrEqual, s)
  | s => .error (.unknownOperator ((s.takeWhile fun c => !c.isAlphanum && c != ')').take 2))

/-- Bytes put in front of those of a value. -/
def prepend (bytes : List UInt8) (rest : Except Fault (List UInt8 × List Char)) :
    Except Fault (List UInt8 × List Char) :=
  rest.map fun (more, s) => (bytes ++ more, s)

/-- The bytes of a value, up to the closing parenthesis.  A backslash and two hexadecimal digits are
one byte; a backslash and any other character are that character. -/
def value : List Char → Except Fault (List UInt8 × List Char)
  | [] => .error (.unbalanced [])
  | ['\\'] => .error (.unexpected .escapedCharacter [])
  | ['\\', c] => prepend (charBytes c) (.error (.unbalanced []))
  | '\\' :: c :: d :: s =>
    match Text.hexByte? c d with
    | some b => prepend (byteBytes b) (value s)
    | none => prepend (charBytes c) (value (d :: s))
  | c :: s =>
    if c = ')' then .ok ([], c :: s)
    else if c = '(' then .error (.unexpected .escapedParenthesis (c :: s))
    else prepend (String.utf8EncodeChar c) (value s)

/-- A value as a text.  Bytes that spell no text are a fault at the start of the value. -/
def valueText (s : List Char) : Except Fault (String × List Char) := do
  let (bytes, rest) ← value s
  match Text.decode? bytes with
  | some text => .ok (String.ofList text, rest)
  | none => .error (.unexpected .validBytes s)

/-- An attribute name, a comparison and a value. -/
def item (s : List Char) : Except Fault (Rule × List Char) := do
  let name := s.takeWhile isAttributeChar
  if name.isEmpty then
    .error (.unexpected .attributeName s)
  else
    let (op, s) ← operator (s.dropWhile isAttributeChar)
    let (text, s) ← valueText s
    return (Rule.make (String.ofList name) op (some (.text text)), s)

/-! ## Filters -/

/-- The negation of what was read: an equality becomes the negated equality, anything else is put
under a not. -/
def negation : Node → Node
  | .rule r =>
    if r.operator = .equals then .rule { r with operator := .notEquals }
    else .group .not 0 [.rule r]
  | n => .group .not 0 [n]

/-- Filters one after the other, as long as a parenthesis opens.  `steps` bounds their number and is
never short when it is the length of the text. -/
def filters (one : List Char → Except Fault (Node × List Char)) :
    (steps : Nat) → List Char → Except Fault (List Node × List Char)
  | steps + 1, '(' :: s => do
    let (n, s) ← one ('(' :: s)
    let (ns, s) ← filters one steps s
    return (n :: ns, s)
  | _, s => .ok ([], s)

/-- What stands between the parentheses of a filter; `inner` reads the filters in it. -/
def body (inner : List Char → Except Fault (Node × List Char)) :
    List Char → Except Fault (Node × List Char)
  | [] => .error (.unbalanced [])
  | '&' :: s => do
    let (ns, s) ← filters inner s.length s
    return (.group .and 0 ns, s)
  | '|' :: s => do
    let (ns, s) ← filters inner s.length s
    return (.group .or 0 ns, s)
  | '!' :: '(' :: s => do
    let (n, s) ← inner ('(' :: s)
    return (negation n, s)
  | '!' :: s => .error (.unexpected .singleFilter s)
  | s => do
    let (r, s) ← item s
    return (.rule r, s)

/-- The rest after a closing parenthesis. -/
def close : List Char → Except Fault (List Char)
  | [] => .error (.unbalanced [])
  | c :: s => if c = ')' then .ok s else .error (.unexpected .closeParenthesis (c :: s))

/-- A filter; `budget` says how many more parentheses may be opened inside one another. -/
def filter : (budget : Nat) → List Char → Except Fault (Node × List Char)
  | _, [] => .error (.unbalanced [])
  | 0, c :: s =>
    if c = '(' then .error .tooDeep else .error (.unexpected .openParenthesis (c :: s))
  | budget + 1, c :: s =>
    if c = '(' then do
      let (n, s) ← body (filter budget) s
      let s ← close s
      return (n, s)
    else .error (.unexpected .openParenthesis (c :: s))

/-- A text that is one filter and nothing else. -/
def wholeFilter (s : List Char) : Except Fault Node := do
  let (n, rest) ← filter nestingLimit s
  match rest with
  | [] => .ok n
  | ')' :: _ => .error (.unbalanced rest)
  | _ => .error (.unexpected .endOfText rest)

/-- **The tree of a filter text.**  Blanks around the filter do not count.  The root joins its
children by and or or, with an or put around any other filter, and the nodes are numbered
from zero. -/
def parse (text : String) : Except Failure Group :=
  let s := Text.trim text.toList
  if s.isEmpty then .error .blank
  else
    match wholeFilter s with
    | .ok n => .ok (Group.ofNode n).numbered
    | .error fault => .error (fault.toFailure s)

end AccessFilter.Ldap
