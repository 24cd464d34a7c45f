import AccessFilter.Json.Basic
import AccessFilter.Number.Literal
import AccessFilter.Text.Hex

/-!
# Reading JSON text

A recursive reader over characters.  Each function takes a text and gives what it read together with
the rest of the text, or none where the text is not JSON; which fault it was is not reported.

* `Json.stringBody` — a string from behind its opening quote.
* `Json.value` — one value; `budget` bounds how deeply values may be nested.
* **`Json.parse?`** — a text that holds one value and nothing else.
-/

namespace AccessFilter.Json

/-- The text without the blanks in front that JSON allows between tokens. -/
def skipBlanks (s : List Char) : List Char :=
  s.dropWhile fun c => c == ' ' || c == '\t' || c == '\n' || c == '\r'

/-! ## Strings -/

/-- Four hexadecimal digits. -/
def hexUnit? : List Char → Option (Nat × List Char)
  | a :: b :: c :: d :: rest =>
    match Text.hexDigit? a, Text.hexDigit? b, Text.hexDigit? c, Text.hexDigit? d with
    | some a, some b, some c, some d => some (((a * 16 + b) * 16 + c) * 16 + d, rest)
    | _, _, _, _ => none
  | _ => none

/-- The character of an escape by code, from behind the letter u.  A character above `U+FFFF` is
written as two surrogate units; one of them alone is no character. -/
def codeEscape? (s : List Char) : Option (Char × List Char) :=
  match hexUnit? s with
  | none => none
  | some (n, rest) =>
    if n < 0xD800 || 0xDFFF < n then some (Char.ofNat n, rest)
    else if 0xDC00 ≤ n then none
    else match rest with
      | '\\' :: 'u' :: rest =>
        match hexUnit? rest with
        | some (m, rest) =>
          if 0xDC00 ≤ m && m ≤ 0xDFFF then
            some (Char.ofNat (0x10000 + (n - 0xD800) * 0x400 + (m - 0xDC00)), rest)
          else none
        | none => none
      | _ => none

/-- The character of an escape, from behind the backslash. -/
def escape? : List Char → Option (Char × List Char)
  | '"' :: s => some ('"', s)
  | '\\' :: s => some ('\\', s)
  | '/' :: s => some ('/', s)
  | 'b' :: s => some ('\x08', s)
  | 'f' :: s => some ('\x0c', s)
  | 'n' :: s => some ('\n', s)
  | 'r' :: s => some ('\r', s)
  | 't' :: s => some ('\t', s)
  | 'u' :: s => codeEscape? s
  | _ => none

/-- A string from behind its opening quote; `steps` bounds the number of characters and is never
short when it is the length of the text. -/
def stringBody : (steps : Nat) → List Char → Option (List Char × List Char)
  | 0, _ => none
  | _ + 1, [] => none
  | steps + 1, c :: s =>
    if c = '"' then some ([], s)
    else if c = '\\' then
      match escape? s with
      | some (d, rest) => (stringBody steps rest).map fun (text, rest) => (d :: text, rest)
      | none => none
    else if c.toNat < 0x20 then none
    else (stringBody steps s).map fun (text, rest) => (c :: text, rest)

/-- A string with its quotes. -/
def stringToken : List Char → Option (String × List Char)
  | '"' :: s => (stringBody s.length s).map fun (text, rest) => (String.ofList text, rest)
  | _ => none

/-! ## Values -/

/-- A number: all characters that numbers are made of, which must form one. -/
def numberToken (s : List Char) : Option (Json × List Char) :=
  let inNumber := fun c : Char =>
    c.isDigit || c == '+' || c == '-' || c == '.' || c == 'e' || c == 'E'
  (Number.ofJsonToken? (s.takeWhile inNumber)).map fun n => (number n, s.dropWhile inNumber)

/-- The items of an array from behind its bracket or a comma, where at least one must follow. -/
def items (one : List Char → Option (Json × List Char)) :
    (steps : Nat) → List Char → Option (List Json × List Char)
  | 0, _ => none
  | steps + 1, s =>
    match one s with
    | none => none
    | some (item, rest) =>
      match skipBlanks rest with
      | ']' :: rest => some ([item], rest)
      | ',' :: rest => (items one steps rest).map fun (more, rest) => (item :: more, rest)
      | _ => none

/-- The members of an object from behind its brace or a comma, where at least one must follow. -/
def members (one : List Char → Option (Json × List Char)) :
    (steps : Nat) → List Char → Option (List (String × Json) × List Char)
  | 0, _ => none
  | steps + 1, s =>
    match stringToken (skipBlanks s) with
    | none => none
    | some (key, rest) =>
      match skipBlanks rest with
      | ':' :: rest =>
        match one rest with
        | none => none
        | some (value, rest) =>
          match skipBlanks rest with
          | '\x7d' :: rest => some ([(key, value)], rest)
          | ',' :: rest =>
            (members one steps rest).map fun (more, rest) => ((key, value) :: more, rest)
          | _ => none
      | _ => none

/-- One value, after blanks.  Every array and object takes one from the budget. -/
def value : (budget : Nat) → List Char → Option (Json × List Char)
  | 0, _ => none
  | budget + 1, s =>
    match skipBlanks s with
    | '[' :: s =>
      match skipBlanks s with
      | ']' :: rest => some (array [], rest)
      | s => (items (value budget) s.length s).map fun (items, rest) => (array items, rest)
    | '\x7b' :: s =>
      match skipBlanks s with
      | '\x7d' :: rest => some (object [], rest)
      | s => (members (value budget) s.length s).map fun (all, rest) => (ofMembers all, rest)
    | '"' :: s => (stringToken ('"' :: s)).map fun (text, rest) => (string text, rest)
    | 'n' :: s => (['u', 'l', 'l'].isPrefixOf? s).map (null, ·)
    | 't' :: s => (['r', 'u', 'e'].isPrefixOf? s).map (bool true, ·)
    | 'f' :: s => (['a', 'l', 's', 'e'].isPrefixOf? s).map (bool false, ·)
    | s => numberToken s

/-- **The value a text holds.**  Every level of nesting takes a character, so the length of the text
is budget enough. -/
def parse? (text : String) : Option Json :=
  let s := text.toList
  match value (s.length + 1) s with
  | some (j, rest) => if (skipBlanks rest).isEmpty then some j else none
  | none => none

end AccessFilter.Json
