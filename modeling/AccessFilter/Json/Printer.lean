import AccessFilter.Json.Basic

/-!
# Compact JSON text

The text of a value without blanks: members in the order of their keys, characters outside ASCII as
they are, and only those characters escaped that a string cannot hold.

* `Json.quoted` — a string between quotes.
* **`Json.compact`** — the text of a value.
-/

namespace AccessFilter.Json

/-- A character inside a quoted string.  The five control characters with a short escape get it, the
others are written with their code. -/
def quotedChar (c : Char) : List Char :=
  if c = '"' then ['\\', '"']
  else if c = '\\' then ['\\', '\\']
  else if c = '\x08' then ['\\', 'b']
  else if c = '\t' then ['\\', 't']
  else if c = '\n' then ['\\', 'n']
  else if c = '\x0c' then ['\\', 'f']
  else if c = '\r' then ['\\', 'r']
  else if c.toNat < 0x20 then
    ['\\', 'u', '0', '0', Nat.digitChar (c.toNat / 16), Nat.digitChar (c.toNat % 16)]
  else [c]

/-- A string as it is written, with its quotes. -/
def quoted (s : List Char) : List Char :=
  '"' :: s.flatMap quotedChar ++ ['"']

mutual

/-- **The compact text of a value.** -/
def compact : Json → List Char
  | null => ['n', 'u', 'l', 'l']
  | bool true => ['t', 'r', 'u', 'e']
  | bool false => ['f', 'a', 'l', 's', 'e']
  | number n => n.text
  | string s => quoted s.toList
  | array items => '[' :: compactItems items ++ [']']
  | object members => '\x7b' :: compactMembers members ++ ['\x7d']

/-- The items of an array, with commas between them. -/
def compactItems : List Json → List Char
  | [] => []
  | [item] => compact item
  | item :: rest => compact item ++ ',' :: compactItems rest

/-- The members of an object, with commas between them. -/
def compactMembers : List (String × Json) → List Char
  | [] => []
  | [(key, value)] => quoted key.toList ++ ':' :: compact value
  | (key, value) :: rest => quoted key.toList ++ ':' :: compact value ++ ',' :: compactMembers rest

end

/-- The compact text as a string. -/
def text (j : Json) : String :=
  String.ofList (compact j)

end AccessFilter.Json
