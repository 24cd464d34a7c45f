import AccessFilter.Text.Utf8

/-!
# Values in LDAP filters

In the text of a filter a value ends at a closing parenthesis, an asterisk is a wildcard, and a
backslash escapes what follows.  In memory a value is a text in which an asterisk is still a
wildcard, so an asterisk that is meant literally has to look different: it is held as the three
characters `\2a`, which is also how it is written.

* `starMark` — those three characters.
* **`escape`** — a value as it is written.
* `charBytes`, `byteBytes` — what an escape stands for.
-/

namespace AccessFilter.Ldap

/-- An asterisk that is not a wildcard, as it is held and written. -/
def starMark : List Char :=
  ['\\', '2', 'a']

/-! ## Writing -/

/-- A character of a value as it is written in front of `rest`.  A backslash that starts a literal
asterisk stays; any other one is written with its code. -/
def escapeChar (keepWildcards : Bool) (c : Char) (rest : List Char) : List Char :=
  if c = '(' then ['\\', '2', '8']
  else if c = ')' then ['\\', '2', '9']
  else if c = '\x00' then ['\\', '0', '0']
  else if c = '*' then if keepWildcards then ['*'] else starMark
  else if c = '\\' then if ['2', 'a'].isPrefixOf rest then ['\\'] else ['\\', '5', 'c']
  else [c]

/-- **A value as it is written.**  With `keepWildcards` an asterisk stays a wildcard, otherwise it
is made a literal one. -/
def escape (keepWildcards : Bool) : List Char → List Char
  | [] => []
  | c :: rest => escapeChar keepWildcards c rest ++ escape keepWildcards rest

/-- `escape` on strings. -/
def escaped (keepWildcards : Bool) (value : String) : String :=
  String.ofList (escape keepWildcards value.toList)

/-! ## Reading -/

/-- The bytes an escaped character stands for: an asterisk becomes a literal one. -/
def charBytes (c : Char) : List UInt8 :=
  if c = '*' then Text.encode starMark else String.utf8EncodeChar c

/-- The bytes an escaped byte stands for: that of an asterisk becomes a literal asterisk. -/
def byteBytes (b : UInt8) : List UInt8 :=
  if b = 0x2a then Text.encode starMark else [b]

end AccessFilter.Ldap
