/-!
# Hexadecimal digits

Escapes in strings and in filter values name a character or a byte by hexadecimal digits, which are
read in either letter case.

* `hexDigit?` — the value of a digit.
* `hexByte?` — the byte that two digits spell.
-/

namespace AccessFilter.Text

/-- The value of a hexadecimal digit, none for any other character. -/
def hexDigit? (c : Char) : Option Nat :=
  if c.isDigit then some (c.toNat - '0'.toNat)
  else if 'a' ≤ c ∧ c ≤ 'f' then some (c.toNat - 'a'.toNat + 10)
  else if 'A' ≤ c ∧ c ≤ 'F' then some (c.toNat - 'A'.toNat + 10)
  else none

/-- The byte that two hexadecimal digits spell, the high one first. -/
def hexByte? (high low : Char) : Option UInt8 :=
  match hexDigit? high, hexDigit? low with
  | some h, some l => some (UInt8.ofNat (h * 16 + l))
  | _, _ => none

end AccessFilter.Text
