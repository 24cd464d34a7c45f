/-!
# Places at the end of messages

A message about JSON may end by naming a place in the text that was read, a line and a column.  Who
wrote the ending does not matter: wherever a message ends in the form of a place it is taken for
one, so the numbers come out in plain form, and a place on line zero, which no text has, is left
out.

* `Place` — a line and a column.
* `Place.ofText?`, `Place.text` — reading and writing the ending.
* `splitAtLast?` — a text around the last occurrence of a word.
* **`settlePlace`** — a message with the place at its end in plain form, or without it.
-/

namespace AccessFilter.Json

/-- A place in a text. -/
structure Place where
  line : Nat
  column : Nat
  deriving DecidableEq, Repr

namespace Place

/-- The words in front of the line. -/
def lineWords : List Char :=
  " at line ".toList

/-- The words between the line and the column. -/
def columnWords : List Char :=
  " column ".toList

/-- The ending that names a place. -/
def text (p : Place) : List Char :=
  lineWords ++ Nat.toDigits 10 p.line ++ columnWords ++ Nat.toDigits 10 p.column

/-- The number that a text of digits stands for, if it fits 64 bits. -/
def number? (digits : List Char) : Option Nat :=
  let n := Nat.ofDigitChars 10 digits 0
  if digits ≠ [] ∧ digits.all Char.isDigit ∧ n < 0x10000000000000000 then some n else none

/-- The place that a text names from behind the words in front of the line. -/
def ofText? (s : List Char) : Option Place := do
  let column ← columnWords.isPrefixOf? (s.dropWhile Char.isDigit)
  let line ← number? (s.takeWhile Char.isDigit)
  let column ← number? column
  return ⟨line, column⟩

end Place

/-- What stands before and after the last occurrence of a word. -/
def splitAtLast? (word : List Char) : List Char → Option (List Char × List Char)
  | [] => none
  | c :: s =>
    match splitAtLast? word s with
    | some (before, after) => some (c :: before, after)
    | none => (word.isPrefixOf? (c :: s)).map ([], ·)

/-- **A message with the place at its end settled.** -/
def settlePlace (message : List Char) : List Char :=
  match splitAtLast? Place.lineWords message with
  | none => message
  | some (before, after) =>
    match Place.ofText? after with
    | none => message
    | some p => if p.line = 0 then before else before ++ p.text

end AccessFilter.Json
