import AccessFilter.Number.Literal
import AccessFilter.Text.Hex
import AccessFilter.Toml.Value

/-!
# Reading TOML

Settings are written in TOML 1.0.  Each reader takes a text and gives what it read with the rest, or
none at a fault; faults are not told apart.

* `key`, `dottedKey`, `text`, `atom`, `value` — the parts of a line.
* `lines` — a document line by line.
* **`Toml.parse?`** — the table of a document.
-/

namespace AccessFilter.Toml

/-! ## Blanks, comments and line ends -/

/-- The text without the spaces and tabs in front. -/
def skipBlanks (s : List Char) : List Char :=
  s.dropWhile fun c => c == ' ' || c == '\t'

/-- Whether a character may stand in a comment or a string as it is: no control character but the
tab. -/
def isPlain (c : Char) : Bool :=
  c == '\t' || (0x20 ≤ c.toNat && c.toNat != 0x7F)

/-- The rest after a line end. -/
def lineEnd? : List Char → Option (List Char)
  | '\n' :: s => some s
  | '\r' :: '\n' :: s => some s
  | _ => none

/-- The text without the spaces, tabs and line ends in front.  A carriage return counts only as part
of a line end. -/
def skipBlankLines : List Char → List Char
  | ' ' :: s => skipBlankLines s
  | '\t' :: s => skipBlankLines s
  | '\n' :: s => skipBlankLines s
  | '\r' :: '\n' :: s => skipBlankLines s
  | s => s

/-- The rest after a comment, if there is one; the line end stays. -/
def skipComment : List Char → List Char
  | '#' :: s => s.dropWhile isPlain
  | s => s

/-- The text without blanks, comments and line ends in front; `steps` bounds how many lines. -/
def skipLines : (steps : Nat) → List Char → List Char
  | 0, s => s
  | steps + 1, s =>
    let s := skipComment (skipBlanks s)
    match lineEnd? s with
    | some rest => skipLines steps rest
    | none => s

/-- The rest after the end of a line with nothing more on it but a comment. -/
def endOfLine? (s : List Char) : Option (List Char) :=
  match skipComment (skipBlanks s) with
  | [] => some []
  | s => lineEnd? s

/-! ## Strings -/

/-- The value of a run of hexadecimal digits of a fixed length. -/
def hexCode? : (digits : Nat) → (done : Nat) → List Char → Option (Nat × List Char)
  | 0, done, s => some (done, s)
  | digits + 1, done, c :: s =>
    match Text.hexDigit? c with
    | some d => hexCode? digits (done * 16 + d) s
    | none => none
  | _ + 1, _, [] => none

/-- The character of a code; surrogates and codes beyond the last character have none. -/
def ofCode? (n : Nat) : Option Char :=
  if h : n.isValidChar then some (Char.ofNatAux n h) else none

/-- The character of an escape, from behind the backslash. -/
def escape? : List Char → Option (Char × List Char)
  | 'b' :: s => some ('\x08', s)
  | 't' :: s => some ('\t', s)
  | 'n' :: s => some ('\n', s)
  | 'f' :: s => some ('\x0c', s)
  | 'r' :: s => some ('\r', s)
  | '"' :: s => some ('"', s)
  | '\\' :: s => some ('\\', s)
  | 'u' :: s => (hexCode? 4 0 s).bind fun (n, rest) => (ofCode? n).map (·, rest)
  | 'U' :: s => (hexCode? 8 0 s).bind fun (n, rest) => (ofCode? n).map (·, rest)
  | _ => none

/-- A string on one line from behind its opening quote; `escapes` tells whether the backslash
escapes. -/
def lineText (quote : Char) (escapes : Bool) :
    (steps : Nat) → List Char → Option (List Char × List Char)
  | 0, _ => none
  | _ + 1, [] => none
  | steps + 1, c :: s =>
    if c = quote then some ([], s)
    else if c = '\\' ∧ escapes then
      match escape? s with
      | some (d, rest) => (lineText quote escapes steps rest).map fun (t, rest) => (d :: t, rest)
      | none => none
    else if isPlain c then (lineText quote escapes steps s).map fun (t, rest) => (c :: t, rest)
    else none

/-- A string over several lines from behind its three opening quotes.  Up to two quotes may stand
right before the three that close it.  A backslash at the end of a line joins it with the
next text. -/
def linesText (quote : Char) (escapes : Bool) :
    (steps : Nat) → List Char → Option (List Char × List Char)
  | 0, _ => none
  | _ + 1, [] => none
  | steps + 1, c :: s =>
    if [quote, quote, quote].isPrefixOf (c :: s) then
      let run := min 5 ((c :: s).takeWhile (· == quote)).length
      some (List.replicate (run - 3) quote, (c :: s).drop run)
    else if c = '\\' ∧ escapes then
      match lineEnd? (skipBlanks s) with
      | some rest => linesText quote escapes steps (skipBlankLines rest)
      | none =>
        match escape? s with
        | some (d, rest) => (linesText quote escapes steps rest).map fun (t, rest) => (d :: t, rest)
        | none => none
    else
      match lineEnd? (c :: s) with
      | some rest => (linesText quote escapes steps rest).map fun (t, rest) => ('\n' :: t, rest)
      | none =>
        if isPlain c then (linesText quote escapes steps s).map fun (t, rest) => (c :: t, rest)
        else none

/-- A string value in any of the four forms. -/
def text (s : List Char) : Option (String × List Char) :=
  let several := fun (quote : Char) (escapes : Bool) (s : List Char) =>
    linesText quote escapes (s.length + 1) ((lineEnd? s).getD s)
  let read := match s with
    | '"' :: '"' :: '"' :: s => several '"' true s
    | '\'' :: '\'' :: '\'' :: s => several '\'' false s
    | '"' :: s => lineText '"' true (s.length + 1) s
    | '\'' :: s => lineText '\'' false (s.length + 1) s
    | _ => none
  read.map fun (t, rest) => (String.ofList t, rest)

/-! ## Keys -/

/-- How deeply keys and values may be nested. -/
def depthLimit : Nat := 80

/-- The characters of keys without quotes. -/
def isKeyChar (c : Char) : Bool :=
  c.isAlphanum || c == '_' || c == '-'

/-- One part of a key: bare, or a string on one line. -/
def key (s : List Char) : Option (String × List Char) :=
  match s with
  | '"' :: rest => (lineText '"' true (rest.length + 1) rest).map fun (t, r) => (String.ofList t, r)
  | '\'' :: rest =>
    (lineText '\'' false (rest.length + 1) rest).map fun (t, r) => (String.ofList t, r)
  | s =>
    let bare := s.takeWhile isKeyChar
    if bare.isEmpty then none else some (String.ofList bare, s.dropWhile isKeyChar)

/-- The parts of a dotted key, with the blanks around it; the last part is given apart. -/
def dottedParts : (steps : Nat) → List Char → Option (List String × String × List Char)
  | 0, _ => none
  | steps + 1, s =>
    match key (skipBlanks s) with
    | none => none
    | some (k, rest) =>
      match skipBlanks rest with
      | '.' :: rest =>
        (dottedParts steps rest).map fun (path, last, rest) => (k :: path, last, rest)
      | rest => some ([], k, rest)

/-- A dotted key of bounded depth. -/
def dottedKey (s : List Char) : Option (List String × String × List Char) :=
  (dottedParts (s.length + 1) s).bind fun (path, last, rest) =>
    if depthLimit ≤ path.length + 1 then none else some (path, last, rest)

/-! ## Numbers and dates

These values are all made of the same characters, so the longest run of such characters is taken as
one word and the word must have the form of one of them.
-/

/-- Whether a text is digits of a kind with single underscores between them, and nothing else. -/
def isDigitRun (isDigit : Char → Bool) : List Char → Bool
  | [] => false
  | [c] => isDigit c
  | c :: '_' :: s => isDigit c && isDigitRun isDigit s
  | c :: s => isDigit c && isDigitRun isDigit s

/-- The value of digits in a base, underscores left out. -/
def digitsValue (base : Nat) (s : List Char) : Nat :=
  (s.filter (· != '_')).foldl (fun done c => done * base + (Text.hexDigit? c).getD 0) 0

/-- Whether a text is a decimal number without sign and without needless zeros in front. -/
def isDecimal (s : List Char) : Bool :=
  isDigitRun Char.isDigit s && (s.length == 1 || s.head? != some '0')

/-- A text without its sign, and whether the sign was a minus. -/
def dropSign : List Char → Bool × List Char
  | '+' :: s => (false, s)
  | '-' :: s => (true, s)
  | s => (false, s)

/-- A whole number that fits 64 bits with sign. -/
def int? (s : List Char) : Option Int :=
  let based := fun (base : Nat) (isDigit : Char → Bool) (digits : List Char) =>
    if isDigitRun isDigit digits ∧ digitsValue base digits < 0x8000000000000000 then
      some (digitsValue base digits : Int)
    else none
  match s with
  | '0' :: 'x' :: s => based 16 (fun c => (Text.hexDigit? c).isSome) s
  | '0' :: 'o' :: s => based 8 (fun c => '0' ≤ c && c ≤ '7') s
  | '0' :: 'b' :: s => based 2 (fun c => c == '0' || c == '1') s
  | s =>
    let (negative, digits) := dropSign s
    let n : Int := digitsValue 10 digits
    let n := if negative then -n else n
    if isDecimal digits ∧ -0x8000000000000000 ≤ n ∧ n < 0x8000000000000000 then some n else none

/-- Whether a text is a number with a fraction or an exponent, or one of the words for infinity and
no number.  A number too large for a float is a fault; one too far below zero is minus infinity. -/
def isFloat (s : List Char) : Bool :=
  let (negative, unsigned) := dropSign s
  let mantissa := unsigned.takeWhile fun c => c != 'e' && c != 'E'
  let exponent := unsigned.drop mantissa.length
  let whole := mantissa.takeWhile (· != '.')
  let fraction := mantissa.drop whole.length
  let special := unsigned == ['i', 'n', 'f'] || unsigned == ['n', 'a', 'n']
  special ||
    (isDecimal whole && (!fraction.isEmpty || !exponent.isEmpty) &&
      (fraction.isEmpty || isDigitRun Char.isDigit (fraction.drop 1)) &&
      (exponent.isEmpty || isDigitRun Char.isDigit (dropSign (exponent.drop 1)).2) &&
      (negative || ((Literal.ofChars? (s.filter (· != '_'))).bind Literal.nearest?).isSome))

/-- A number of a fixed count of digits. -/
def fixedDigits? (count : Nat) (s : List Char) : Option (Nat × List Char) :=
  let digits := s.take count
  if digits.length = count ∧ digits.all Char.isDigit then
    some (Nat.ofDigitChars 10 digits 0, s.drop count)
  else none

/-- How many days a month has. -/
def daysIn (year month : Nat) : Nat :=
  if month = 2 then
    if year % 4 = 0 ∧ (year % 100 ≠ 0 ∨ year % 400 = 0) then 29 else 28
  else if month = 4 ∨ month = 6 ∨ month = 9 ∨ month = 11 then 30
  else 31

/-- The rest after a day of the calendar. -/
def day? (s : List Char) : Option (List Char) :=
  match fixedDigits? 4 s with
  | some (year, '-' :: s) =>
    match fixedDigits? 2 s with
    | some (month, '-' :: s) =>
      match fixedDigits? 2 s with
      | some (day, s) =>
        if 1 ≤ month ∧ month ≤ 12 ∧ 1 ≤ day ∧ day ≤ daysIn year month then some s else none
      | none => none
    | _ => none
  | _ => none

/-- The rest after hours and minutes. -/
def hourMinute? (s : List Char) : Option (List Char) :=
  match fixedDigits? 2 s with
  | some (hour, ':' :: s) =>
    match fixedDigits? 2 s with
    | some (minute, s) => if hour ≤ 23 ∧ minute ≤ 59 then some s else none
    | none => none
  | _ => none

/-- The rest after a time of day, down to seconds and fractions of them. -/
def time? (s : List Char) : Option (List Char) :=
  match hourMinute? s with
  | some (':' :: s) =>
    match fixedDigits? 2 s with
    | some (second, s) =>
      if 60 < second then none
      else
        match s with
        | '.' :: s => if s.head?.any Char.isDigit then some (s.dropWhile Char.isDigit) else none
        | s => some s
    | none => none
  | _ => none

/-- Whether a text is nothing, or the distance of a time from universal time. -/
def isOffset : List Char → Bool
  | [] => true
  | ['Z'] => true
  | ['z'] => true
  | '+' :: s => (hourMinute? s).any List.isEmpty
  | '-' :: s => (hourMinute? s).any List.isEmpty
  | _ => false

/-- Whether a text is a date, a time, or both, the latter perhaps with a distance. -/
def isDate (s : List Char) : Bool :=
  match day? s with
  | some [] => true
  | some (c :: s) => (c == 'T' || c == 't' || c == ' ') && (time? s).any isOffset
  | none => (time? s).any List.isEmpty

/-- The characters of numbers, dates and the words among the values. -/
def isAtomChar (c : Char) : Bool :=
  c.isAlphanum || c == '_' || c == '-' || c == '+' || c == '.' || c == ':'

/-- A boolean, number or date.  A space joins a date to a time that follows it. -/
def atom (s : List Char) : Option (Toml × List Char) :=
  let word := s.takeWhile isAtomChar
  let rest := s.dropWhile isAtomChar
  let (word, rest) :=
    match rest with
    | ' ' :: more =>
      if (day? word == some []) && (time? (more.takeWhile isAtomChar)).isSome then
        (word ++ ' ' :: more.takeWhile isAtomChar, more.dropWhile isAtomChar)
      else (word, rest)
    | _ => (word, rest)
  if word = ['t', 'r', 'u', 'e'] then some (.bool true, rest)
  else if word = ['f', 'a', 'l', 's', 'e'] then some (.bool false, rest)
  else
    match int? word with
    | some n => some (.int n, rest)
    | none =>
      if isFloat word then some (.float, rest)
      else if isDate word then some (.date, rest)
      else none

/-! ## Values -/

/-- The items of an array from behind its bracket or a comma.  Line ends and comments may stand
between them, and a comma after the last. -/
def items (one : List Char → Option (Toml × List Char)) :
    (steps : Nat) → List Char → Option (List Toml × List Char)
  | 0, _ => none
  | steps + 1, s =>
    match skipLines (s.length + 1) s with
    | ']' :: rest => some ([], rest)
    | s =>
      match one s with
      | none => none
      | some (v, rest) =>
        match skipLines (rest.length + 1) rest with
        | ',' :: rest => (items one steps rest).map fun (vs, rest) => (v :: vs, rest)
        | ']' :: rest => some ([v], rest)
        | _ => none

/-- A key, the equals sign and a value. -/
def pair (one : List Char → Option (Toml × List Char)) (s : List Char) :
    Option ((List String × String × Toml) × List Char) :=
  match dottedKey s with
  | some (path, last, '=' :: rest) =>
    (one (skipBlanks rest)).map fun (v, rest) => ((path, last, v), rest)
  | _ => none

/-- The entries of a table between braces, from behind the brace or a comma, where at least one must
follow. -/
def entries (one : List Char → Option (Toml × List Char)) :
    (steps : Nat) → Table → List Char → Option (Table × List Char)
  | 0, _, _ => none
  | steps + 1, t, s =>
    match pair one s with
    | none => none
    | some ((path, last, v), rest) =>
      match t.put? last v path with
      | none => none
      | some t =>
        match skipBlanks rest with
        | ',' :: rest => entries one steps t rest
        | '\x7d' :: rest => some (t, rest)
        | _ => none

/-- A value.  Every array and table between braces takes one from the budget. -/
def value : (budget : Nat) → List Char → Option (Toml × List Char)
  | 0, '[' :: _ => none
  | 0, '\x7b' :: _ => none
  | budget + 1, '[' :: s =>
    (items (value budget) s.length s).map fun (vs, rest) => (.array vs, rest)
  | budget + 1, '\x7b' :: s =>
    match skipBlanks s with
    | '\x7d' :: rest => some (.table .inline [], rest)
    | s => (entries (value budget) s.length [] s).map fun (t, rest) => (.table .inline t, rest)
  | _, '"' :: s => (text ('"' :: s)).map fun (t, rest) => (.string t, rest)
  | _, '\'' :: s => (text ('\'' :: s)).map fun (t, rest) => (.string t, rest)
  | _, s => atom s

/-! ## Documents -/

/-- A line with a header: the document after it, the header's table, and the rest. -/
def header (t : Table) : List Char → Option (Table × List String × List Char)
  | '[' :: '[' :: s =>
    match dottedKey s with
    | some (path, last, ']' :: ']' :: rest) =>
      match t.openArray? path last, endOfLine? rest with
      | some t, some rest => some (t, path ++ [last], rest)
      | _, _ => none
    | _ => none
  | '[' :: s =>
    match dottedKey s with
    | some (path, last, ']' :: rest) =>
      match t.openHeader? path last, endOfLine? rest with
      | some t, some rest => some (t, path ++ [last], rest)
      | _, _ => none
    | _ => none
  | _ => none

/-- The document after all lines of a text; `current` is the header that they stand under. -/
def lines : (steps : Nat) → (t : Table) → (current : List String) → List Char → Option Table
  | 0, _, _, _ => none
  | steps + 1, t, current, s =>
    match skipLines (s.length + 1) s with
    | [] => some t
    | '[' :: s =>
      match header t ('[' :: s) with
      | some (t, current, rest) => lines steps t current rest
      | none => none
    | s =>
      match pair (value (depthLimit - 1)) s with
      | none => none
      | some ((path, last, v), rest) =>
        match t.within? (Table.put? last v path) current, endOfLine? rest with
        | some t, some rest => lines steps t current rest
        | _, _ => none

/-- **The table of a document.**  A byte order mark in front is skipped. -/
def parse? (document : String) : Option Table :=
  let s := match document.toList with
    | '\uFEFF' :: s => s
    | s => s
  lines (s.length + 1) [] [] s

end AccessFilter.Toml
