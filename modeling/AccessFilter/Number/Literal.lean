import AccessFilter.Number.Basic

/-!
# Reading numbers

A numeric literal is taken apart into its sign, its digits before and after the point and its
exponent; what the parts are worth is decided afterwards, because the two places that read numbers
differ in it.

* `Literal` — the parts.
* `Literal.nearest?` — the finite binary64 value nearest to a literal.
* `Number.ofQueryToken?` — a literal in a query: free form, rounded correctly.
* `Number.ofJsonToken?` — a literal in JSON text: strict form, rounded in working precision.
-/

namespace AccessFilter

/-- The parts of a numeric literal.  A literal without a point has no `fraction`, which differs from
an empty one; `exponent` is none if no exponent is written. -/
structure Literal where
  negative : Bool
  whole : List Char
  fraction : Option (List Char)
  exponent : Option Int
  deriving Repr, DecidableEq

namespace Literal

/-! ## Taking a literal apart -/

/-- A whole number with an optional sign; something other than digits, or no digit, is none. -/
def signedDigits? : List Char → Option Int
  | '+' :: s => if s ≠ [] ∧ s.all Char.isDigit then some (Nat.ofDigitChars 10 s 0) else none
  | '-' :: s => if s ≠ [] ∧ s.all Char.isDigit then some (-(Nat.ofDigitChars 10 s 0)) else none
  | s => if s ≠ [] ∧ s.all Char.isDigit then some (Nat.ofDigitChars 10 s 0) else none

/-- The exponent that makes up the rest of a literal: nothing at all, or the letter e and a whole
number. -/
def exponent? : List Char → Option (Option Int)
  | [] => some none
  | c :: s => if c == 'e' || c == 'E' then (signedDigits? s).map some else none

/-- A literal from which the sign has been taken.  At least one digit stands before the exponent. -/
def unsigned? (negative : Bool) (s : List Char) : Option Literal :=
  let whole := s.takeWhile Char.isDigit
  match s.dropWhile Char.isDigit with
  | '.' :: r =>
    let fraction := r.takeWhile Char.isDigit
    if whole.isEmpty && fraction.isEmpty then none
    else (exponent? (r.dropWhile Char.isDigit)).map (⟨negative, whole, some fraction, ·⟩)
  | r =>
    if whole.isEmpty then none else (exponent? r).map (⟨negative, whole, none, ·⟩)

/-- A literal with an optional sign. -/
def ofChars? : List Char → Option Literal
  | '+' :: s => unsigned? false s
  | '-' :: s => unsigned? true s
  | s => unsigned? false s

/-- The whole number a literal without point and exponent stands for. -/
def int? (l : Literal) : Option Int :=
  match l.fraction, l.exponent with
  | none, none =>
    let n : Int := Nat.ofDigitChars 10 l.whole 0
    some (if l.negative then -n else n)
  | _, _ => none

/-! ## Correct rounding -/

/-- The magnitude nearest to a decimal.  Decimals far outside the range of the floats are decided by
their size alone, so that no huge power is computed. -/
def decimalMagnitude (d : Decimal) : Nat :=
  let size := (Nat.toDigits 10 d.significand).length + d.exponent
  if d.significand = 0 || size < -400 then 0
  else if 400 < size then 2047 * Nat.pow 2 52
  else if 0 ≤ d.exponent then Binary64.nearest (d.significand * Nat.pow 10 d.exponent.toNat) 1
  else Binary64.nearest d.significand (Nat.pow 10 (-d.exponent).toNat)

/-- **The nearest finite float,** none if the literal rounds to an infinity. -/
def nearest? (l : Literal) : Option Binary64 :=
  let fraction := l.fraction.getD []
  Binary64.ofMagnitude? l.negative
    (decimalMagnitude
      ⟨Nat.ofDigitChars 10 (l.whole ++ fraction) 0, l.exponent.getD 0 - fraction.length⟩)

/-! ## Rounding in working precision

JSON text is read with a significand of 64 bits: digits that do not fit any more are dropped, the
significand is rounded to a float, and the power of ten is applied to that float, which rounds once
more.  For literals of up to fifteen digits and small powers nothing is lost.
-/

/-- Whether a significand can take one more digit within 64 bits. -/
def fits (significand digit : Nat) : Bool :=
  significand * 10 + digit < 0x10000000000000000

/-- The digits before the point: the significand, and how many digits did not fit. -/
def wholePart (dropped significand : Nat) : List Char → Nat × Nat
  | [] => (significand, dropped)
  | c :: s =>
    let digit := c.toNat - '0'.toNat
    if dropped = 0 && fits significand digit then wholePart 0 (significand * 10 + digit) s
    else wholePart (dropped + 1) significand s

/-- The digits after the point: the significand, and how many of the digits it took. -/
def fractionPart (taken significand : Nat) : List Char → Nat × Nat
  | [] => (significand, taken)
  | c :: s =>
    let digit := c.toNat - '0'.toNat
    if fits significand digit then fractionPart (taken + 1) (significand * 10 + digit) s
    else (significand, taken)

/-- A magnitude times a power of ten.  The powers go up to 308, and a smaller one than -308 is
applied in two steps. -/
def scale (magnitude : Nat) (power : Int) : Nat :=
  if magnitude = 0 then 0
  else if 308 < power then 2047 * Nat.pow 2 52
  else if 0 ≤ power then Binary64.mul magnitude (Binary64.powerOfTen power.toNat)
  else if -308 ≤ power then Binary64.div magnitude (Binary64.powerOfTen (-power).toNat)
  else if -616 ≤ power then
    Binary64.div (Binary64.div magnitude (Binary64.powerOfTen 308))
      (Binary64.powerOfTen (-power - 308).toNat)
  else 0

/-- The float a literal stands for in JSON text. -/
def working? (l : Literal) : Option Binary64 :=
  let (whole, dropped) := wholePart 0 0 l.whole
  let (significand, taken) := fractionPart 0 whole (l.fraction.getD [])
  Binary64.ofMagnitude? l.negative
    (scale (Binary64.nearest significand 1) (dropped - taken + l.exponent.getD 0))

/-- The strict form: no plus sign, no needless zero in front, digits on both sides of a point. -/
def strict? (s : List Char) : Option Literal :=
  match ofChars? s with
  | some l =>
    if s.head? == some '+' || l.whole.isEmpty ||
        (l.whole.length ≠ 1 && l.whole.head? == some '0') || l.fraction == some []
    then none else some l
  | none => none

end Literal

namespace Number

/-- **A number in a query.**  Digits with an optional sign that fit 64 bits with sign are a whole
number; any other literal, a larger whole number included, is the nearest float. -/
def ofQueryToken? (s : List Char) : Option Number :=
  match Literal.ofChars? s with
  | none => none
  | some l =>
    match l.int? with
    | some n =>
      if -0x8000000000000000 ≤ n ∧ n < 0x8000000000000000 then some (int n) else l.nearest?.map float
    | none => l.nearest?.map float

/-- **A number in JSON text.**  A literal without point and exponent is a whole number if it fits 64
bits with or without sign, except that minus zero is the negative zero of the floats. -/
def ofJsonToken? (s : List Char) : Option Number :=
  match Literal.strict? s with
  | none => none
  | some l =>
    match l.int? with
    | some n =>
      if l.negative && n == 0 then some (float (Binary64.zero true))
      else if -0x8000000000000000 ≤ n ∧ n < 0x10000000000000000 then some (int n)
      else l.working?.map float
    | none => l.working?.map float

end Number

end AccessFilter
