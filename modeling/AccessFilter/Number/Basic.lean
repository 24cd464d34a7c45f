import AccessFilter.Number.Shortest

/-!
# Numbers and their text

A number is either a whole number, written without point and exponent, or a binary64 value.  The two
never mix: `1` and `1.0` are different numbers, and each is written so that the kind shows.

* `Number` — the two kinds.
* `FloatLayout` — the choices a float's text depends on, and `Number.layout` the ones made here.
* **`Number.text`** — the text of a number.
-/

namespace AccessFilter

/-- A whole number or a binary64 value. -/
inductive Number where
  | int (value : Int)
  | float (value : Binary64)
  deriving DecidableEq, Repr

/-! ## Layout of a float -/

/-- Which powers of ten of the leading digit are written in positional notation. -/
structure FloatLayout where
  least : Int
  greatest : Int

namespace FloatLayout

/-- `digits` with the point after the digit of the power zero, where `power` is the power of ten of
the leading digit.  At least one digit stands on either side of the point. -/
def positional (digits : List Char) (power : Int) : List Char :=
  if power < 0 then
    '0' :: '.' :: (List.replicate (-power - 1).toNat '0' ++ digits)
  else
    let whole := power.toNat + 1
    let fraction := digits.drop whole
    digits.take whole ++ List.replicate (whole - digits.length) '0' ++
      '.' :: (if fraction.isEmpty then ['0'] else fraction)

/-- One digit, the others behind a point if there are any, and the power with its sign. -/
def scientific (digits : List Char) (power : Int) : List Char :=
  let mantissa := match digits with
    | [] => []
    | [d] => [d]
    | d :: rest => d :: '.' :: rest
  mantissa ++ 'e' :: (if power < 0 then '-' else '+') :: Nat.toDigits 10 power.natAbs

/-- A decimal in the notation that its leading digit's power asks for.  Zeros at the end of the
digits are dropped first; the power does not depend on them. -/
def text (l : FloatLayout) (d : Decimal) : List Char :=
  let all := Nat.toDigits 10 d.significand
  let power := d.exponent + all.length - 1
  let digits := (all.reverse.dropWhile (· == '0')).reverse
  if l.least ≤ power && power ≤ l.greatest then positional digits power
  else scientific digits power

end FloatLayout

namespace Number

/-- **Floats from `0.00001` up to below `10 ^ 16` are written out,** all others with an exponent. -/
def layout : FloatLayout :=
  ⟨-5, 15⟩

/-- The text of a whole number: its digits, after a minus sign if it is negative. -/
def intText (n : Int) : List Char :=
  if n < 0 then '-' :: Nat.toDigits 10 n.natAbs else Nat.toDigits 10 n.natAbs

/-- The text of a float: its shortest decimal, with the sign also on zero. -/
def floatText (x : Binary64) : List Char :=
  (if x.negative then ['-'] else []) ++
    (if x.magnitude = 0 then ['0', '.', '0'] else layout.text (Binary64.shortest x.magnitude))

/-- The text of a number. -/
def text : Number → List Char
  | int n => intText n
  | float x => floatText x

/-- Equality as numbers of one kind: a whole number never equals a float, the two zeros of the
floats are equal. -/
def same : Number → Number → Bool
  | int a, int b => a == b
  | float x, float y => x.same y
  | _, _ => false

end Number

end AccessFilter
