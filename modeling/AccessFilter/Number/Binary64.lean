/-!
# Finite binary64 numbers

A number with a fraction or an exponent is held as an IEEE 754 binary64 value.  Only finite values
occur, and each is a sign and a *magnitude*: the 63 low bits of its encoding, read as one number.
Magnitudes are ordered as the values are and consecutive magnitudes are neighbouring values, so
rounding and printing are exact arithmetic on natural numbers.

* `Binary64` — sign and magnitude, with the bound that makes it finite.
* `Binary64.scaled` — the value of a magnitude as a multiple of the least positive value.
* `Binary64.nearest` — the magnitude nearest to a quotient, ties to the even one.
-/

namespace AccessFilter

/-! ## Rounding a quotient to a whole number -/

/-- The whole number nearest to `num / den`; a half goes to the even neighbour. -/
def roundDiv (num den : Nat) : Nat :=
  if 2 * (num % den) < den then num / den
  else if den < 2 * (num % den) then num / den + 1
  else if num / den % 2 = 0 then num / den else num / den + 1

/-! ## The type -/

/-- **A finite binary64 value.**  The magnitude holds the exponent field above the 52 bits of the
fraction field; from `2047 * 2 ^ 52` on it would mean an infinity or no number. -/
structure Binary64 where
  negative : Bool
  magnitude : Nat
  finite : magnitude < 2047 * Nat.pow 2 52
  deriving DecidableEq, Repr

namespace Binary64

/-- The zero of a sign. -/
def zero (negative : Bool) : Binary64 :=
  ⟨negative, 0, by decide⟩

/-- The value with this sign and magnitude, none beyond the largest finite one. -/
def ofMagnitude? (negative : Bool) (magnitude : Nat) : Option Binary64 :=
  if h : magnitude < 2047 * Nat.pow 2 52 then some ⟨negative, magnitude, h⟩ else none

/-- Equality of the numbers rather than of their forms: the two zeros are equal. -/
def same (x y : Binary64) : Bool :=
  x.magnitude == y.magnitude && (x.negative == y.negative || x.magnitude == 0)

/-! ## Magnitudes and their values

The least positive value is `2 ^ -1074`.  Every value is a multiple of it, so a value is a natural
number once that unit is fixed.
-/

/-- How many times `2 ^ -1074` a magnitude is worth.  Below `2 ^ 52` it is subnormal and worth
itself; above, the fraction gets its leading bit and the exponent field doubles it. -/
def scaled (magnitude : Nat) : Nat :=
  let leading := Nat.pow 2 52
  if magnitude < leading then magnitude
  else (leading + magnitude % leading) * Nat.pow 2 (magnitude / leading - 1)

/-- The magnitude nearest to `num / den`, ties to the even one.  `k` is how far the leading bit of
the quotient lies above the 53 bits that a value keeps; a carry out of those bits runs into the
exponent field and gives the next power of two, as it should. -/
def nearest (num den : Nat) : Nat :=
  let n := num * Nat.pow 2 1074
  let k := Nat.log2 (n / den) - 52
  k * Nat.pow 2 52 + roundDiv n (den * Nat.pow 2 k)

/-- The product of two magnitudes, rounded. -/
def mul (a b : Nat) : Nat :=
  nearest (scaled a * scaled b) (Nat.pow 2 2148)

/-- The quotient of two magnitudes, rounded. -/
def div (a b : Nat) : Nat :=
  nearest (scaled a) (scaled b)

/-- The magnitude nearest to `10 ^ n`. -/
def powerOfTen (n : Nat) : Nat :=
  nearest (Nat.pow 10 n) 1

end Binary64

end AccessFilter
