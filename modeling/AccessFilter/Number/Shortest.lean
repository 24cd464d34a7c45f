import AccessFilter.Number.Binary64

/-!
# The fewest digits that read back

A binary64 value is written with as few decimal digits as still read back as the same value, and
among those with the decimal nearest to it.  The reals that round to a value form an interval around
it, whose ends belong to it exactly when the magnitude is even.  For one digit, two digits and so on
the value's two neighbours on that decimal grid are tested against the interval; the first grid with
a neighbour inside gives the answer.

* `Decimal` — a whole number times a power of ten.
* `gridPoint?` — the nearest point of a grid inside an interval.
* **`shortest`** — the digits of a magnitude.
-/

namespace AccessFilter

/-- `significand * 10 ^ exponent`. -/
structure Decimal where
  significand : Nat
  exponent : Int
  deriving DecidableEq, Repr

namespace Binary64

/-- An interval of magnitudes around a value, all over one denominator that is left out. -/
structure Interval where
  low : Nat
  value : Nat
  high : Nat
  closed : Bool

/-- Whether a point lies in the interval; the ends count only if it is closed. -/
def Interval.holds (i : Interval) (x : Nat) : Bool :=
  if i.closed then i.low ≤ x && x ≤ i.high else i.low < x && x < i.high

/-- The multiple of `step` in the interval that is nearest to its value, as the factor of `step`; of
two equally near ones the even factor. -/
def Interval.gridPoint? (i : Interval) (step : Nat) : Option Nat :=
  let below := i.value / step
  match i.holds (below * step), i.holds ((below + 1) * step) with
  | true, true => some (roundDiv i.value step)
  | true, false => some below
  | false, true => some (below + 1)
  | false, false => none

/-- The decimals are computed in units of `10 ^ -400`, below the least positive value. -/
def decimalPlaces : Nat := 400

/-- The reals that round to a magnitude: half way down and half way up to its neighbours, in units
of `10 ^ -400 * 2 ^ -1075`. -/
def roundingInterval (magnitude : Nat) : Interval :=
  let unit := Nat.pow 10 decimalPlaces
  { low := (scaled (magnitude - 1) + scaled magnitude) * unit
    value := 2 * scaled magnitude * unit
    high := (scaled magnitude + scaled (magnitude + 1)) * unit
    closed := magnitude % 2 == 0 }

/-- The first grid with a point inside the interval, from the coarsest down: `steps` says how many
more grids there are, and each step is a tenth of the one before. -/
def searchGrid (i : Interval) : (steps : Nat) → (power : Nat) → Decimal
  | 0, power => ⟨roundDiv i.value (Nat.pow 10 power * Nat.pow 2 1075), power - decimalPlaces⟩
  | steps + 1, power =>
    match i.gridPoint? (Nat.pow 10 power * Nat.pow 2 1075) with
    | some significand => ⟨significand, power - decimalPlaces⟩
    | none => searchGrid i steps (power - 1)

/-- **The shortest decimal of a positive magnitude.**  The coarsest grid has one digit, the place of
the value's leading digit; seventeen digits always suffice. -/
def shortest (magnitude : Nat) : Decimal :=
  let i := roundingInterval magnitude
  searchGrid i 17 ((Nat.toDigits 10 (i.value / Nat.pow 2 1075)).length - 1)

end Binary64

end AccessFilter
