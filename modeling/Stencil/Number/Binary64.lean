/-!
# Binary numbers of 64 bits

Finite positive floating-point numbers as exact integers: a significand below `2 ^ 53` times a power
of two, as in the binary format of 64 bits. `Binary64.nearest?` rounds a fraction to the nearest one
and a tie to the even significand. `Binary64.shortest` finds the fewest decimal digits that read
back as the number, and of those the nearest.
-/

namespace Stencil

/-- The number `significand * 2 ^ exponent`. -/
structure Binary64 where
  significand : Nat
  exponent : Int
  deriving Repr, DecidableEq

namespace Binary64

/-- Significands lie below this. -/
def limit : Nat := Nat.pow 2 53

/-- Significands lie at this or above it, unless the exponent is the smallest. -/
def halfLimit : Nat := Nat.pow 2 52

/-- The smallest exponent. -/
def minExponent : Int := -1074

/-- The largest exponent. -/
def maxExponent : Int := 971

/-- A quotient rounded to the nearest whole number, a tie to the even one. -/
def roundDiv (num den : Nat) : Nat :=
  let q := num / den
  let r := num % den
  if 2 * r < den then q
  else if 2 * r > den then q + 1
  else if q % 2 = 0 then q else q + 1

/-- A power, as a factor of the numerator where the exponent is positive. -/
def above (base : Nat) (e : Int) : Nat :=
  if 0 ≤ e then Nat.pow base e.natAbs else 1

/-- A power, as a factor of the denominator where the exponent is negative. -/
def below (base : Nat) (e : Int) : Nat :=
  if 0 ≤ e then 1 else Nat.pow base e.natAbs

/-- The exponent that leaves a fraction with as many bits before the point as a significand has,
as far as exponents go down. -/
def exponentOf (num den : Nat) : Int :=
  let estimate : Int := (Nat.log2 num : Int) - Nat.log2 den - 52
  let scaled := num * below 2 estimate
  let unit := den * above 2 estimate
  let exact := if scaled < unit * halfLimit then estimate - 1 else estimate
  max exact minExponent

/-- The number nearest to a fraction; a fraction beyond all numbers has none. -/
def nearest? (num den : Nat) : Option Binary64 :=
  let e := exponentOf num den
  let m := roundDiv (num * below 2 e) (den * above 2 e)
  let (m, e) := if m = limit then (halfLimit, e + 1) else (m, e)
  if e > maxExponent then none else some ⟨m, e⟩

/-- The fractions that round to a number, in quarters of its last place: the bounds and whether
they round to it themselves. -/
structure Interval where
  low : Nat
  high : Nat
  closed : Bool

/-- The fractions that round to a number. Below a power of two numbers lie twice as close. -/
def interval (b : Binary64) : Interval :=
  let m := b.significand
  let step := if m = halfLimit && minExponent < b.exponent then 1 else 2
  ⟨4 * m - step, 4 * m + 2, m % 2 = 0⟩

/-- Whether `c * 10 ^ g` rounds to the number. -/
def readsBack (b : Binary64) (c : Nat) (g : Int) : Bool :=
  let e := b.exponent - 2
  let decimal := c * above 10 g * below 2 e
  let unit := above 2 e * below 10 g
  let i := b.interval
  if i.closed then i.low * unit ≤ decimal && decimal ≤ i.high * unit
  else i.low * unit < decimal && decimal < i.high * unit

/-- The number of decimal digits before the point of a fraction, or minus the number of zeros
behind it, searched upwards from a bound in the given number of steps. -/
def magnitudeFrom (num den : Nat) : Nat → Int → Int
  | 0, k => k
  | fuel + 1, k =>
    if num * below 10 k < den * above 10 k then k else magnitudeFrom num den fuel (k + 1)

/-- The power of ten just above the number. -/
def magnitude (b : Binary64) : Int :=
  magnitudeFrom (b.significand * above 2 b.exponent) (below 2 b.exponent) 640 (-330)

/-- A decimal of the given number of digits that reads back as the number, if there is one, with
its power of ten. -/
def withDigits? (b : Binary64) (digits : Nat) : Option (Nat × Int) :=
  let g := b.magnitude - digits
  let num := b.significand * above 2 b.exponent * below 10 g
  let den := below 2 b.exponent * above 10 g
  let c := roundDiv num den
  let other := if c * den ≤ num then c + 1 else c - 1
  if b.readsBack c g then some (c, g)
  else if b.readsBack other g then some (other, g)
  else none

/-- Drops zeros at the end of a decimal. -/
def dropZeros : Nat → Nat × Int → Nat × Int
  | 0, d => d
  | fuel + 1, (c, g) =>
    if c % 10 = 0 && c != 0 then dropZeros fuel (c / 10, g + 1) else (c, g)

/-- The shortest decimal that reads back as the number: digits and a power of ten. Seventeen digits
are always enough. -/
def shortest (b : Binary64) : Nat × Int :=
  let found := (List.range 17).findSome? fun n => b.withDigits? (n + 1)
  dropZeros 20 (found.getD (0, 0))

end Binary64

end Stencil
