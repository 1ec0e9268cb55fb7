import Stencil.Text.Lines

/-!
# Decimal numbers

A decimal keeps the digits it was written with: it is an unscaled integer together with the number
of its digits after the point, so `1.50` and `1.5` differ. A positive exponent shifts the point and
leaves no digits after it.

A machine reads decimals in words: it counts the signs by subtracting lengths, and computes the
scale as a number of 64 bits and then as one of 32. `Decimal.readInWords` takes these steps, and
`Decimal.ofText?` reads the same decimals without words.
-/

namespace Stencil

/-- The number `unscaled / 10 ^ scale`, written with `scale` digits after the point. -/
structure Decimal where
  unscaled : Int
  scale : Nat
  deriving Repr, DecidableEq

namespace Decimal

/-- The largest number of digits after the point, and the largest shift by an exponent. -/
def maxShift : Nat := 4096

/-- Digits with zeros in front, so that more than `scale` of them stand there. -/
def padded (digits : List Char) (scale : Nat) : List Char :=
  List.replicate (scale + 1 - digits.length) '0' ++ digits

/-- The decimal in plain notation. -/
def chars (d : Decimal) : List Char :=
  let digits := padded (Text.decimalDigits d.unscaled.natAbs) d.scale
  let whole := digits.take (digits.length - d.scale)
  let sign := if d.unscaled < 0 then ['-'] else []
  if d.scale = 0 then sign ++ whole
  else sign ++ whole ++ '.' :: digits.drop (digits.length - d.scale)

/-- The text of a decimal. -/
def text (d : Decimal) : String :=
  String.ofList d.chars

/-- The mantissa and the exponent of a text. Without an exponent mark the exponent is zero; with
one it must be a whole number of 64 bits. -/
def splitExponent? (cs : List Char) : Option (List Char × Int) :=
  let isMark (c : Char) := c == 'e' || c == 'E'
  let mantissa := cs.takeWhile (!isMark ·)
  match cs.dropWhile (!isMark ·) with
  | [] => some (mantissa, 0)
  | _ :: exponent => (Text.int64? exponent).map fun x => (mantissa, x)

/-- The parts of a mantissa before and after its first point. -/
def splitPoint (cs : List Char) : List Char × List Char :=
  (cs.takeWhile (· != '.'), (cs.dropWhile (· != '.')).drop 1)

/-- A whole number `unscaled` with `fraction` digits after the point, shifted by an exponent. -/
def shifted? (unscaled : Int) (fraction : Nat) (exponent : Int) : Option Decimal :=
  let scale : Int := fraction - exponent
  if scale.natAbs > maxShift then none
  else if 0 ≤ scale then some ⟨unscaled, scale.natAbs⟩
  else some ⟨unscaled * (Nat.pow 10 scale.natAbs : Nat), 0⟩

/-- The decimal that characters write: an optional sign, digits, an optional point with digits
after it, and an optional exponent. -/
def ofChars? (cs : List Char) : Option Decimal := do
  let (mantissa, exponent) ← splitExponent? cs
  let (whole, fraction) := splitPoint mantissa
  let (negative, digits) := Text.splitSign whole
  let _ ← Text.natural? digits
  guard (fraction.all Char.isDigit)
  let unscaled := Text.withSign negative (Text.digitsValue (digits ++ fraction))
  shifted? unscaled fraction.length exponent

/-- The decimal that a text writes. -/
def ofText? (text : String) : Option Decimal :=
  ofChars? text.toList

/-! ## Reading in words -/

/-- Why the reader in words stops without a number. -/
inductive Stop where
  /-- The text is no decimal. -/
  | refused
  /-- A result does not fit in its word. -/
  | overflow
  deriving Repr, DecidableEq

/-- Whether a number fits in 32 bits without a sign. -/
def fitsUInt32 (n : Int) : Bool :=
  0 ≤ n && n < 0x100000000

/-- A result that has to fit in its word. -/
def inWord (fits : Int → Bool) (n : Int) : Except Stop Int :=
  if fits n then .ok n else .error .overflow

/-- A result that is checked: where it does not fit in its word, the text is refused. -/
def checked (fits : Int → Bool) (n : Int) : Except Stop Int :=
  if fits n then .ok n else .error .refused

/-- The difference of two lengths, which has no sign. -/
def lengthDifference (m n : Nat) : Except Stop Nat :=
  if n ≤ m then .ok (m - n) else .error .overflow

/-- A character that is taken off as a sign. -/
def isSignChar (c : Char) : Bool :=
  c == '-' || c == '+'

/-- The whole digits. All signs in front of them are taken off, and what that takes off the length
is the number of signs. -/
def unsignedInWords (whole fraction : List Char) : Except Stop (List Char) :=
  let digits := whole.dropWhile isSignChar
  if digits.isEmpty || !digits.all Char.isDigit || !fraction.all Char.isDigit then .error .refused
  else do
    let signs ← lengthDifference (Text.byteLength whole) (Text.byteLength digits)
    if 1 < signs then .error .refused else .ok digits

/-- The decimal of a scale of 64 bits. Once the scale is known to be small it becomes a number of 32
bits without a sign; a negative one is turned round before that. -/
def scaledInWords (unscaled scale : Int) : Except Stop Decimal :=
  if scale.natAbs > maxShift then .error .refused
  else if 0 ≤ scale then do
    let scale ← inWord fitsUInt32 scale
    .ok ⟨unscaled, scale.toNat⟩
  else do
    let shift ← inWord Text.fitsInt64 (-scale)
    let shift ← inWord fitsUInt32 shift
    .ok ⟨unscaled * (Nat.pow 10 shift.toNat : Nat), 0⟩

/-- The shift of the point. The number of digits after it becomes a number of 64 bits, from which
the exponent is subtracted. -/
def shiftedInWords (unscaled : Int) (fraction : Nat) (exponent : Int) : Except Stop Decimal := do
  let length ← checked Text.fitsInt64 fraction
  let scale ← checked Text.fitsInt64 (length - exponent)
  scaledInWords unscaled scale

/-- The decimal that characters write, read in words. -/
def readInWords (cs : List Char) : Except Stop Decimal :=
  match splitExponent? cs with
  | none => .error .refused
  | some (mantissa, exponent) => do
    let (whole, fraction) := splitPoint mantissa
    let digits ← unsignedInWords whole fraction
    let unscaled := Text.withSign (whole.head? == some '-') (Text.digitsValue (digits ++ fraction))
    shiftedInWords unscaled (Text.byteLength fraction) exponent

/-- What is said about a text that is no decimal. -/
def errorMessage (text : String) : String :=
  "invalid decimal literal '" ++ text ++ "'"

end Decimal

end Stencil
