/-!
# Numerals

Whole numbers in decimal notation and in other bases: the digits of a number, and the number that
digits write. Digits are those of ASCII here.
-/

namespace Stencil.Text

/-- The digits of a number, at least one. -/
def decimalDigits (n : Nat) : List Char :=
  Nat.toDigits 10 n

/-- A number with a minus sign if it is negative. -/
def intChars (n : Int) : List Char :=
  if n < 0 then '-' :: decimalDigits n.natAbs else decimalDigits n.natAbs

/-- The text of a whole number. -/
def intText (n : Int) : String :=
  String.ofList (intChars n)

/-- The text of a natural number. -/
def natText (n : Nat) : String :=
  String.ofList (decimalDigits n)

/-- The value of a digit. -/
def digitValue (d : Char) : Nat :=
  d.toNat - '0'.toNat

/-- The number that digits write. -/
def digitsValue (ds : List Char) : Nat :=
  ds.foldl (fun n d => 10 * n + digitValue d) 0

/-- The number that one digit or more write. -/
def natural? (cs : List Char) : Option Nat :=
  if !cs.isEmpty && cs.all Char.isDigit then some (digitsValue cs) else none

/-- Splits off one sign; `true` stands for minus. -/
def splitSign : List Char → Bool × List Char
  | '-' :: cs => (true, cs)
  | '+' :: cs => (false, cs)
  | cs => (false, cs)

/-- A number under a sign. -/
def withSign (negative : Bool) (n : Nat) : Int :=
  if negative then -(n : Int) else n

/-- The number that an optional sign and one digit or more write. -/
def signed? (cs : List Char) : Option Int :=
  let (negative, ds) := splitSign cs
  (natural? ds).map (withSign negative)

/-- Whether a number fits in 64 bits. -/
def fitsInt64 (n : Int) : Bool :=
  -0x8000000000000000 ≤ n && n < 0x8000000000000000

/-- A number that fits in 64 bits. -/
def int64? (cs : List Char) : Option Int :=
  (signed? cs).filter fitsInt64

/-- The number that an integer literal writes: an optional sign, a digit, and then digits that
underscores may set apart. -/
def grouped? (cs : List Char) : Option Int :=
  let (negative, ds) := splitSign cs
  if ds.head? = some '_' then none
  else (natural? (ds.filter (· != '_'))).map (withSign negative)

/-- The value of a digit in a base of up to sixteen, where letters of either case follow nine. -/
def digitIn? (base : Nat) (c : Char) : Option Nat :=
  let value :=
    if c.isDigit then digitValue c
    else if 'a' ≤ c && c ≤ 'f' then c.toNat - 'a'.toNat + 10
    else if 'A' ≤ c && c ≤ 'F' then c.toNat - 'A'.toNat + 10
    else base
  if value < base then some value else none

/-- The number that one digit or more write in a base of up to sixteen. -/
def naturalIn? (base : Nat) (cs : List Char) : Option Nat :=
  if cs.isEmpty then none
  else (cs.mapM (digitIn? base)).map (·.foldl (fun n d => base * n + d) 0)

/-- The character whose code point digits write in base sixteen. Surrogates are no characters. -/
def codePoint? (cs : List Char) : Option Char :=
  ((naturalIn? 16 cs).filter (·.isValidChar)).map Char.ofNat

end Stencil.Text
