import Stencil.Json.Value
import Stencil.Number.Binary64
import Stencil.Text.Numeral

/-!
# Plain scalars in YAML

A scalar without quotes may mean null, a truth value or a number; all else is a string. Whole
numbers of up to 128 bits keep their value, other numbers become floating-point numbers and are
written in their shortest form: in positions from `0.00001` up to below `1e16`, and with an exponent
beyond.
-/

namespace Stencil.Yaml

/-- The digits of a decimal around its point, at least one on each side. -/
def positional (digits : List Char) (exponent : Int) : List Char :=
  if 0 ≤ exponent then
    digits ++ List.replicate exponent.natAbs '0' ++ ['.', '0']
  else
    let places := exponent.natAbs
    if places < digits.length then
      digits.take (digits.length - places) ++ '.' :: digits.drop (digits.length - places)
    else ['0', '.'] ++ List.replicate (places - digits.length) '0' ++ digits

/-- One digit, the others behind the point, and an exponent. -/
def scientific (digits : List Char) (exponent : Int) : List Char :=
  let power := exponent + digits.length - 1
  match digits with
  | [] => []
  | [d] => d :: 'e' :: Text.intChars power
  | d :: ds => d :: '.' :: ds ++ 'e' :: Text.intChars power

/-- The text of a positive floating-point number. -/
def floatChars (b : Binary64) : List Char :=
  let (c, g) := b.shortest
  let digits := Text.decimalDigits c
  let point := g + digits.length
  if -5 < point && point ≤ 16 then positional digits g else scientific digits g

/-- A decimal as it is written: its digits and a power of ten. -/
structure Numeral where
  digits : List Char
  exponent : Int

/-- The floating-point number that a numeral stands for, as text, if it is finite. -/
def Numeral.float? (n : Numeral) : Option (List Char) :=
  let significant := n.digits.dropWhile (· == '0')
  let top := n.exponent + significant.length
  if significant.isEmpty || top < -330 then some ['0', '.', '0']
  else if top > 310 then none
  else
    let c := Text.digitsValue significant
    match Binary64.nearest? (c * Binary64.above 10 n.exponent) (Binary64.below 10 n.exponent) with
    | none => none
    | some b => some (if b.significand = 0 then ['0', '.', '0'] else floatChars b)

/-- The numeral that unsigned characters write: digits with an optional point, at least one digit
in all, and an optional exponent. -/
def numeral? (cs : List Char) : Option Numeral := do
  let whole := cs.takeWhile Char.isDigit
  let rest := cs.dropWhile Char.isDigit
  let (fraction, rest) := match rest with
    | '.' :: rest => (rest.takeWhile Char.isDigit, rest.dropWhile Char.isDigit)
    | rest => ([], rest)
  guard (!(whole ++ fraction).isEmpty)
  let exponent ← match rest with
    | [] => some 0
    | e :: rest => if e == 'e' || e == 'E' then Text.signed? rest else none
  return ⟨whole ++ fraction, exponent - fraction.length⟩

/-- Whether a sign and digits start with a zero that a number may not start with. -/
def hasLeadingZero (cs : List Char) : Bool :=
  match (Text.splitSign cs).2 with
  | '0' :: d :: ds => (d :: ds).all Char.isDigit
  | _ => false

/-- The whole number that a plain scalar writes, in decimal or with the mark of another base. -/
def whole? (cs : List Char) : Option Int := do
  let (negative, magnitude) := Text.splitSign cs
  let n ← match magnitude with
    | '0' :: 'x' :: ds => Text.naturalIn? 16 ds
    | '0' :: 'o' :: ds => Text.naturalIn? 8 ds
    | '0' :: 'b' :: ds => Text.naturalIn? 2 ds
    | ds => if hasLeadingZero cs then none else Text.natural? ds
  let value := Text.withSign negative n
  guard (-(Nat.pow 2 127 : Nat) ≤ value && value < (Nat.pow 2 128 : Nat))
  return value

/-- The number with a fraction or an exponent that a plain scalar writes. -/
def float? (cs : List Char) : Option String := do
  guard (!hasLeadingZero cs)
  let (negative, magnitude) := Text.splitSign cs
  let n ← numeral? magnitude
  let text ← n.float?
  return String.ofList (if negative then '-' :: text else text)

/-- The spellings of numbers that have no digits; no JSON number stands for them. -/
def isUnbounded (s : String) : Bool :=
  [".inf", ".Inf", ".INF", "+.inf", "+.Inf", "+.INF", "-.inf", "-.Inf", "-.INF", ".nan", ".NaN",
    ".NAN"].contains s

/-- The value of a plain scalar. -/
def plainValue (s : String) : Json :=
  if ["", "~", "null", "Null", "NULL"].contains s then .null
  else if ["true", "True", "TRUE"].contains s then .bool true
  else if ["false", "False", "FALSE"].contains s then .bool false
  else if isUnbounded s then .null
  else
    match whole? s.toList with
    | some n => .number (Text.intText n)
    | none =>
      match float? s.toList with
      | some text => .number text
      | none => .string s

end Stencil.Yaml
