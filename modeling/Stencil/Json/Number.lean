import Stencil.Json.Value

/-!
# Numbers in JSON

A JSON number is an optional minus sign, an integer part without leading zeros, an optional
fraction and an optional exponent. `Number.scan?` reads one and keeps its digits; only the exponent
mark is made uniform, a small `e` followed by a sign.
-/

namespace Stencil.Json.Number

/-- One digit or more, and what follows them. -/
def digits1? (cs : List Char) : Option (List Char × List Char) :=
  match cs.takeWhile Char.isDigit with
  | [] => none
  | ds => some (ds, cs.dropWhile Char.isDigit)

/-- The integer part: a zero alone, or digits that do not start with a zero. -/
def integer? : List Char → Option (List Char × List Char)
  | '0' :: rest => some (['0'], rest)
  | cs => digits1? cs

/-- A fraction, if a point comes next. -/
def fraction? : List Char → Option (List Char × List Char)
  | '.' :: rest => (digits1? rest).map fun (ds, rest) => ('.' :: ds, rest)
  | cs => some ([], cs)

/-- The sign and the digits of an exponent; a missing sign is a plus. -/
def exponentTail? : List Char → Option (List Char × List Char)
  | '+' :: rest => (digits1? rest).map fun (ds, rest) => ('+' :: ds, rest)
  | '-' :: rest => (digits1? rest).map fun (ds, rest) => ('-' :: ds, rest)
  | cs => (digits1? cs).map fun (ds, rest) => ('+' :: ds, rest)

/-- An exponent, if its mark comes next. -/
def exponent? : List Char → Option (List Char × List Char)
  | 'e' :: rest => (exponentTail? rest).map fun (e, rest) => ('e' :: e, rest)
  | 'E' :: rest => (exponentTail? rest).map fun (e, rest) => ('e' :: e, rest)
  | cs => some ([], cs)

/-- A number without its sign. -/
def unsigned? (cs : List Char) : Option (List Char × List Char) := do
  let (whole, cs) ← integer? cs
  let (fraction, cs) ← fraction? cs
  let (exponent, cs) ← exponent? cs
  return (whole ++ fraction ++ exponent, cs)

/-- The number at the front of a text, and what follows it. -/
def scan? : List Char → Option (List Char × List Char)
  | '-' :: rest => (unsigned? rest).map fun (cs, rest) => ('-' :: cs, rest)
  | cs => unsigned? cs

/-- The number that a whole text writes. -/
def ofText? (text : String) : Option Json :=
  match scan? text.toList with
  | some (cs, []) => some (.number (String.ofList cs))
  | _ => none

end Stencil.Json.Number
