import Stencil.Json.Number
import Stencil.Text.Escape
import Stencil.Text.Numeral

/-!
# Reading JSON

The reader takes strict JSON: no comments, no trailing commas, no raw controls in strings, no lone
surrogates. Arrays and objects may nest 127 deep.
-/

namespace Stencil.Json

/-- The blanks that may stand between the parts of a JSON text. -/
def isGap (c : Char) : Bool :=
  c == ' ' || c == '\n' || c == '\t' || c == '\r'

/-- Drops leading blanks. -/
def skipGap (cs : List Char) : List Char :=
  cs.dropWhile isGap

/-- The character of a pair of surrogates. -/
def pairChar? (high low : Nat) : Option Char :=
  if 0xd800 ≤ high && high < 0xdc00 && 0xdc00 ≤ low && low < 0xe000 then
    some (Char.ofNat (0x10000 + (high - 0xd800) * 0x400 + (low - 0xdc00)))
  else none

/-- The character of a code unit that stands alone. -/
def unitChar? (n : Nat) : Option Char :=
  if n < 0xd800 || 0xe000 ≤ n then some (Char.ofNat n) else none

/-- The character that a one-letter escape stands for. -/
def shortEscape? : Char → Option Char
  | '"' => some '"'
  | '\\' => some '\\'
  | '/' => some '/'
  | 'b' => some '\x08'
  | 'f' => some '\x0c'
  | 'n' => some '\n'
  | 'r' => some '\r'
  | 't' => some '\t'
  | _ => none

/-- The inside of a string up to its closing quote, and what follows it. A pair of surrogates is
tried before a single escape. -/
def stringBody? : List Char → Option (List Char × List Char)
  | [] => none
  | '"' :: rest => some ([], rest)
  | '\\' :: 'u' :: a :: b :: c :: d :: rest =>
    match Text.naturalIn? 16 [a, b, c, d] with
    | none => none
    | some n =>
      match unitChar? n with
      | some u => Text.withChar (some u) (stringBody? rest)
      | none =>
        match rest with
        | '\\' :: 'u' :: e :: f :: g :: h :: rest =>
          Text.withChar ((Text.naturalIn? 16 [e, f, g, h]).bind (pairChar? n)) (stringBody? rest)
        | _ => none
  | '\\' :: c :: rest => Text.withChar (shortEscape? c) (stringBody? rest)
  | c :: rest =>
    if c.toNat < 32 || c == '\\' then none else Text.withChar (some c) (stringBody? rest)

/-- The rest of a list after its first item: further items after commas, up to the closing
bracket. Every round uses up a comma. -/
def listTail? {α : Type} (item? : List Char → Option (α × List Char)) (close : Char) :
    Nat → List Char → Option (List α × List Char)
  | 0, _ => none
  | fuel + 1, cs =>
    match skipGap cs with
    | [] => none
    | c :: rest =>
      if c = close then some ([], rest)
      else if c = ',' then do
        let (x, rest) ← item? rest
        let (xs, rest) ← listTail? item? close fuel rest
        return (x :: xs, rest)
      else none

/-- A list of items after its opening bracket. -/
def list? {α : Type} (item? : List Char → Option (α × List Char)) (close : Char)
    (cs : List Char) : Option (List α × List Char) :=
  match skipGap cs with
  | [] => none
  | c :: rest =>
    if c = close then some ([], rest)
    else do
      let (x, rest) ← item? (c :: rest)
      let (xs, rest) ← listTail? item? close (rest.length + 1) rest
      return (x :: xs, rest)

/-- A member of an object: a name, a colon and a value. -/
def member? (value? : List Char → Option (Json × List Char)) (cs : List Char) :
    Option ((String × Json) × List Char) :=
  match skipGap cs with
  | '"' :: rest => do
    let (name, rest) ← stringBody? rest
    match skipGap rest with
    | ':' :: rest =>
      let (v, rest) ← value? rest
      return ((String.ofList name, v), rest)
    | _ => none
  | _ => none

/-- The value at the front of a text, and what follows it. Brackets may still open `depth`
deep. -/
def value? : Nat → List Char → Option (Json × List Char)
  | depth, cs =>
    match skipGap cs with
    | 'n' :: 'u' :: 'l' :: 'l' :: rest => some (.null, rest)
    | 't' :: 'r' :: 'u' :: 'e' :: rest => some (.bool true, rest)
    | 'f' :: 'a' :: 'l' :: 's' :: 'e' :: rest => some (.bool false, rest)
    | '"' :: rest => (stringBody? rest).map fun (s, rest) => (.string (String.ofList s), rest)
    | '[' :: rest =>
      match depth with
      | 0 => none
      | depth + 1 => (list? (value? depth) ']' rest).map fun (xs, rest) => (.array xs, rest)
    | '{' :: rest =>
      match depth with
      | 0 => none
      | depth + 1 =>
        (list? (member? (value? depth)) '}' rest).map fun (ms, rest) => (.ofMembers ms, rest)
    | cs => (Number.scan? cs).map fun (text, rest) => (.number (String.ofList text), rest)

/-- How deep arrays and objects may nest. -/
def depthLimit : Nat := 127

/-- The value that a whole text writes. -/
def read? (text : String) : Option Json :=
  match value? depthLimit text.toList with
  | some (v, rest) => if (skipGap rest).isEmpty then some v else none
  | none => none

end Stencil.Json
