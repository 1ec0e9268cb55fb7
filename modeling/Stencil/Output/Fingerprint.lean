import Stencil.Tree.Wire

/-!
# Fingerprints

The fingerprint of a tree is the sum of the hashes of its leaves, with their number. It is taken
over the exchange format and ignores what the arrays mean. Sums commute, so siblings may change
places. The hash of a text is a polynomial over its UTF-16 code units, and all arithmetic is that
of 32 bits.
-/

namespace Stencil

/-- The UTF-16 code units of a character. -/
def utf16Units (c : Char) : List Nat :=
  let n := c.toNat
  if n < 0x10000 then [n]
  else [0xd800 + (n - 0x10000) / 0x400, 0xdc00 + (n - 0x10000) % 0x400]

/-- The hash of a text: the units as the coefficients of a polynomial at 31, the last one with the
lowest power. -/
def stringHash (s : String) : Int32 :=
  (s.toList.flatMap utf16Units).foldl (fun hash u => hash * 31 + Int32.ofNat u) 0

namespace Json

/-- The text of a value that has no parts. -/
def leafText : Json → String
  | null => "null"
  | bool true => "true"
  | bool false => "false"
  | number text => text
  | string s => s
  | array _ | object _ => ""

mutual

/-- The sum of the hashes of all leaves. Names of members do not count. -/
def hashSum : Json → Int32
  | array xs => elementHashSum xs
  | object ms => memberHashSum ms
  | leaf => stringHash leaf.leafText
termination_by structural v => v

/-- The sum over the elements of an array. -/
def elementHashSum : List Json → Int32
  | [] => 0
  | x :: xs => x.hashSum + elementHashSum xs
termination_by structural xs => xs

/-- The sum over the members of an object. -/
def memberHashSum : List (String × Json) → Int32
  | [] => 0
  | (_, x) :: ms => x.hashSum + memberHashSum ms
termination_by structural ms => ms

end

mutual

/-- The number of arrays, objects and leaves. -/
def count : Json → Nat
  | array xs => 1 + elementCount xs
  | object ms => 1 + memberCount ms
  | _ => 1
termination_by structural v => v

/-- The number inside the elements of an array. -/
def elementCount : List Json → Nat
  | [] => 0
  | x :: xs => x.count + elementCount xs
termination_by structural xs => xs

/-- The number inside the members of an object. -/
def memberCount : List (String × Json) → Nat
  | [] => 0
  | (_, x) :: ms => x.count + memberCount ms
termination_by structural ms => ms

end

end Json

/-- The fingerprint of a tree. -/
structure Fingerprint where
  hash : Int32
  nodes : Nat
  deriving Repr, DecidableEq

namespace Fingerprint

/-- The fingerprint of a value, an envelope left aside. -/
def ofJson (v : Json) : Fingerprint :=
  let root := (Template.openEnvelope v).2
  ⟨root.hashSum, root.count⟩

/-- The fingerprint of the items of a template. -/
def ofItems (items : List Item) : Fingerprint :=
  ofJson (.array (itemsToJson items))

/-- The text of a fingerprint. -/
def text (f : Fingerprint) : String :=
  "fingerprint=" ++ Text.intText f.hash.toInt ++ " nodes=" ++ Text.natText f.nodes

end Fingerprint

end Stencil
