import Stencil.Config.Setting

/-!
# Paths to settings

A path leads from a setting to one inside it, such as `deparser.indent` or `tokens[0].pattern`.
Writing at the end of a path makes the tables and lists on the way where they are missing.
-/

namespace Stencil.Setting

/-- A step from a setting to one inside it. -/
inductive Step where
  | name (name : String)
  /-- An index into a list; a negative one counts from its end. -/
  | index (i : Int)
  deriving Repr, DecidableEq

/-- The list with an item at an index; beyond its end it is padded. -/
def putItem (i : Nat) (value : Setting) (xs : List Setting) : List Setting :=
  (xs ++ List.replicate (i + 1 - xs.length) nothing).set i value

/-- The place in a list of some length that an index means. -/
def place (i : Int) (length : Nat) : Nat :=
  if i < 0 then length - i.natAbs else i.natAbs

/-- Writes a setting at the end of a path. -/
def write (value : Setting) : List Step → Setting → Setting
  | [], _ => value
  | .name n :: path, s => s.put n (write value path ((s.get? n).getD nothing))
  | .index i :: path, s =>
    let k := place i s.items.length
    list (putItem k (write value path (s.items[k]?.getD nothing)) s.items)

/-- Whether a character may stand in a name on a path. -/
def isPathChar (c : Char) : Bool :=
  c.isAlphanum || c == '_' || c == '-' || c == ' '

/-- The index between brackets, blanks around it allowed. -/
def indexOf? (cs : List Char) : Option Int :=
  let isGap := fun c => c == ' ' || c == '\t'
  let inner := ((cs.dropWhile isGap).reverse.dropWhile isGap).reverse
  match inner with
  | '-' :: ds => (Text.natural? ds).map fun n => -(n : Int)
  | ds => (Text.natural? ds).map Int.ofNat

/-- The steps after the first: a point and a name, or an index in brackets. -/
def steps? : Nat → List Char → Option (List Step)
  | _, [] => some []
  | 0, _ => none
  | fuel + 1, '.' :: cs => do
    let name := cs.takeWhile isPathChar
    guard (!name.isEmpty)
    return .name (String.ofList name) :: (← steps? fuel (cs.dropWhile isPathChar))
  | fuel + 1, '[' :: cs =>
    match cs.dropWhile (· != ']') with
    | [] => none
    | _ :: rest => do
      let i ← indexOf? (cs.takeWhile (· != ']'))
      return .index i :: (← steps? fuel rest)
  | _, _ => none

/-- The path that a text writes: a name, and then further names and indices. -/
def path? (text : String) : Option (List Step) :=
  steps? (text.length + 1) ('.' :: text.toList)

end Stencil.Setting
