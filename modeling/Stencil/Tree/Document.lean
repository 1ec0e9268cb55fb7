import Stencil.Json.Reader
import Stencil.Tree.Wire
import Stencil.Yaml.Reader

/-!
# Documents that hold trees

A tree in the exchange format is stored as JSON or as YAML. The ending of a file's name tells which.
-/

namespace Stencil

/-- How a tree is written down. -/
inductive Notation where
  | json
  | yaml
  deriving Repr, DecidableEq

namespace Notation

/-- The ending of a path: what stands behind the last point of its last component. A point that
starts the component starts no ending. -/
def ending (path : List Char) : List Char :=
  let name := path.reverse.takeWhile (· != '/')
  match name.dropWhile (· != '.') with
  | _ :: _ :: _ => (name.takeWhile (· != '.')).reverse
  | _ => []

/-- The notation of a file. YAML has an ending of its own; anything else is taken for JSON. -/
def ofPath (path : String) : Notation :=
  let e := ending path.toList
  if e = "yaml".toList ∨ e = "yml".toList then yaml else json

/-- The value that a document writes. -/
def read (n : Notation) (text : String) : Except DecodeError Json :=
  let value? := match n with
    | json => Json.read? text
    | yaml => Yaml.read? text
  match value? with
  | some v => .ok v
  | none => .error .unreadable

end Notation

end Stencil
