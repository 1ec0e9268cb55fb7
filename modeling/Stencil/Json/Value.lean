import Stencil.Text.Quoted

/-!
# JSON values

A JSON value keeps each number as the text that writes it, so that no digit is lost. The members of
an object are sorted by name, and a name stands once.
-/

namespace Stencil

/-- A JSON value. -/
inductive Json where
  | null
  | bool (b : Bool)
  /-- A number, by the text that writes it. -/
  | number (text : String)
  | string (s : String)
  | array (elements : List Json)
  /-- An object, its members sorted by name. -/
  | object (members : List (String × Json))
  deriving Repr, Inhabited

namespace Json

/-- Puts a member in its place in the order of names; one of the same name is replaced. -/
def insertMember (name : String) (value : Json) : List (String × Json) → List (String × Json)
  | [] => [(name, value)]
  | (n, v) :: rest =>
    if name = n then (name, value) :: rest
    else if name < n then (name, value) :: (n, v) :: rest
    else (n, v) :: insertMember name value rest

/-- The object of some members; of two with one name the later counts. -/
def ofMembers (members : List (String × Json)) : Json :=
  .object (members.foldl (fun sorted (n, v) => insertMember n v sorted) [])

end Json

end Stencil
