import Stencil.Text.Numeral

/-!
# Settings

A configuration is a tree of named settings. Layers of configuration are laid one over the other:
tables merge name by name, and anything else replaces what stood there before.
-/

namespace Stencil

/-- A setting: a plain value, a list or a table of settings. -/
inductive Setting where
  /-- Nothing: what pads a list that is written beyond its end. -/
  | nothing
  | text (s : String)
  | int (n : Int)
  | flag (b : Bool)
  | list (items : List Setting)
  | table (entries : List (String × Setting))
  deriving Repr, Inhabited

namespace Setting

/-- The entries of a table; any other setting has none. -/
def entries : Setting → List (String × Setting)
  | table es => es
  | _ => []

/-- The items of a list; any other setting has none. -/
def items : Setting → List Setting
  | list xs => xs
  | _ => []

/-- What stands under a name. -/
def get? (s : Setting) (name : String) : Option Setting :=
  s.entries.lookup name

/-- Puts an entry in the place of the one of its name, or behind all others. -/
def putEntry (name : String) (value : Setting) : List (String × Setting) → List (String × Setting)
  | [] => [(name, value)]
  | (n, v) :: rest =>
    if n = name then (name, value) :: rest else (n, v) :: putEntry name value rest

/-- The table with a setting under a name. What is no table becomes one. -/
def put (s : Setting) (name : String) (value : Setting) : Setting :=
  table (putEntry name value s.entries)

mutual

/-- Lays a setting over another. -/
def overlay : Setting → Option Setting → Setting
  | table es, under => overlayEntries es (under.getD (table []))
  | s, _ => s
termination_by structural s => s

/-- Lays the entries of a table over a setting, one after the other. -/
def overlayEntries : List (String × Setting) → Setting → Setting
  | [], under => under
  | (name, s) :: es, under => overlayEntries es (under.put name (s.overlay (under.get? name)))
termination_by structural es => es

end

/-- Lays tables over each other, the last on top. -/
def merge (layers : List Setting) : Setting :=
  layers.foldl (fun under s => overlayEntries s.entries under) (table [])

/-- The text of a plain value. -/
def text? : Setting → Option String
  | text s => some s
  | int n => some (Text.intText n)
  | flag true => some "true"
  | flag false => some "false"
  | _ => none

/-- The items of a list. -/
def list? : Setting → Option (List Setting)
  | list xs => some xs
  | _ => none

/-- The name that a setting chooses from a fixed set of names: a text, or the name of the only entry
of a table. -/
def choice? : Setting → Option String
  | text s => some s
  | table [(name, _)] => some name
  | _ => none

/-- The setting, unless it is nothing. -/
def present? : Setting → Option Setting
  | nothing => none
  | s => some s

end Setting

end Stencil
