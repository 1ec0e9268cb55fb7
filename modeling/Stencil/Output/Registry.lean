import Stencil.Grammar.Source
import Stencil.Output.Outline
import Stencil.Output.PseudoSource

/-!
# Formats

A format turns a template into text and goes by a name. A registry keeps formats in the order of
their names; a format that comes later replaces one of the same name.
-/

namespace Stencil

/-- A named way to write a template. -/
structure Format where
  name : String
  description : String := ""
  write : Template → Except FormatError String

namespace Format

/-- The exchange format on one line. -/
def compact : Format where
  name := "ast-json"
  description := "Tagged-array AST as compact JSON"
  write t := .ok t.toJson.compact

/-- The exchange format on many lines. -/
def indented : Format where
  name := "ast-json-pretty"
  description := "Tagged-array AST as indented JSON"
  write t := .ok t.toJson.indented

/-- The indent of pseudo-source where none is configured. -/
def standardIndent : String := "  "

/-- Pseudo-source. -/
def source : Format where
  name := "source"
  description := "Readable pseudo-source rendered by the deparser"
  write t := .ok (pseudoSource standardIndent t.items)

/-- Outlines. -/
def outline : Format where
  name := "treeviz"
  description := "Visual tree representation with box connectors and Unicode icons"
  write t := .ok (Stencil.outline t.items)

/-- The formats that are always there. -/
def standard : List Format :=
  [compact, indented, source, outline]

end Format

/-- Formats in the order of their names. -/
structure Registry where
  formats : List Format := []

namespace Registry

/-- Puts a format in its place in the order of names. -/
def insert (f : Format) : List Format → List Format
  | [] => [f]
  | g :: rest =>
    if f.name = g.name then f :: rest
    else if f.name < g.name then f :: g :: rest
    else g :: insert f rest

/-- Adds a format, or replaces the one of its name. -/
def register (r : Registry) (f : Format) : Registry :=
  ⟨insert f r.formats⟩

/-- The registry of the formats that are always there. -/
def standard : Registry :=
  Format.standard.foldl register {}

/-- The names of all formats. -/
def names (r : Registry) : List String :=
  r.formats.map (·.name)

/-- The format of a name. -/
def find? (r : Registry) (name : String) : Option Format :=
  r.formats.find? (·.name == name)

/-- The names and descriptions of all formats, for a reader to choose from. -/
def listing (r : Registry) : String :=
  "Available formats:\n\n" ++
    String.join (r.formats.map fun f => "  " ++ f.name ++ "\n    " ++ f.description ++ "\n")

/-- Writes a template in the format of a name. -/
def serialize (r : Registry) (t : Template) (name : String) : Except FormatError String :=
  match r.find? name with
  | some f => f.write t
  | none => .error (.notFound name)

end Registry

end Stencil
