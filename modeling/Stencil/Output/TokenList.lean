import Stencil.Json.Printer
import Stencil.Text.Numeral
import Stencil.Token.Basic

/-!
# Token lists

Tokens are listed as JSON, one object for each with its kind, its offset and its text.
-/

namespace Stencil

/-- A token as JSON. The end of the source has the offset null. -/
def Token.toJson (t : Token) : Json :=
  .ofMembers [
    ("kind", .string t.kind.name),
    ("offset", t.offset.elim .null fun n => .number (Text.natText n)),
    ("text", .string t.text)]

/-- The list of some tokens. -/
def tokenList (tokens : List Token) : String :=
  (Json.array (tokens.map Token.toJson)).indented

end Stencil
