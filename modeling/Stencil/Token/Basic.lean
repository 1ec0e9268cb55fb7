import Stencil.Text.Numeral
import Stencil.Text.Quoted
import Stencil.Token.Kind

/-!
# Tokens

A token is a classified slice of the source. The end of the source is a token of its own, which
has no offset and no text.
-/

namespace Stencil

/-- What the scanner is inside of, which decides the definitions that apply. -/
inductive Context where
  /-- Text between blocks. -/
  | template
  /-- The inside of a block. -/
  | block
  /-- The inside of a comment. -/
  | comment
  /-- The inside of a literal block, which is not interpreted. -/
  | literal
  deriving Repr, DecidableEq

/-- All contexts, in the order in which they are compiled and listed. -/
def Context.all : List Context :=
  [.template, .block, .comment, .literal]

/-- The name of a context in token tables. -/
def Context.name : Context → String
  | template => "template"
  | block => "block"
  | comment => "comment"
  | literal => "literal"

/-- The context of a given name. -/
def Context.ofName? (name : String) : Option Context :=
  all.find? (·.name == name)

/-- What happens to the text that a definition matches. -/
inductive TokenClass where
  /-- It becomes a token. -/
  | normal
  /-- It becomes a token whose text carries a value. -/
  | literal
  /-- It is dropped. -/
  | ignore
  deriving Repr, DecidableEq

/-- The name of a class in token tables. -/
def TokenClass.name : TokenClass → String
  | normal => "normal"
  | literal => "literal"
  | ignore => "ignore"

/-- The class of a given name. -/
def TokenClass.ofName? (name : String) : Option TokenClass :=
  [normal, literal, ignore].find? (·.name == name)

/-- A classified slice of the source. -/
structure Token where
  kind : TokenKind
  /-- The place of the first byte, counted from one; the end of the source has none. -/
  offset : Option Nat
  text : String
  deriving Repr, DecidableEq

namespace Token

/-- The end of the source. -/
def eof : Token :=
  ⟨.eof, none, ""⟩

/-- Whether the token ends the source. -/
def isEof (t : Token) : Bool :=
  t.kind == .eof

/-- The text that an error shows for the token. -/
def found (t : Token) : String :=
  if t.isEof then "end of input" else t.text

/-- The token in one line: its label, its offset and its quoted text. -/
def display (t : Token) : String :=
  match t.offset with
  | some n => t.kind.label ++ "@" ++ Text.natText n ++ " " ++ Text.quoted t.text
  | none => t.kind.label ++ "@-1"

end Token

end Stencil
