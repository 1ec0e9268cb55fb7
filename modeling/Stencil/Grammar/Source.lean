import Stencil.Grammar.Template
import Stencil.Lexer.Cursor
import Stencil.Lexer.Standard
import Stencil.Tree.Wire

/-!
# Parsing sources

Scanning and parsing together, from the text of a source to its tree. The first token that does
not fit is the error, reported with its line.
-/

namespace Stencil

/-- A violation of the grammar: the line of the offending token, what was expected there, and what
was found. -/
structure SyntaxError where
  line : Nat
  expected : String
  found : String
  deriving Repr, DecidableEq

/-- The text of a syntax error. -/
def SyntaxError.message (e : SyntaxError) : String :=
  "line " ++ Text.natText e.line ++ ": expected " ++ e.expected ++ ", found '" ++ e.found ++ "'"

/-- The report of a rejection. -/
def SyntaxError.ofRejection (r : Rejection Cursor) : SyntaxError :=
  { line := r.rest.lineAt r.token.offset
    expected := r.expected
    found := r.token.found }

/-- Why no format was written. -/
inductive FormatError where
  | notFound (name : String)
  /-- The format failed, with its own words. -/
  | failed (reason : String)
  deriving Repr, DecidableEq

/-- The text of a format error. -/
def FormatError.message : FormatError → String
  | notFound name => "Format '" ++ name ++ "' not found"
  | failed reason => "Serialization error: " ++ reason

/-- Whatever can go wrong between a source and its output. -/
inductive Failure where
  | setup (e : SetupError)
  | grammar (e : SyntaxError)
  | tree (e : DecodeError)
  | format (e : FormatError)
  deriving Repr

/-- The text of a failure, which starts with the stage that failed. -/
def Failure.message : Failure → String
  | setup e => "Configuration error: " ++ e.message
  | grammar e => "Syntax error: " ++ e.message
  | tree e => "Malformed AST: " ++ e.message
  | format e => e.message

namespace Lexicon

/-- A number above the number of tokens of a source: every token but the end has a character. -/
def tokenLimit (source : String) : Nat :=
  source.length + 2

/-- Runs a parser over the tokens of a source, which are scanned as the parser asks for them. -/
def parseWith {α : Type} (l : Lexicon) (parser : Parse α) (source : String) (start : Context) :
    Except Failure α := do
  let cursor ← (Cursor.start l source start).mapError .setup
  match parser.run (tokenLimit source) cursor with
  | .ok (a, _) => return a
  | .error r => throw (.grammar (SyntaxError.ofRejection r))

/-- The items of a template whose scan starts in the given context. -/
def parseFrom (l : Lexicon) (source : String) (start : Context) : Except Failure (List Item) :=
  l.parseWith Grammar.template source start

/-- The items of a template. -/
def parse (l : Lexicon) (source : String) : Except Failure (List Item) :=
  l.parseFrom source .template

/-- The node of a bare expression, which may end with the end of a block. -/
def parseExpression (l : Lexicon) (source : String) : Except Failure Node :=
  l.parseWith Grammar.bareExpression source .block

end Lexicon

namespace Standard

/-- The template that a source writes in the standard vocabulary. -/
def parseTemplate (source : String) : Except Failure Template := do
  let l ← lexicon.mapError .setup
  return { items := ← l.parse source }

end Standard

end Stencil
