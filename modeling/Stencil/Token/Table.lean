import Stencil.Token.Transition

/-!
# Token tables

A token table is a list of definitions. Each belongs to a context and says what text to look for,
what kind and class of token it gives, and which transition follows. Order counts: of two
definitions that match at the same place, the earlier wins.
-/

namespace Stencil

/-- What can be wrong with a token table or with the choice of a start context. -/
inductive SetupError where
  /-- No definition belongs to the context. -/
  | undefinedContext (context : Context)
  | missingTransition (context : Context) (kind : TokenKind)
  | unknownTransition (kind : TokenKind) (name : String)
  /-- A text that is no pattern, with the kind that the first definition at fault gives. -/
  | invalidPattern (kind : TokenKind) (pattern : String)
  /-- A configuration that cannot be read or does not describe a token table. -/
  | unreadable
  deriving Repr, DecidableEq

/-- The text of a setup error. -/
def SetupError.message : SetupError → String
  | undefinedContext c => "no token definitions for context '" ++ c.name ++ "'"
  | missingTransition c k =>
    "token definition " ++ k.label ++ " in context '" ++ c.name ++ "' has no transition"
  | unknownTransition k name =>
    "token definition " ++ k.label ++ " uses unknown transition '" ++ name ++ "'"
  | invalidPattern k pattern => "invalid pattern for " ++ k.label ++ " (" ++ pattern ++ ")"
  | unreadable => "failed to load configuration: not a configuration"

/-- A token definition as a configuration writes it: the transition is a name and may be
missing. -/
structure TokenSpec where
  context : Context
  kind : TokenKind
  cls : TokenClass
  pattern : String
  transition : Option String
  deriving Repr, DecidableEq

/-- A token definition. -/
structure TokenDef where
  context : Context
  kind : TokenKind
  cls : TokenClass
  pattern : String
  transition : Transition
  deriving Repr, DecidableEq

/-- A list of token definitions, in order of precedence. -/
abbrev TokenTable := List TokenDef

/-- Finds the transition that a definition names. -/
def TokenSpec.resolve (s : TokenSpec) : Except SetupError TokenDef :=
  match s.transition with
  | none => .error (.missingTransition s.context s.kind)
  | some name =>
    match Transition.ofName? name with
    | none => .error (.unknownTransition s.kind name)
    | some t => .ok ⟨s.context, s.kind, s.cls, s.pattern, t⟩

/-- Resolves all definitions; the first that names no transition is the error. -/
def TokenTable.ofSpecs (specs : List TokenSpec) : Except SetupError TokenTable :=
  specs.mapM TokenSpec.resolve

end Stencil
