import Stencil.Config.Path
import Stencil.Config.Toml
import Stencil.Lexer.Standard

/-!
# Configurations

A configuration names the context in which scanning starts, the indent of pseudo-source, and the
token table. It is put together from layers over the standard configuration. Single settings that
are set by name count more than all layers.
-/

namespace Stencil

/-- A configuration. -/
structure Config where
  /-- The context in which the scan of a template starts. -/
  startContext : Context
  /-- What stands before a line of pseudo-source for each block around it. -/
  indent : String
  tokens : List TokenSpec
  deriving Repr, DecidableEq

/-- The definition as a configuration writes it. -/
def TokenDef.toSpec (d : TokenDef) : TokenSpec :=
  ⟨d.context, d.kind, d.cls, d.pattern, some d.transition.name⟩

namespace TokenSpec

/-- The definition as a table of settings. -/
def toSetting (s : TokenSpec) : Setting :=
  .table ([("context", .text s.context.name), ("kind", .text s.kind.name),
      ("class", .text s.cls.name), ("pattern", .text s.pattern)] ++
    s.transition.toList.map fun t => ("transition", .text t))

/-- The transition that a definition names; it may be missing but must be a text. -/
def transition? (s : Setting) : Option (Option String) :=
  match (s.get? "transition").bind Setting.present? with
  | none => some none
  | some t => t.text?.map some

/-- The definition that a table of settings describes. -/
def ofSetting? (s : Setting) : Option TokenSpec := do
  return {
    context := ← Context.ofName? (← (← s.get? "context").choice?)
    kind := ← TokenKind.ofName? (← (← s.get? "kind").choice?)
    cls := ← TokenClass.ofName? (← (← s.get? "class").choice?)
    pattern := ← (← s.get? "pattern").text?
    transition := ← transition? s }

end TokenSpec

namespace Config

/-- The configuration where none is given. -/
def standard : Config where
  startContext := .template
  indent := "  "
  tokens := Standard.table.map TokenDef.toSpec

/-- The configuration as a table of settings. -/
def toSetting (c : Config) : Setting :=
  .table [
    ("lexer", .table [("start_context", .text c.startContext.name)]),
    ("deparser", .table [("indent", .text c.indent)]),
    ("tokens", .list (c.tokens.map TokenSpec.toSetting))]

/-- The configuration that a table of settings describes. Settings of other names do not count. -/
def ofSetting? (s : Setting) : Option Config := do
  return {
    startContext := ← Context.ofName? (← (← (← s.get? "lexer").get? "start_context").choice?)
    indent := ← (← (← s.get? "deparser").get? "indent").text?
    tokens := ← (← (← s.get? "tokens").list?).mapM TokenSpec.ofSetting? }

/-- The definitions of the configuration, each with its transition. -/
def table (c : Config) : Except SetupError TokenTable :=
  TokenTable.ofSpecs c.tokens

/-- The compiled token table of the configuration. -/
def lexicon (c : Config) : Except SetupError Lexicon := do
  Lexicon.compile (← c.table)

end Config

/-- What can be laid over the standard configuration. -/
inductive Layer where
  /-- The text of a configuration, if it could be found. -/
  | text (toml? : Option String) (required : Bool)
  /-- A single setting: the path to it, and its text. -/
  | setting (path value : String)
  deriving Repr, DecidableEq

namespace Layer

/-- The table that a layer adds below all single settings: none if it is missing but not required,
or is a single setting itself. -/
def table? : Layer → Option (List Setting)
  | text (some toml) _ => (Toml.read? toml).map ([·])
  | text none required => if required then none else some []
  | setting _ _ => some []

/-- Writes the setting of a layer; any other layer changes nothing here. -/
def writeTo? (s : Setting) : Layer → Option Setting
  | text _ _ => some s
  | setting path value => (Setting.path? path).map fun steps => Setting.write (.text value) steps s

end Layer

/-- The configuration of some layers over the standard one. -/
def Config.load (layers : List Layer) : Except SetupError Config :=
  let config? := do
    let tables ← layers.mapM Layer.table?
    let merged := Setting.merge (Config.standard.toSetting :: tables.flatten)
    Config.ofSetting? (← layers.foldlM Layer.writeTo? merged)
  match config? with
  | some c => .ok c
  | none => .error .unreadable

end Stencil
