import Stencil.Token.Basic

/-!
# Arguments

What a user may write on the command line: a command, switches and a path. Some switches take a
value, which follows as the next argument, behind an equals sign, or behind the letter of a short
switch. Two dashes end the switches. The configuration may be named before or after the command.
-/

namespace Stencil.Command

/-- A switch. -/
inductive Switch where
  | config
  | context
  | envelope
  | format
  | ast
  | help
  | version
  deriving Repr, DecidableEq

namespace Switch

/-- All switches. -/
def all : List Switch :=
  [config, context, envelope, format, ast, help, version]

/-- The name behind two dashes. -/
def name : Switch → String
  | config => "config"
  | context => "context"
  | envelope => "envelope"
  | format => "format"
  | ast => "ast"
  | help => "help"
  | version => "version"

/-- The letter behind one dash, if the switch has one. -/
def letter? : Switch → Option Char
  | config => some 'c'
  | format => some 'f'
  | help => some 'h'
  | version => some 'V'
  | _ => none

/-- Whether a value belongs to the switch. -/
def takesValue : Switch → Bool
  | config | context | format => true
  | envelope | ast | help | version => false

end Switch

/-- The name of a command. -/
inductive Verb where
  | tokens
  | parse
  | deparse
  | fingerprint
  | formats
  | help
  deriving Repr, DecidableEq

namespace Verb

/-- All commands. -/
def all : List Verb :=
  [tokens, parse, deparse, fingerprint, formats, help]

/-- The name of a command. -/
def name : Verb → String
  | tokens => "tokens"
  | parse => "parse"
  | deparse => "deparse"
  | fingerprint => "fingerprint"
  | formats => "formats"
  | help => "help"

/-- The command of a name. -/
def ofName? (name : String) : Option Verb :=
  all.find? (·.name == name)

/-- How many operands a command takes at most. -/
def operandLimit : Verb → Nat
  | formats => 0
  | _ => 1

/-- The switches that may follow a command, or stand before any. -/
def switches : Option Verb → List Switch
  | none => [.config, .help, .version]
  | some tokens => [.config, .context, .help]
  | some parse => [.config, .envelope, .format, .help]
  | some deparse | some fingerprint => [.config, .ast, .help]
  | some formats => [.config, .help]
  | some help => []

end Verb

/-- Why no command is run. -/
inductive Stop where
  /-- The arguments make no sense. -/
  | usage
  | help
  | version
  deriving Repr, DecidableEq

/-- What has been read of the arguments. -/
structure Reading where
  verb : Option Verb := none
  /-- The configuration that was named before the command. -/
  outerConfig : Option String := none
  /-- The switches since then, each with its value. -/
  given : List (Switch × String) := []
  operands : List String := []
  /-- The switch whose value comes next. -/
  waiting : Option Switch := none
  /-- Whether no more switches follow. -/
  plain : Bool := false
  deriving Repr, DecidableEq

namespace Reading

/-- Takes a switch with its value, which must not have been given before. -/
def give (r : Reading) (s : Switch) (value : String) : Except Stop Reading :=
  match s with
  | .help => .error .help
  | .version => .error .version
  | _ =>
    if (r.given.lookup s).isSome then .error .usage
    else .ok { r with given := r.given ++ [(s, value)], waiting := none }

/-- Takes a switch that has no value yet. -/
def meet (r : Reading) (s : Switch) : Except Stop Reading :=
  if s.takesValue then .ok { r with waiting := some s } else r.give s ""

/-- Takes what stands behind two dashes: a name, and perhaps a value behind an equals sign. -/
def readName (r : Reading) (cs : List Char) : Except Stop Reading := do
  let name := String.ofList (cs.takeWhile (· != '='))
  match (Verb.switches r.verb).find? (·.name == name) with
  | none => throw .usage
  | some s =>
    match cs.dropWhile (· != '=') with
    | [] => r.meet s
    | _ :: value => if s.takesValue then r.give s (String.ofList value) else throw .usage

/-- Takes what stands behind one dash: letters, of which the first that takes a value takes the rest
for it. -/
def readLetters (r : Reading) : List Char → Except Stop Reading
  | [] => .ok r
  | c :: rest =>
    match (Verb.switches r.verb).find? (·.letter? == some c) with
    | none => .error .usage
    | some s =>
      if s.takesValue then
        match rest with
        | [] => r.meet s
        | '=' :: value => r.give s (String.ofList value)
        | value => r.give s (String.ofList value)
      else do
        (← r.give s "").readLetters rest

/-- Takes an argument that is no switch: the command first, its operands after it. -/
def readOperand (r : Reading) (text : String) : Except Stop Reading :=
  match r.verb with
  | some v =>
    if r.operands.length < v.operandLimit then .ok { r with operands := r.operands ++ [text] }
    else .error .usage
  | none =>
    match Verb.ofName? text with
    | some v =>
      if r.plain then .error .usage
      else .ok { verb := some v, outerConfig := r.given.lookup .config }
    | none => .error .usage

/-- Takes the next argument. A value that begins with a dash counts only behind an equals sign or
the letter of its switch. -/
def read (r : Reading) (text : String) : Except Stop Reading :=
  if r.plain then r.readOperand text
  else
    match r.waiting, text.toList with
    | some _, '-' :: _ :: _ => .error .usage
    | some s, _ => r.give s text
    | none, ['-', '-'] => .ok { r with plain := true }
    | none, '-' :: '-' :: name => r.readName name
    | none, '-' :: c :: letters => r.readLetters (c :: letters)
    | none, _ => r.readOperand text

/-- The value of a switch. -/
def value? (r : Reading) (s : Switch) : Option String :=
  r.given.lookup s

/-- Whether a switch has been given. -/
def has (r : Reading) (s : Switch) : Bool :=
  (r.value? s).isSome

end Reading

/-- What a command is to do. -/
inductive Action where
  /-- List the tokens of a source. -/
  | tokens (path : String) (context : Option Context)
  /-- Write the tree of a source in a format. -/
  | parse (path format : String) (envelope : Bool)
  /-- Write a tree as pseudo-source; `isTree` says that the file holds a tree. -/
  | deparse (path : String) (isTree : Bool)
  /-- Print the fingerprint of a tree. -/
  | fingerprint (path : String) (isTree : Bool)
  /-- List the formats. -/
  | formats
  deriving Repr, DecidableEq

/-- An action, and the file of the configuration it is to have. -/
structure Request where
  config : Option String
  action : Action
  deriving Repr, DecidableEq

/-- The format where none is named. -/
def standardFormat : String := "ast-json"

/-- The only operand. -/
def onlyPath : List String → Except Stop String
  | [path] => .ok path
  | _ => .error .usage

/-- The context that a switch names, if it is given. -/
def contextOf : Option String → Except Stop (Option Context)
  | none => .ok none
  | some name =>
    match Context.ofName? name with
    | some c => .ok (some c)
    | none => .error .usage

/-- The action that the arguments ask for. -/
def Reading.action (r : Reading) : Except Stop Action := do
  match r.verb with
  | none => throw .usage
  | some .tokens =>
    return .tokens (← onlyPath r.operands) (← contextOf (r.value? .context))
  | some .parse =>
    let format := (r.value? .format).getD standardFormat
    return .parse (← onlyPath r.operands) format (r.has .envelope)
  | some .deparse => return .deparse (← onlyPath r.operands) (r.has .ast)
  | some .fingerprint => return .fingerprint (← onlyPath r.operands) (r.has .ast)
  | some .formats => return .formats
  | some .help =>
    let known := r.operands.all fun name => (Verb.ofName? name).isSome
    throw (if known then .help else .usage)

/-- The request that arguments make. -/
def Request.ofArguments (arguments : List String) : Except Stop Request := do
  let r ← arguments.foldlM Reading.read {}
  if r.waiting.isSome then throw .usage
  return { config := (r.value? .config).or r.outerConfig, action := ← r.action }

end Stencil.Command
