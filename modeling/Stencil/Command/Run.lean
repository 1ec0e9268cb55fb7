import Stencil.Command.Arguments
import Stencil.Config.Basic
import Stencil.Output.Fingerprint
import Stencil.Output.Registry
import Stencil.Output.TokenList
import Stencil.Tree.Document

/-!
# Commands

What each command prints. The only thing a command does besides is to read files, so it runs in any
monad that can do that. A command that fails prints nothing but an error.
-/

namespace Stencil.Command

/-- What a file holds. -/
inductive Content where
  | text (s : String)
  /-- There is no such file. -/
  | missing
  /-- The bytes of the file are no text. -/
  | notText
  /-- The file cannot be read, for a reason that the system gives. -/
  | unreadable (reason : String)
  deriving Repr, DecidableEq

namespace Content

/-- The text of a file, or why there is none. -/
def text? : Content → Except String String
  | text s => .ok s
  | missing => .error "No such file or directory (os error 2)"
  | notText => .error "stream did not contain valid UTF-8"
  | unreadable reason => .error reason

end Content

/-- What a run leaves behind: the exit code and both outputs. -/
structure Outcome where
  code : UInt8
  output : String := ""
  errors : String := ""
  deriving Repr, DecidableEq

/-- The line that `--version` prints. -/
def versionLine : String := "histone 0.1.0\n"

/-- The text that `--help` prints. -/
def helpText : String :=
  "Usage: histone [--config FILE] COMMAND\n\n" ++
  "Commands:\n" ++
  "  tokens PATH [--context CONTEXT]\n" ++
  "  parse PATH [--envelope] [--format FORMAT]\n" ++
  "  deparse PATH [--ast]\n" ++
  "  fingerprint PATH [--ast]\n" ++
  "  formats\n"

/-- A run that only prints. -/
def Outcome.ofOutput (output : String) : Outcome :=
  { code := 0, output }

/-- A run that fails: the line that says why, and more lines. -/
def Outcome.ofError (message : String) (more : String := "") : Outcome :=
  { code := 1, errors := "Error: " ++ message ++ "\n" ++ more }

/-- What is done where no command is run. -/
def Outcome.ofStop : Stop → Outcome
  | .usage => { code := 2 }
  | .help => ofOutput helpText
  | .version => ofOutput versionLine

/-- A step of a run; it may end the run with an outcome. -/
abbrev Run (m : Type → Type) := ExceptT Outcome m

section

variable {m : Type → Type} [Monad m]

/-- Ends the run with an error. -/
def fail {α : Type} (message : String) : Run m α :=
  throw (Outcome.ofError message)

/-- Goes on with a result, or ends the run with the text of the error. -/
def orFail {ε α : Type} (message : ε → String) : Except ε α → Run m α
  | .ok a => return a
  | .error e => fail (message e)

/-- The text of a file. -/
def readText (readFile : String → m Content) (path : String) : Run m String := do
  orFail (fun reason => "reading " ++ path ++ ": " ++ reason) (← readFile path).text?

/-- What a configuration file holds. Its name may lack the ending `.toml`. -/
def readConfig (readFile : String → m Content) (path : String) : m Content := do
  match ← readFile path with
  | .missing => if path.isEmpty then return .missing else readFile (path ++ ".toml")
  | content => return content

/-- The configuration of a run. -/
def loadConfig (readFile : String → m Content) : Option String → Run m Config
  | none => orFail SetupError.message (Config.load [])
  | some path => do
    let content ← (readConfig readFile path : m Content)
    orFail SetupError.message (Config.load [.text content.text?.toOption true])

/-- The compiled token table of a configuration. -/
def lexiconOf (config : Config) : Run m Lexicon :=
  orFail SetupError.message config.lexicon

/-- The template of a source. A syntax error shows the lines around it. -/
def parseSource (config : Config) (source : String) : Run m Template := do
  let lexicon ← lexiconOf config
  match lexicon.parseFrom source config.startContext with
  | .ok items => return { items }
  | .error (.grammar e) =>
    throw (Outcome.ofError e.message (Text.excerpt source.toList e.line))
  | .error e => fail e.message

/-- The value of a tree, from a file that holds the tree or its source. -/
def treeOf (readFile : String → m Content) (config : Config) (path : String) (isTree : Bool) :
    Run m Json := do
  let text ← readText readFile path
  if isTree then orFail DecodeError.message ((Notation.ofPath path).read text)
  else return (← parseSource config text).toJson

/-- The text with a line end if it has none at its end. -/
def endLine (text : String) : String :=
  if text.endsWith "\n" then text else text ++ "\n"

/-- What an action prints. -/
def perform (readFile : String → m Content) (config : Config) : Action → Run m String
  | .tokens path context => do
    let source ← readText readFile path
    let lexicon ← lexiconOf config
    let start := context.getD config.startContext
    let tokens ← orFail SetupError.message (lexicon.tokens source start)
    return tokenList tokens ++ "\n"
  | .parse path format envelope => do
    let source ← readText readFile path
    let template ← parseSource config source
    let signature := if envelope then some (.ofMembers [("source", .string path)]) else none
    let text ← orFail FormatError.message
      (Registry.standard.serialize { template with signature } format)
    return endLine text
  | .deparse path isTree => do
    let tree ← treeOf readFile config path isTree
    let template ← orFail DecodeError.message (Template.ofJson tree)
    return pseudoSource config.indent template.items
  | .fingerprint path isTree => do
    let tree ← treeOf readFile config path isTree
    let _ ← orFail DecodeError.message (Template.ofJson tree)
    return (Fingerprint.ofJson tree).text ++ "\n"
  | .formats => return Registry.standard.listing

/-- Runs the command that the arguments name. The configuration is loaded first. -/
def run (readFile : String → m Content) (arguments : List String) : m Outcome := do
  match Request.ofArguments arguments with
  | .error stop => return Outcome.ofStop stop
  | .ok request =>
    let result ← ExceptT.run do
      let config ← loadConfig readFile request.config
      perform readFile config request.action
    match result with
    | .ok output => return Outcome.ofOutput output
    | .error outcome => return outcome

end

end Stencil.Command
