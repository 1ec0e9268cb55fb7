import Stencil.Config.Setting
import Stencil.Text.Escape

/-!
# Reading TOML

The reader takes a part of TOML: entries `name = value`, tables `[name]`, lists of tables
`[[name]]`, and comments. Names are bare. A value is a string between double or single quotes in one
line, a whole number, a truth value or a list of values. A name stands once in its table, and a
table is opened once.
-/

namespace Stencil.Toml

/-- Whether a character is a blank inside a line. -/
def isBlank (c : Char) : Bool :=
  c == ' ' || c == '\t'

/-- Drops leading blanks. -/
def skipBlanks (cs : List Char) : List Char :=
  cs.dropWhile isBlank

/-- Whether a character may stand in a comment. -/
def isCommentChar (c : Char) : Bool :=
  c == '\t' || 32 ≤ c.toNat

/-- Whether a character may stand in a string as it is. -/
def isPlainChar (c : Char) : Bool :=
  isCommentChar c && c.toNat != 127

/-- Whether a character may stand in a bare name. -/
def isNameChar (c : Char) : Bool :=
  c.isAlphanum || c == '_' || c == '-'

/-- Drops a comment, if one comes next. -/
def skipComment : List Char → List Char
  | '#' :: rest => rest.dropWhile isCommentChar
  | cs => cs

/-- What follows the end of a line, which may be the end of the text. -/
def lineEnd? : List Char → Option (List Char)
  | [] => some []
  | '\n' :: rest => some rest
  | '\r' :: '\n' :: rest => some rest
  | _ => none

/-- What follows a line of which nothing is left but blanks and a comment. -/
def restOfLine? (cs : List Char) : Option (List Char) :=
  lineEnd? (skipComment (skipBlanks cs))

/-- The character that an escape of one letter stands for. -/
def shortEscape? : Char → Option Char
  | 'b' => some '\x08'
  | 't' => some '\t'
  | 'n' => some '\n'
  | 'f' => some '\x0c'
  | 'r' => some '\r'
  | '"' => some '"'
  | '\\' => some '\\'
  | _ => none

/-- The inside of a string between double quotes up to the closing one, and what follows it. -/
def escaped? : List Char → Option (List Char × List Char)
  | [] => none
  | '"' :: rest => some ([], rest)
  | '\\' :: 'u' :: a :: b :: c :: d :: rest =>
    Text.withChar (Text.codePoint? [a, b, c, d]) (escaped? rest)
  | '\\' :: 'U' :: a :: b :: c :: d :: e :: f :: g :: h :: rest =>
    Text.withChar (Text.codePoint? [a, b, c, d, e, f, g, h]) (escaped? rest)
  | '\\' :: c :: rest => Text.withChar (shortEscape? c) (escaped? rest)
  | c :: rest =>
    if isPlainChar c && c != '\\' then Text.withChar (some c) (escaped? rest) else none

/-- The inside of a string between single quotes up to the closing one, and what follows it. -/
def verbatim? (cs : List Char) : Option (List Char × List Char) :=
  match cs.dropWhile fun c => isPlainChar c && c != '\'' with
  | '\'' :: rest => some (cs.takeWhile fun c => isPlainChar c && c != '\'', rest)
  | _ => none

/-- Whether underscores stand only between digits. -/
def isGrouped : List Char → Bool
  | [] => false
  | ['_'] => false
  | '_' :: '_' :: _ => false
  | [_] => true
  | _ :: rest => isGrouped rest

/-- The number that digits of a base write, with underscores between them. -/
def grouped? (base : Nat) (cs : List Char) : Option Nat :=
  if isGrouped cs && cs.head? != some '_' then Text.naturalIn? base (cs.filter (· != '_'))
  else none

/-- A whole number: decimal under an optional sign and without leading zeros, or in another base
after its mark. -/
def integer? (cs : List Char) : Option Int :=
  match cs with
  | '0' :: 'x' :: ds => (grouped? 16 ds).map Int.ofNat
  | '0' :: 'o' :: ds => (grouped? 8 ds).map Int.ofNat
  | '0' :: 'b' :: ds => (grouped? 2 ds).map Int.ofNat
  | cs =>
    let (negative, ds) := Text.splitSign cs
    if ds.head? = some '0' && ds != ['0'] then none
    else (grouped? 10 ds).map (Text.withSign negative)

/-- A value that is written as a bare word: a truth value or a number of 64 bits. -/
def word? (cs : List Char) : Option Setting :=
  if cs = "true".toList then some (.flag true)
  else if cs = "false".toList then some (.flag false)
  else ((integer? cs).filter Text.fitsInt64).map .int

/-- Whether a character belongs to a bare word. -/
def isWordChar (c : Char) : Bool :=
  isNameChar c || c == '+' || c == '.'

/-- Drops blanks, line ends and comments, which may stand between the items of a list. -/
def skipLines : Nat → List Char → List Char
  | 0, cs => cs
  | fuel + 1, cs =>
    match restOfLine? cs with
    | some [] => []
    | some rest => skipLines fuel rest
    | none => skipBlanks cs

/-- Drops all that may stand between the items of a list. -/
def skipGap (cs : List Char) : List Char :=
  skipLines cs.length cs

/-- The items of a list up to its closing bracket, and what follows it. Every round takes an
item. -/
def items? (value? : List Char → Option (Setting × List Char)) :
    Nat → List Char → Option (List Setting × List Char)
  | 0, _ => none
  | fuel + 1, cs =>
    match skipGap cs with
    | ']' :: rest => some ([], rest)
    | cs => do
      let (x, rest) ← value? cs
      match skipGap rest with
      | ',' :: rest =>
        let (xs, rest) ← items? value? fuel rest
        return (x :: xs, rest)
      | ']' :: rest => return ([x], rest)
      | _ => none

/-- The value at the front of a text, and what follows it. Lists may still nest `depth` deep. -/
def value? : Nat → List Char → Option (Setting × List Char)
  | depth, cs =>
    match cs with
    | '"' :: rest => (escaped? rest).map fun (s, rest) => (.text (String.ofList s), rest)
    | '\'' :: rest => (verbatim? rest).map fun (s, rest) => (.text (String.ofList s), rest)
    | '[' :: rest =>
      match depth with
      | 0 => none
      | depth + 1 =>
        (items? (value? depth) (rest.length + 1) rest).map fun (xs, rest) => (.list xs, rest)
    | cs => (word? (cs.takeWhile isWordChar)).map fun v => (v, cs.dropWhile isWordChar)

/-- A bare name at the front of a text, without the blanks around it, and what follows it. -/
def name? (cs : List Char) : Option (String × List Char) :=
  let cs := skipBlanks cs
  let name := cs.takeWhile isNameChar
  if name.isEmpty then none
  else some (String.ofList name, skipBlanks (cs.dropWhile isNameChar))

/-- What opens a section. -/
inductive Head where
  /-- The section is a table. -/
  | table (name : String)
  /-- The section is a table in a list of tables. -/
  | element (name : String)
  deriving Repr, DecidableEq

/-- A line of a document. -/
inductive Line where
  | blank
  | entry (name : String) (value : Setting)
  | head (h : Head)

/-- How deep lists may nest. -/
def depthLimit : Nat := 80

/-- What a line says, and what follows it on the line. -/
def statement? (cs : List Char) : Option (Line × List Char) :=
  match skipBlanks cs with
  | '[' :: '[' :: rest =>
    match name? rest with
    | some (name, ']' :: ']' :: rest) => some (.head (.element name), rest)
    | _ => none
  | '[' :: rest =>
    match name? rest with
    | some (name, ']' :: rest) => some (.head (.table name), rest)
    | _ => none
  | cs =>
    match name? cs with
    | some (name, '=' :: rest) =>
      (value? depthLimit (skipBlanks rest)).map fun (v, rest) => (.entry name v, rest)
    | _ => none

/-- The line at the front of a text, and the lines after it. -/
def line? (cs : List Char) : Option (Line × List Char) :=
  match restOfLine? cs with
  | some rest => some (.blank, rest)
  | none => do
    let (line, rest) ← statement? cs
    return (line, ← restOfLine? rest)

/-- The lines of a text, at most `fuel` of them. -/
def lines? : Nat → List Char → Option (List Line)
  | _, [] => some []
  | 0, _ => none
  | fuel + 1, cs => do
    let (line, rest) ← line? cs
    return line :: (← lines? fuel rest)

/-- The entries under one head. -/
structure Section where
  head : Head
  entries : List (String × Setting)

/-- The entries before the first head, and the sections after them. -/
def sections : List Line → List (String × Setting) × List Section
  | [] => ([], [])
  | line :: lines =>
    let (entries, rest) := sections lines
    match line with
    | .blank => (entries, rest)
    | .entry name value => ((name, value) :: entries, rest)
    | .head h => ([], ⟨h, entries⟩ :: rest)

/-- A table of some entries, if no name stands twice. -/
def table? (entries : List (String × Setting)) : Option Setting :=
  if (entries.map (·.1)).Nodup then some (.table entries) else none

/-- Adds a section to what stands before it. Only a list of tables may be opened again, not a list
that is the value of one of the `fixed` names. -/
def addSection (fixed : List String) (root : List (String × Setting)) (s : Section) :
    Option (List (String × Setting)) := do
  let body ← table? s.entries
  match s.head with
  | .element name =>
    match root.lookup name with
    | none => return root ++ [(name, .list [body])]
    | some (.list xs) =>
      if fixed.contains name then none
      else return Setting.putEntry name (.list (xs ++ [body])) root
    | some _ => none
  | .table name => if (root.lookup name).isSome then none else return root ++ [(name, body)]

/-- Drops a byte order mark at the front. -/
def dropMark : List Char → List Char
  | '\ufeff' :: cs => cs
  | cs => cs

/-- The table that a text describes. -/
def read? (text : String) : Option Setting := do
  let cs := dropMark text.toList
  let (top, rest) := sections (← lines? (cs.length + 1) cs)
  let _ ← table? top
  let root ← rest.foldlM (addSection (top.map (·.1))) top
  return .table root

end Stencil.Toml
