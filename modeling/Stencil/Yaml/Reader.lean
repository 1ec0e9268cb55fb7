import Stencil.Yaml.Scalar

/-!
# Reading YAML

The reader takes a part of YAML: one document of block and flow sequences, block and flow mappings,
and plain, single-quoted and double-quoted scalars, with comments and a document mark at the start.
Anchors, tags, block scalars and directives are refused. Columns decide what belongs to what: a node
stands further to the right than the node around it. Sequences and mappings nest at most 128 deep.
-/

namespace Stencil.Yaml

/-- The text still to be read and the column where it starts. -/
structure Reading where
  rest : List Char
  column : Nat := 0

/-- A reader either refuses or yields a value and moves on. -/
abbrev Reader := StateT Reading Option

/-- Whether a character is a blank inside a line. -/
def isInlineBlank (c : Char) : Bool :=
  c == ' ' || c == '\t'

/-- Whether a character ends a line. -/
def isLineEnd (c : Char) : Bool :=
  c == '\n' || c == '\r'

/-- Whether a text is at its end or goes on with a blank or a line end. -/
def startsBlank (cs : List Char) : Bool :=
  cs.head?.all fun c => isInlineBlank c || isLineEnd c

/-- Whether a character structures a flow collection. -/
def isFlowMark (c : Char) : Bool :=
  c == ',' || c == '[' || c == ']' || c == '{' || c == '}'

namespace Reader

/-- The next character, if any. -/
def peek : Reader (Option Char) := do
  return (← get).rest.head?

/-- Skips one character. -/
def skip : Reader Unit :=
  modify fun r =>
    match r.rest with
    | [] => r
    | c :: rest => ⟨rest, if isLineEnd c then 0 else r.column + 1⟩

/-- Skips one character that must be the given one. -/
def expect (c : Char) : Reader Unit := do
  if (← peek) == some c then skip else failure

/-- Goes on with `step` until it ends the loop, at most `fuel` times. -/
def iterateUpTo {α β : Type} (step : α → Reader (Sum α β)) : Nat → α → Reader β
  | 0, _ => failure
  | fuel + 1, a => do
    match ← step a with
    | .inl next => iterateUpTo step fuel next
    | .inr result => return result

/-- Goes on with `step` until it ends the loop; every round but the last uses up text. -/
def iterate {α β : Type} (step : α → Reader (Sum α β)) (a : α) : Reader β := do
  iterateUpTo step ((← get).rest.length + 2) a

/-- Takes the characters that satisfy `p` up to the first that does not; they all lie in one
line. -/
def takeWhile (p : Char → Bool) : Reader (List Char) := do
  let r ← get
  let taken := r.rest.takeWhile p
  set (⟨r.rest.drop taken.length, r.column + taken.length⟩ : Reading)
  return taken

/-- Skips the rest of a line, and its end if it has one. -/
def skipLine : Reader Unit := do
  let _ ← takeWhile (!isLineEnd ·)
  skip

/-- Skips blanks, line ends and comments. A comment starts a line or follows a blank. -/
def skipGap : Reader Unit := do
  let startOfLine := (← get).column == 0
  iterate (fun (afterBlank : Bool) => do
    match ← peek with
    | some '#' =>
      if afterBlank then
        skipLine
        return .inl true
      else return .inr ()
    | some c =>
      if isInlineBlank c || isLineEnd c then
        skip
        return .inl true
      else return .inr ()
    | none => return .inr ()) startOfLine

/-- Whether a mark that separates documents comes next. -/
def atMark : Reader Bool := do
  let r ← get
  let mark := String.ofList (r.rest.take 3)
  return r.column == 0 && (mark == "---" || mark == "...") && startsBlank (r.rest.drop 3)

/-- Whether nothing of the document is left. -/
def atEnd : Reader Bool := do
  return (← get).rest.isEmpty || (← atMark)

/-- Line ends inside a scalar: a single one becomes a blank, and of several all but the first stay.
The blanks around them are dropped. -/
def foldLines : Reader (List Char) := do
  let breaks ← iterate (fun (n : Nat) => do
    let _ ← takeWhile isInlineBlank
    match ← peek with
    | some '\r' =>
      skip
      if (← peek) == some '\n' then skip
      return .inl (n + 1)
    | some '\n' =>
      skip
      return .inl (n + 1)
    | _ => return .inr n) 0
  return if breaks ≤ 1 then [' '] else List.replicate (breaks - 1) '\n'

/-- The inside of a single-quoted scalar, up to and with its closing quote. -/
def singleQuoted : Reader String := do
  let text ← iterate (fun (text : List Char) => do
    match ← peek with
    | none => failure
    | some '\'' =>
      skip
      if (← peek) == some '\'' then
        skip
        return .inl ('\'' :: text)
      else return .inr text
    | some c =>
      if isLineEnd c then
        let folded ← foldLines
        return .inl (folded.reverse ++ text.dropWhile isInlineBlank)
      else
        skip
        return .inl (c :: text)) []
  return String.ofList text.reverse

/-- The character whose code point the next digits write. -/
def codePoint (width : Nat) : Reader Char := do
  let digits := (← get).rest.take width
  let _ ← digits.mapM fun _ => skip
  unless digits.length == width do failure
  liftM (Text.codePoint? digits)

/-- What follows a backslash in a double-quoted scalar. -/
def escape : Reader (List Char) := do
  match ← peek with
  | none => failure
  | some c =>
    if isLineEnd c then
      let folded ← foldLines
      return if folded == [' '] then [] else folded
    skip
    match c with
    | '0' => return ['\x00']
    | 'a' => return ['\x07']
    | 'b' => return ['\x08']
    | 't' => return ['\t']
    | '\t' => return ['\t']
    | 'n' => return ['\n']
    | 'v' => return ['\x0b']
    | 'f' => return ['\x0c']
    | 'r' => return ['\r']
    | 'e' => return ['\x1b']
    | ' ' => return [' ']
    | '"' => return ['"']
    | '/' => return ['/']
    | '\\' => return ['\\']
    | 'N' => return ['\u0085']
    | '_' => return ['\u00a0']
    | 'L' => return ['\u2028']
    | 'P' => return ['\u2029']
    | 'x' => return [← codePoint 2]
    | 'u' => return [← codePoint 4]
    | 'U' => return [← codePoint 8]
    | _ => failure

/-- The inside of a double-quoted scalar, up to and with its closing quote. -/
def doubleQuoted : Reader String := do
  let text ← iterate (fun (text : List Char) => do
    match ← peek with
    | none => failure
    | some '"' =>
      skip
      return .inr text
    | some '\\' =>
      skip
      return .inl ((← escape).reverse ++ text)
    | some c =>
      if isLineEnd c then
        let folded ← foldLines
        return .inl (folded.reverse ++ text.dropWhile isInlineBlank)
      else
        skip
        return .inl (c :: text)) []
  return String.ofList text.reverse

/-- Whether a plain scalar may start with the text. -/
def startsPlain (inFlow : Bool) : List Char → Bool
  | [] => false
  | c :: rest =>
    if c == '-' || c == '?' || c == ':' then
      !startsBlank rest && !(inFlow && rest.head?.any isFlowMark)
    else !(",[]\x7b\x7d#&*!|>'\"%@".toList.contains c || c.toNat == 0x60)

/-- The part of a plain scalar that lies in one line, without the blanks at its end. -/
def plainLine (inFlow : Bool) : List Char → List Char
  | [] => []
  | c :: rest =>
    let ends :=
      isLineEnd c ||
      (c == ':' && (startsBlank rest || (inFlow && rest.head?.any isFlowMark))) ||
      (inFlow && isFlowMark c) ||
      (isInlineBlank c && (rest.dropWhile isInlineBlank).head?.all
        fun d => isLineEnd d || d == '#') ||
      (isInlineBlank c && (match rest.dropWhile isInlineBlank with
        | ':' :: more => startsBlank more || (inFlow && more.head?.any isFlowMark)
        | d :: _ => inFlow && isFlowMark d
        | [] => true))
    if ends then [] else c :: plainLine inFlow rest

/-- Takes the part of a plain scalar in this line. -/
def takePlainLine (inFlow : Bool) : Reader (List Char) := do
  let r ← get
  let line := plainLine inFlow r.rest
  set (⟨r.rest.drop line.length, r.column + line.length⟩ : Reading)
  return line

/-- A plain scalar goes on in the next lines as far as they stand to the right of `margin`. -/
def plainMore (inFlow : Bool) (margin : Int) (first : List Char) : Reader String := do
  let text ← iterate (fun (text : List Char) => do
    let start ← get
    let _ ← takeWhile isInlineBlank
    unless (← peek).any isLineEnd do
      set start
      return .inr text
    let folded ← foldLines
    let next ← get
    let goesOn :=
      margin < next.column && next.rest.head?.any (· != '#') &&
      !(plainLine inFlow next.rest).isEmpty && !(← atMark)
    if goesOn then
      let line ← takePlainLine inFlow
      return .inl (text ++ folded ++ line)
    else
      set start
      return .inr text) first
  return String.ofList text

/-- A scalar as it is written: the text, and whether it stands in quotes. -/
structure Scalar where
  text : String
  quoted : Bool

/-- The value of a scalar. -/
def Scalar.value (s : Scalar) : Json :=
  if s.quoted then .string s.text else plainValue s.text

/-- A scalar; a plain one only as far as this line goes. -/
def scalarLine (inFlow : Bool) : Reader Scalar := do
  match ← peek with
  | some '\'' =>
    skip
    return ⟨← singleQuoted, true⟩
  | some '"' =>
    skip
    return ⟨← doubleQuoted, true⟩
  | _ =>
    if startsPlain inFlow (← get).rest then
      return ⟨String.ofList (← takePlainLine inFlow), false⟩
    else failure

/-- Whether a colon comes next that ends the key of a mapping. -/
def atColon (inFlow : Bool) (quoted : Bool) : Reader Bool := do
  match (← get).rest.dropWhile isInlineBlank with
  | ':' :: rest =>
    return startsBlank rest || (inFlow && (quoted || rest.head?.any isFlowMark))
  | _ => return false

/-- Skips the colon behind a key. -/
def skipColon : Reader Unit := do
  let _ ← takeWhile isInlineBlank
  expect ':'

/-- What may follow an item of a flow collection: a comma, or the bracket that closes it. -/
def flowNext (close : Char) : Reader Bool := do
  skipGap
  match ← peek with
  | some ',' =>
    skip
    return true
  | some c => if c == close then return false else failure
  | none => failure

/-- The items of a flow collection, up to and with its closing bracket. -/
def flowItems {α : Type} (item : Reader α) (close : Char) : Reader (List α) := do
  let items ← iterate (fun (items : List α) => do
    skipGap
    if (← peek) == some close then
      skip
      return .inr items
    let x ← item
    if ← flowNext close then return .inl (x :: items)
    skip
    return .inr (x :: items)) []
  return items.reverse

/-- The value behind the key of a flow mapping, null if there is none. -/
def flowValue (node : Reader Json) : Reader Json := do
  skipGap
  match ← peek with
  | some c => if c == ',' || c == '}' || c == ']' then return .null else node
  | none => failure

/-- A member of a flow mapping. -/
def flowMember (node : Reader Json) : Reader (String × Json) := do
  let key ← scalarLine true
  skipGap
  if ← atColon true key.quoted then
    skipColon
    return (key.text, ← flowValue node)
  return (key.text, .null)

/-- An element of a flow sequence; a key with its value is a mapping of one member. -/
def flowElement (node : Reader Json) : Reader Json := do
  match ← peek with
  | some '[' => node
  | some '{' => node
  | _ =>
    let s ← scalarLine true
    if ← atColon true s.quoted then
      skipColon
      return .ofMembers [(s.text, ← flowValue node)]
    if s.quoted then return s.value
    return plainValue (← plainMore true (-1) s.text.toList)

/-- A node inside a flow collection. -/
def flowNode : Nat → Reader Json
  | 0 => do
    flowElement failure
  | depth + 1 => do
    match ← peek with
    | some '[' =>
      skip
      return .array (← flowItems (flowElement (flowNode depth)) ']')
    | some '{' =>
      skip
      return .ofMembers (← flowItems (flowMember (flowNode depth)) '}')
    | _ => flowElement failure

/-- Whether a dash comes next that starts an item of a block sequence. -/
def atDash : Reader Bool := do
  match (← get).rest with
  | '-' :: rest => return startsBlank rest && !(← atMark)
  | _ => return false

/-- A block sequence whose dashes stand in the given column. -/
def blockSequence (node : Int → Bool → Reader Json) (column : Nat) : Reader Json := do
  let items ← iterate (fun (items : List Json) => do
    skip
    let item ← node column false
    skipGap
    if (← get).column == column && !(← atEnd) && (← atDash) then return .inl (item :: items)
    return .inr (item :: items)) []
  return .array items.reverse

/-- A block mapping whose keys stand in the given column, after its first key. -/
def blockMapping (node : Int → Bool → Reader Json) (column : Nat) (first : String) :
    Reader Json := do
  let members ← iterate (fun ((key, members) : String × List (String × Json)) => do
    skipColon
    let value ← node column true
    skipGap
    let members := (key, value) :: members
    if (← get).column == column && !(← atEnd) then
      let key ← scalarLine false
      unless ← atColon false key.quoted do failure
      return .inl (key.text, members)
    return .inr members) (first, [])
  return .ofMembers members.reverse

/-- A node to the right of the column `margin`; a block sequence that is the value of a mapping may
stand in that column itself. Nothing there means null. -/
def blockNode : Nat → Int → Bool → Reader Json
  | depth, margin, isValue => do
    skipGap
    let column := (← get).column
    if ← atEnd then return .null
    if ← atDash then
      if margin < column || (isValue && margin == column) then
        match depth with
        | 0 => failure
        | depth + 1 => return ← blockSequence (blockNode depth) column
    if (column : Int) ≤ margin then return .null
    match ← peek with
    | some '[' => flowNode depth
    | some '{' => flowNode depth
    | _ =>
      let s ← scalarLine false
      if ← atColon false s.quoted then
        match depth with
        | 0 => failure
        | depth + 1 => return ← blockMapping (blockNode depth) column s.text
      if s.quoted then return s.value
      return plainValue (← plainMore false margin s.text.toList)

/-- A document: a mark at its start if there is one, a node, and nothing else. -/
def document (depth : Nat) : Reader Json := do
  skipGap
  if ← atMark then
    let mark := (← get).rest.take 3
    unless mark == ['-', '-', '-'] do failure
    skip
    skip
    skip
  let value ← blockNode depth (-1) false
  skipGap
  unless (← get).rest.isEmpty do
    unless (← atMark) && (← get).rest.take 3 == ['.', '.', '.'] do failure
    skip
    skip
    skip
    skipGap
    unless (← get).rest.isEmpty do failure
  return value

end Reader

/-- How deep sequences and mappings may nest. -/
def depthLimit : Nat := 128

/-- The value that a YAML text writes. -/
def read? (text : String) : Option Json :=
  ((Reader.document depthLimit).run { rest := text.toList }).map (·.1)

end Stencil.Yaml
