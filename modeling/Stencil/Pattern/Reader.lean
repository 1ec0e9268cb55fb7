import Stencil.Pattern.Basic
import Stencil.Text.Numeral

/-!
# Reading patterns

The written form of patterns: literals, escapes, `.`, `^`, `$`, bracketed classes, groups,
alternation and repetition. Groups are numbered from one by their opening brackets; a pattern that
is repeated zero times is left out, and its groups with it.

`Pattern.read?` answers `none` for text that is no pattern: brackets that do not pair, a repetition
with nothing to repeat or with its bounds the wrong way round, an unknown escape, a reversed range,
a group name given twice, look-around and back-references. It also answers `none` for the syntax
that is not read here, the classes of the form `\p{..}` that name a property of characters.

Groups nest, and classes nest in classes. Both readers take the depth that they may still use; the
length of the text is always enough of it.
-/

namespace Stencil.Pattern

open Stencil.Text (isBlank isDigit isWord)

/-- Switches that a pattern sets for the text after them, up to the end of the group. -/
structure Flags where
  /-- `i`: letters match up to case. -/
  insensitive : Bool := false
  /-- `s`: the point matches a line feed too. -/
  dotAll : Bool := false
  /-- `m`: `^` and `$` also match at line ends. -/
  multiLine : Bool := false
  /-- `U`: repetitions are lazy, and greedy with a question mark. -/
  swapGreed : Bool := false
  /-- `x`: blanks and comments are skipped. -/
  verbose : Bool := false
  /-- `R`: a carriage return ends a line too. -/
  crlf : Bool := false
  /-- `u`: classes and word edges know all characters, and not those of ASCII only. -/
  unicode : Bool := true
  deriving Repr, DecidableEq

/-- The text still to be read, the switches in force, the group names used so far and the number of
groups opened. -/
structure Reading where
  rest : List Char
  flags : Flags := {}
  names : List String := []
  groups : Nat := 0

/-- A reader either refuses or yields a value and moves on. -/
abbrev Reader := StateT Reading Option

namespace Reader

/-- The next character, if any. -/
def peek : Reader (Option Char) := do
  return (← get).rest.head?

/-- Skips `n` characters. -/
def skip (n : Nat) : Reader Unit :=
  modify fun r => { r with rest := r.rest.drop n }

/-- Takes one character and refuses at the end. -/
def char : Reader Char := do
  match (← get).rest with
  | [] => failure
  | c :: rest =>
    modify fun r => { r with rest }
    return c

/-- Takes the given text if it comes next. -/
def accept (text : List Char) : Reader Bool := do
  if text.isPrefixOf (← get).rest then
    skip text.length
    return true
  else
    return false

/-- Takes the characters that satisfy `p` up to the first that does not. -/
def takeWhile (p : Char → Bool) : Reader (List Char) := do
  let taken := (← get).rest.takeWhile p
  skip taken.length
  return taken

/-- Goes on with `step` until it ends the loop; every round but the last uses up text. -/
def iterate {α β : Type} (step : α → Reader (Sum α β)) : Nat → α → Reader β
  | 0, _ => failure
  | fuel + 1, a => do
    match ← step a with
    | .inl next => iterate step fuel next
    | .inr result => return result

/-- The loop of `iterate` with as many rounds as there is text. -/
def loop {α β : Type} (step : α → Reader (Sum α β)) (a : α) : Reader β := do
  iterate step ((← get).rest.length + 2) a

/-- What is left of a verbose pattern after its leading blanks and comments. -/
def afterBlanks : (inComment : Bool) → List Char → List Char
  | _, [] => []
  | true, c :: rest => afterBlanks (c != '\n') rest
  | false, c :: rest =>
    if isBlank c then afterBlanks false rest
    else if c == '#' then afterBlanks true rest
    else c :: rest

/-- Skips blanks and comments where the `x` switch is on. -/
def skipBlanks : Reader Unit :=
  modify fun r => if r.flags.verbose then { r with rest := afterBlanks false r.rest } else r

/-- The number written by the digits, `none` if there are none or too many. -/
def count? (digits : List Char) : Option Nat :=
  (Text.natural? digits).filter (· < UInt32.size)

/-- A repetition count, blanks around it allowed. -/
def count : Reader Nat := do
  let _ ← takeWhile isBlank
  let digits ← takeWhile Char.isDigit
  let _ ← takeWhile isBlank
  match count? digits with
  | some n => return n
  | none => failure

/-- A code point after `\x`, `\u` or `\U`: a fixed number of digits, or any number in braces. -/
def hexEscape (width : Nat) : Reader Char := do
  if ← accept ['{'] then
    let digits ← takeWhile fun c => (Text.digitIn? 16 c).isSome
    unless ← accept ['}'] do failure
    liftM (Text.codePoint? digits)
  else
    let digits := (← get).rest.take width
    unless digits.length == width do failure
    skip width
    liftM (Text.codePoint? digits)

/-- What one escape or plain character stands for. -/
inductive Atom where
  | literal (c : Char)
  | set (s : CharSet)
  | edge (e : Edge)

/-- ASCII characters that a backslash makes literal: all but letters, digits and the marks of
word starts and ends. -/
def isEscapable (c : Char) : Bool :=
  c.toNat < 128 && !c.isAlphanum && c != '<' && c != '>'

/-- The name of a word edge, up to the closing brace. -/
def edgeName : Reader (List Char) :=
  loop (fun (taken : List Char) => do
    skipBlanks
    match ← peek with
    | some c =>
      if c.isAlpha || c == '-' then
        skip 1
        return .inl (c :: taken)
      else return .inr taken.reverse
    | none => return .inr taken.reverse) []

/-- The rest of a word edge: `\b`, or one of its braced forms. Braces that hold no name are left
unread. -/
def wordEdge : Reader WordEdge := do
  let start ← get
  unless ← accept ['{'] do return .either
  let name ← edgeName
  if name.isEmpty then
    set start
    return .either
  unless ← accept ['}'] do failure
  match String.ofList name with
  | "start" => return .start
  | "end" => return .stop
  | "start-half" => return .startHalf
  | "end-half" => return .stopHalf
  | _ => failure

/-- A word edge under the switches in force. -/
def edge (e : WordEdge) : Reader Atom := do
  return .edge (.word (!(← get).flags.unicode) e)

/-- The complement of a set. That of a set of ASCII characters would hold parts of characters. -/
def complement (s : CharSet) : Reader CharSet := do
  if (← get).flags.unicode then return .compl s else failure

/-- A named class or its complement: `all` its characters, `ascii` those of them in ASCII. -/
def namedClass (all ascii : CharSet) (negated : Bool) : Reader Atom := do
  let s := if (← get).flags.unicode then all else ascii
  if negated then return .set (← complement s) else return .set s

/-- A code point after `\x`. Two digits name a byte, which has to be a character where the switch
`u` is off. -/
def byteEscape : Reader Char := do
  let braced := (← peek) == some '{'
  let c ← hexEscape 2
  if !(← get).flags.unicode && !braced && 128 ≤ c.toNat then failure
  return c

/-- What follows a backslash. -/
def escape : Reader Atom := do
  let c ← char
  match c with
  | 'd' => namedClass .digit .asciiDigit false
  | 'D' => namedClass .digit .asciiDigit true
  | 's' => namedClass .blank .asciiBlank false
  | 'S' => namedClass .blank .asciiBlank true
  | 'w' => namedClass .word .asciiWord false
  | 'W' => namedClass .word .asciiWord true
  | 'a' => return .literal '\x07'
  | 'f' => return .literal '\x0c'
  | 't' => return .literal '\t'
  | 'n' => return .literal '\n'
  | 'r' => return .literal '\r'
  | 'v' => return .literal '\x0b'
  | 'x' => return .literal (← byteEscape)
  | 'u' => return .literal (← hexEscape 4)
  | 'U' => return .literal (← hexEscape 8)
  | 'A' => return .edge .textStart
  | 'z' => return .edge .textEnd
  | 'b' => edge (← wordEdge)
  | 'B' => edge .neither
  | '<' => edge .start
  | '>' => edge .stop
  | _ => if isEscapable c then return .literal c else failure

/-- The named classes of ASCII characters. -/
def asciiClass? (name : String) : Option CharSet :=
  let range (a b : Char) : CharSet := .range a b
  let upper := range 'A' 'Z'
  let lower := range 'a' 'z'
  let digits := CharSet.asciiDigit
  match name with
  | "alnum" => some (.union digits (.union upper lower))
  | "alpha" => some (.union upper lower)
  | "ascii" => some .ascii
  | "blank" => some (.union (.single '\t') (.single ' '))
  | "cntrl" => some (.union (range '\x00' '\x1f') (.single '\x7f'))
  | "digit" => some digits
  | "graph" => some (range '!' '~')
  | "lower" => some lower
  | "print" => some (range ' ' '~')
  | "punct" => some (.diff (range '!' '~') (.union digits (.union upper lower)))
  | "space" => some .asciiBlank
  | "upper" => some upper
  | "word" => some .asciiWord
  | "xdigit" => some (.union digits (.union (range 'A' 'F') (range 'a' 'f')))
  | _ => none

/-- A set, closed under change of case where the `i` switch is on. -/
def foldSet (s : CharSet) : Reader CharSet := do
  let flags := (← get).flags
  if !flags.insensitive then return s
  return if flags.unicode then .folded s else .asciiFolded s

/-- A named ASCII class such as `[:digit:]`; any other text is left unread. -/
def asciiClass : Reader (Option CharSet) := do
  let start ← get
  unless ← accept ['[', ':'] do return none
  let negated ← accept ['^']
  let name ← takeWhile (· != ':')
  if ← accept [':', ']'] then
    if let some s := asciiClass? (String.ofList name) then
      let s ← foldSet s
      if negated then return some (← complement s) else return some s
  set start
  return none

/-- One member of a class: a plain character or an escape. Where the switch `u` is off the character
has to be one of ASCII. -/
def classItem : Reader Atom := do
  let item ← match ← char with
    | '\\' => escape
    | c => pure (Atom.literal c)
  if let .literal c := item then
    if !(← get).flags.unicode && 128 ≤ c.toNat then failure
  return item

/-- The next character that is not skipped, after the one that comes next. -/
def peekSecond : Reader (Option Char) := do
  let r ← get
  let rest := r.rest.drop 1
  return (if r.flags.verbose then afterBlanks false rest else rest).head?

/-- A member of a class or a range of characters. -/
def classRange : Reader CharSet := do
  let first ← classItem
  skipBlanks
  let second ← peekSecond
  if (← peek) != some '-' || second == some ']' || second == some '-' then
    match first with
    | .literal c => return .single c
    | .set s => return s
    | .edge _ => failure
  else
    skip 1
    skipBlanks
    match first, ← classItem with
    | .literal a, .literal b => if a ≤ b then return .range a b else failure
    | _, _ => failure

/-- How two parts of a class are joined. -/
abbrev Join := CharSet → CharSet → CharSet

/-- A class being read: the part before the last operator with that operator, and the members
since. -/
structure ClassParts where
  joined : Option (CharSet × Join) := none
  members : CharSet := .nothing

/-- The set read so far, the pending operator applied. -/
def ClassParts.set (parts : ClassParts) : Reader CharSet := do
  let members ← foldSet parts.members
  match parts.joined with
  | none => return members
  | some (left, join) => return join left members

/-- Hyphens and then a closing bracket are literal where no other member stands before them. -/
def leadingMembers : Reader CharSet := do
  let hyphens ← takeWhile (· == '-')
  skipBlanks
  if hyphens.isEmpty then
    if ← accept [']'] then
      skipBlanks
      return .single ']'
    return .nothing
  return .single '-'

/-- A bracketed class after its opening bracket, up to and with the closing one. -/
def charClass : Nat → Reader CharSet
  | 0 => failure
  | depth + 1 => do
    skipBlanks
    let negated ← accept ['^']
    skipBlanks
    let members ← leadingMembers
    let read ← loop (fun (parts : ClassParts) => do
        skipBlanks
        let operator (join : Join) : Reader (Sum ClassParts CharSet) := do
          return .inl { joined := some (← parts.set, join) }
        let member (s : CharSet) : Reader (Sum ClassParts CharSet) :=
          return .inl { parts with members := .union parts.members s }
        if let some s ← asciiClass then return ← member s
        if ← accept ['['] then return ← member (← charClass depth)
        if ← accept [']'] then return .inr (← parts.set)
        if ← accept ['&', '&'] then return ← operator .inter
        if ← accept ['-', '-'] then return ← operator .diff
        if ← accept ['~', '~'] then return ← operator .symmDiff
        member (← classRange)) { members }
    let s ← foldSet read
    if negated then complement s else return s

/-- Switches one flag; refuses an unknown letter. -/
def Flags.set? (flags : Flags) (c : Char) (on : Bool) : Option Flags :=
  match c with
  | 'i' => some { flags with insensitive := on }
  | 's' => some { flags with dotAll := on }
  | 'm' => some { flags with multiLine := on }
  | 'U' => some { flags with swapGreed := on }
  | 'x' => some { flags with verbose := on }
  | 'R' => some { flags with crlf := on }
  | 'u' => some { flags with unicode := on }
  | _ => none

/-- The switches named by the letters; each letter may stand once, and letters after the hyphen
are switched off. -/
def Flags.apply? (flags : Flags) (on off : List Char) : Option Flags := do
  guard ((on ++ off).Nodup)
  let flags ← on.foldlM (fun f c => Flags.set? f c true) flags
  off.foldlM (fun f c => Flags.set? f c false) flags

/-- Whether a character may stand in a group name. -/
def isNameChar (first : Bool) (c : Char) : Bool :=
  if first then c == '_' || (isWord c && !isDigit c)
  else isWord c || c == '.' || c == '[' || c == ']'

/-- A group name up to and with the closing bracket; a name may be given once. -/
def groupName : Reader Unit := do
  let name ← takeWhile (· != '>')
  unless ← accept ['>'] do failure
  match name with
  | [] => failure
  | c :: rest => unless isNameChar true c && rest.all (isNameChar false) do failure
  let name := String.ofList name
  if (← get).names.contains name then failure
  modify fun r => { r with names := name :: r.names }

/-- What an opening bracket starts. -/
inductive Opening where
  /-- A group with its number. -/
  | group (number : Nat)
  /-- A group that has no number, with switches of its own. -/
  | flagged (flags : Flags)
  /-- Switches for the rest of the group around it. -/
  | switch (flags : Flags)

/-- The number of the group that opens. -/
def groupNumber : Reader Nat := do
  modify fun r => { r with groups := r.groups + 1 }
  return (← get).groups

/-- The text between an opening bracket and the inside of the group. -/
def opening : Reader Opening := do
  skipBlanks
  if ← accept "?P<".toList then
    groupName
    return .group (← groupNumber)
  if ← accept "?<".toList then
    groupName
    return .group (← groupNumber)
  unless ← accept ['?'] do return .group (← groupNumber)
  let on ← takeWhile Char.isAlpha
  let hyphen ← accept ['-']
  let off ← if hyphen then takeWhile Char.isAlpha else pure []
  if hyphen && off.isEmpty then failure
  match Flags.apply? (← get).flags on off with
  | none => failure
  | some flags =>
    match ← char with
    | ':' => return .flagged flags
    | ')' => if on.isEmpty && off.isEmpty then failure else return .switch flags
    | _ => failure

/-- How often a repetition goes round. -/
structure Bounds where
  least : Nat
  most : Option Nat

/-- The bounds in braces, after the opening one. -/
def bounds : Reader Bounds := do
  skipBlanks
  let least ← count
  if ← accept [','] then
    skipBlanks
    if ← accept ['}'] then return ⟨least, none⟩
    let most ← count
    unless ← accept ['}'] do failure
    if most < least then failure
    return ⟨least, some most⟩
  unless ← accept ['}'] do failure
  return ⟨least, some least⟩

/-- The repetition of a pattern within bounds. -/
def Bounds.repeat (b : Bounds) (greedy : Bool) (p : Pattern) : Pattern :=
  match b.most with
  | none => atLeast greedy p b.least
  | some most => between greedy p b.least most

/-- Branches of an alternation read so far, and the parts of the branch being read, the last one
first. A part that only sets switches is `none`: it matches the empty text and cannot be
repeated. -/
structure Branches where
  done : List Pattern := []
  parts : List (Option Pattern) := []

/-- The branch being read, as a pattern. -/
def Branches.branch (b : Branches) : Pattern :=
  sequence (b.parts.reverse.filterMap id)

/-- Another part for the branch being read. -/
def Branches.push (b : Branches) (part : Option Pattern) : Branches :=
  { b with parts := part :: b.parts }

/-- All branches as one pattern. -/
def Branches.pattern (b : Branches) : Pattern :=
  choice ((b.branch :: b.done).reverse)

/-- Repeats the last part of the branch being read. -/
def repeatLast (b : Branches) (bounds : Bounds) : Reader Branches := do
  let lazy ← accept ['?']
  let greedy := lazy == (← get).flags.swapGreed
  match b.parts with
  | some p :: parts => return { b with parts := some (bounds.repeat greedy p) :: parts }
  | _ => failure

/-- The characters that the point stands for under the switches in force. -/
def pointSet : Reader CharSet := do
  let flags := (← get).flags
  unless flags.unicode do failure
  return if flags.dotAll then .anything else if flags.crlf then .withinCrlfLine else .withinLine

/-- The pattern of an atom under the switches in force. -/
def atomPattern : Atom → Reader Pattern
  | .literal c => return .one (← foldSet (.single c))
  | .set s => return .one s
  | .edge e => return .edge e

/-- An alternation up to the end of its group, whose closing bracket is left unread. -/
def alternation : Nat → Reader Pattern
  | 0 => failure
  | depth + 1 =>
    loop (fun (b : Branches) => do
        skipBlanks
        let flags := (← get).flags
        let part (p : Pattern) : Reader (Sum Branches Pattern) := return .inl (b.push (some p))
        match ← peek with
        | none => return .inr b.pattern
        | some ')' => return .inr b.pattern
        | some c =>
          skip 1
          match c with
          | '|' => return .inl { done := b.branch :: b.done }
          | '*' => return .inl (← repeatLast b ⟨0, none⟩)
          | '+' => return .inl (← repeatLast b ⟨1, none⟩)
          | '?' => return .inl (← repeatLast b ⟨0, some 1⟩)
          | '{' =>
            let bounds ← bounds
            skipBlanks
            return .inl (← repeatLast b bounds)
          | '(' =>
            let enclosed : Reader Pattern := do
              let p ← alternation depth
              unless ← accept [')'] do failure
              modify fun r => { r with flags }
              return p
            match ← opening with
            | .switch inner =>
              modify fun r => { r with flags := inner }
              return .inl (b.push none)
            | .flagged inner =>
              modify fun r => { r with flags := inner }
              part (← enclosed)
            | .group number => part (.group number (← enclosed))
          | '[' => part (.one (← charClass depth))
          | '.' => part (.one (← pointSet))
          | '^' => part (.edge (if flags.multiLine then .lineStart flags.crlf else .textStart))
          | '$' => part (.edge (if flags.multiLine then .lineEnd flags.crlf else .textEnd))
          | '\\' => part (← atomPattern (← escape))
          | c => part (← atomPattern (.literal c))) {}

end Reader

/-- The pattern that a text writes, if it writes one and all of its syntax is known here. -/
def read? (text : String) : Option Pattern :=
  let chars := text.toList
  match (Reader.alternation (chars.length + 1)).run { rest := chars } with
  | some (p, { rest := [], .. }) => some p
  | _ => none

end Stencil.Pattern
