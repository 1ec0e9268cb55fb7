import Stencil.Lexer.Scan
import Stencil.Token.Source

/-!
# A cursor over the tokens of a source

A cursor gives out tokens one by one and lets its user look one token ahead. A match with text
before it waits until the fragment of that text has been given out; only then does its transition
take place. The tokens given out are those of `Lexicon.scan`, followed by the end of the source as
often as it is asked for.
-/

namespace Stencil

/-- A token that waits to be given out, with the transition that it brings about. -/
structure Waiting where
  token : Token
  transition : Transition
  deriving Repr, DecidableEq

/-- A cursor over one source. -/
structure Cursor where
  lexicon : Lexicon
  source : String
  /-- The place up to which the source has been scanned. -/
  place : Place
  /-- The token that has been looked at but not been given out. -/
  lookahead : Option Token := none
  waiting : Option Waiting := none

namespace Cursor

/-- A cursor at the start of a source. -/
def start (l : Lexicon) (source : String) (context : Context) : Except SetupError Cursor := do
  l.checkStart context
  return { lexicon := l, source, place := Place.start source context }

/-- Turns to another source. Where that cannot be scanned from the given context, the cursor stays
as it is. -/
def restart (c : Cursor) (source : String) (context : Context) : Except SetupError Cursor :=
  start c.lexicon source context

/-- The context that the next scan will use. -/
def context (c : Cursor) : Context :=
  c.place.mode.context

/-- The next token by scanning, with the place and the waiting token after it. -/
def scanNext (l : Lexicon) (p : Place) : Token × Place × Option Waiting :=
  if 0 < p.rest.length then
    match _hf : l.find? p with
    | none => (p.token .fragment p.rest.length, p.advance p.rest.length, none)
    | some f =>
      let d := f.rule.definition
      if 0 < f.skipped then
        let behind := (p.atMatch f).advance f.length
        if d.cls = .ignore then
          (p.token .fragment f.skipped, behind.enter d.transition, none)
        else
          (p.token .fragment f.skipped, behind,
            some ⟨(p.atMatch f).token d.kind f.length, d.transition⟩)
      else if d.cls = .ignore then scanNext l (p.afterMatch f)
      else ((p.atMatch f).token d.kind f.length, p.afterMatch f, none)
  else (Token.eof, p, none)
termination_by p.rest.length
decreasing_by
  have := Lexicon.find?_length_pos _hf
  rw [Place.length_rest_afterMatch]
  omega

/-- The next token behind the look-ahead. -/
def pull (c : Cursor) : Token × Cursor :=
  match c.waiting with
  | some w => (w.token, { c with place := c.place.enter w.transition, waiting := none })
  | none =>
    let (t, place, waiting) := scanNext c.lexicon c.place
    (t, { c with place, waiting })

/-- The next token, which stays where it is. -/
def peek (c : Cursor) : Token × Cursor :=
  match c.lookahead with
  | some t => (t, c)
  | none =>
    let (t, c) := c.pull
    (t, { c with lookahead := some t })

/-- Gives out the next token. -/
def next (c : Cursor) : Token × Cursor :=
  match c.lookahead with
  | some t => (t, { c with lookahead := none })
  | none => c.pull

instance : TokenSource Cursor where
  peek := peek
  next := next

/-- Whether the next token is of a kind. -/
def isNext (c : Cursor) (kind : TokenKind) : Bool × Cursor :=
  let (t, c) := c.peek
  (t.kind == kind, c)

/-- Gives out the next token if it is of a kind. -/
def nextIf (c : Cursor) (kind : TokenKind) : Option Token × Cursor :=
  let (isKind, c) := c.isNext kind
  if isKind then
    let (t, c) := c.next
    (some t, c)
  else (none, c)

/-- Gives out the next token unless it ends the source, in which case it is used up all the
same. -/
def nextBeforeEof (c : Cursor) : Option Token × Cursor :=
  let (t, c) := c.next
  (if t.isEof then none else some t, c)

/-- Gives out tokens up to the first that ends the source, at most `fuel` before it. -/
def collectWith : Nat → Cursor → List Token × Cursor
  | 0, c => ([], c)
  | fuel + 1, c =>
    let (t, c) := c.next
    if t.isEof then ([t], c)
    else
      let (ts, c) := collectWith fuel c
      (t :: ts, c)

/-- Gives out all tokens that are left, the end included. Every token but two, the one looked at
and the one waiting, uses up a character or more. -/
def collect (c : Cursor) : List Token × Cursor :=
  collectWith (c.place.rest.length + 3) c

/-- The line of a place in the source. -/
def lineAt (c : Cursor) (offset : Option Nat) : Nat :=
  Text.lineAt c.source.toList offset

/-- The column of a place in the source. -/
def columnAt (c : Cursor) (offset : Option Nat) : Nat :=
  Text.columnAt c.source.toList offset

end Cursor

end Stencil
