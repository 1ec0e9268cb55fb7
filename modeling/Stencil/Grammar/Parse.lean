import Stencil.Token.Source

/-!
# Parsers

A parser is kept as the tree of the steps that it takes: it looks at the next token, takes it, and
ends with a value or refuses. `Parse.run` takes these steps on any source of tokens, be it a list or
a scanner that finds each token only when it is asked for.

A parser that refuses says what it would have accepted. The source is then left in front of the
offending token, so that the report can tell where it went wrong.
-/

namespace Stencil

/-- A place in the grammar that a parser comes back to. -/
inductive Landmark where
  /-- In front of the next item of a body. -/
  | item
  /-- In front of the next token of a comment, inside as many comments as the number says. -/
  | comment (depth : Nat)
  deriving Repr, DecidableEq

/-- A parser. -/
inductive Parse (α : Type) where
  | done (a : α)
  /-- Refuses the next token. -/
  | reject (expected : String)
  /-- Looks at the next token. -/
  | look (next : Token → Parse α)
  /-- Takes the next token. -/
  | take (next : Token → Parse α)
  /-- Asks for a number that exceeds the number of tokens. -/
  | bound (next : Nat → Parse α)
  /-- Passes a landmark, which has no effect. -/
  | pass (l : Landmark) (next : Parse α)

/-- Why tokens were refused: what was expected, and the source in front of the offending token. -/
structure Rejection (σ : Type) where
  expected : String
  rest : σ
  deriving Repr, DecidableEq

/-- The token that a rejection is about. -/
def Rejection.token {σ : Type} [TokenSource σ] (r : Rejection σ) : Token :=
  (TokenSource.peek r.rest).1

namespace Parse

/-- One parser after another. -/
def bind {α β : Type} : Parse α → (α → Parse β) → Parse β
  | done a, f => f a
  | reject expected, _ => reject expected
  | look next, f => look fun t => (next t).bind f
  | take next, f => take fun t => (next t).bind f
  | bound next, f => bound fun n => (next n).bind f
  | pass l next, f => pass l (next.bind f)

instance : Monad Parse where
  pure := done
  bind := bind

section

variable {α σ : Type} [TokenSource σ]

/-- Runs a parser on a source of fewer tokens than `limit`. -/
def run (limit : Nat) : Parse α → σ → Except (Rejection σ) (α × σ)
  | done a, s => .ok (a, s)
  | reject expected, s => .error ⟨expected, s⟩
  | look next, s =>
    let (t, s) := TokenSource.peek s
    (next t).run limit s
  | take next, s =>
    let (t, s) := TokenSource.next s
    (next t).run limit s
  | bound next, s => (next limit).run limit s
  | pass _ next, s => next.run limit s

/-- The landmarks that a run passes, each with the state of the source. -/
def passed (limit : Nat) : Parse α → σ → List (Landmark × σ)
  | done _, _ => []
  | reject _, _ => []
  | look next, s =>
    let (t, s) := TokenSource.peek s
    (next t).passed limit s
  | take next, s =>
    let (t, s) := TokenSource.next s
    (next t).passed limit s
  | bound next, s => (next limit).passed limit s
  | pass l next, s => (l, s) :: next.passed limit s

end

/-- Runs a parser on a list of tokens. -/
def runTokens {α : Type} (p : Parse α) (ts : List Token) :
    Except (Rejection (List Token)) (α × List Token) :=
  p.run (ts.length + 1) ts

/-- The next token, which stays where it is. -/
def peek : Parse Token :=
  look done

/-- Takes the next token. -/
def advance : Parse Token :=
  take done

/-- A parser that is made when it is run. -/
def later {α : Type} (p : Unit → Parse α) : Parse α :=
  bound fun _ => p ()

/-- Passes a landmark. -/
def reach (l : Landmark) : Parse Unit :=
  pass l (done ())

/-- Whether the next token is of a kind. -/
def isNext (kind : TokenKind) : Parse Bool := do
  return (← peek).kind == kind

/-- Takes the next token if it is of a kind. -/
def accept (kind : TokenKind) : Parse Bool := do
  if ← isNext kind then
    let _ ← advance
    return true
  else
    return false

/-- Takes a token of a kind and refuses any other. -/
def expect (kind : TokenKind) : Parse Token := do
  if ← isNext kind then advance else reject kind.description

/-- Takes a token of a kind, and refuses any other with words of the caller's. -/
def expectAs (kind : TokenKind) (expected : String) : Parse Unit := do
  unless ← accept kind do reject expected

/-- Goes on with `step` until it yields nothing, at most `fuel` times. -/
def iterateUpTo {α : Type} (step : α → Parse (Option α)) : Nat → α → Parse α
  | 0, a => return a
  | fuel + 1, a => do
    match ← step a with
    | none => return a
    | some b => iterateUpTo step fuel b

/-- Goes on with `step` until it yields nothing. A step that yields something has taken a token,
so there are no more of them than tokens. -/
def iterate {α : Type} (step : α → Parse (Option α)) (a : α) : Parse α :=
  bound fun n => iterateUpTo step n a

/-- One or more items with commas between them. -/
def commaList {α : Type} (item : Parse α) : Parse (List α) := do
  let first ← item
  let items ← iterate (fun items => do
    if ← accept .comma then return some ((← item) :: items) else return none) [first]
  return items.reverse

end Parse

end Stencil
