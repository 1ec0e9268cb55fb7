import Stencil.Pattern.CharSet

/-!
# Patterns and what they match

A pattern matches at a place in a text. The place is given by the character before it (`none` at
the very start) and the characters that follow. `Pattern.captures` lists all matches there in order
of preference, each with its length and the groups that took part in it: an alternation prefers its
left side, a greedy repetition prefers to go on, a lazy one to stop. The match that counts is the
first of the list, `Pattern.capture?`.

Where no one asks for the groups, `Pattern.lengths` and `Pattern.preferred?` leave them out
(`Pattern.preferred?_eq_map`).

A repetition whose body matches the empty text stops there instead of going round for ever.
-/

namespace Stencil

/-- How the two sides of a place compare: is there a word character to the left, and to the
right? -/
inductive WordEdge where
  /-- On exactly one side. -/
  | either
  /-- On both sides or on none. -/
  | neither
  /-- On the right side only. -/
  | start
  /-- On the left side only. -/
  | stop
  /-- Not on the left side. -/
  | startHalf
  /-- Not on the right side. -/
  | stopHalf
  deriving Repr, DecidableEq

def WordEdge.holds (e : WordEdge) (left right : Bool) : Bool :=
  match e with
  | either => left != right
  | neither => left == right
  | start => !left && right
  | stop => left && !right
  | startHalf => !left
  | stopHalf => !right

/-- A condition on a place that uses up no text. -/
inductive Edge where
  /-- The very start of the text. -/
  | textStart
  /-- The very end of the text. -/
  | textEnd
  /-- The start of a line. With `crlf` a carriage return ends a line as well, alone or with the line
  feed behind it. -/
  | lineStart (crlf : Bool)
  /-- The end of a line. -/
  | lineEnd (crlf : Bool)
  /-- A condition on the word characters at both sides, which are those of ASCII if `ascii` is
  set. -/
  | word (ascii : Bool) (e : WordEdge)
  deriving Repr, DecidableEq

/-- Whether the condition holds between the characters `before` and `after`. -/
def Edge.holds (e : Edge) (before after : Option Char) : Bool :=
  match e with
  | textStart => before.isNone
  | textEnd => after.isNone
  | lineStart false => before.all (· == '\n')
  | lineStart true => before.all fun c => c == '\n' || c == '\r' && after != some '\n'
  | lineEnd false => after.all (· == '\n')
  | lineEnd true => after.all fun c => c == '\r' || c == '\n' && before != some '\r'
  | word false e => e.holds (before.any Text.isWord) (after.any Text.isWord)
  | word true e => e.holds (before.any Text.isAsciiWord) (after.any Text.isAsciiWord)

/-- What a token definition looks for. -/
inductive Pattern where
  /-- The empty text. -/
  | empty
  /-- One character of a set. -/
  | one (s : Pattern.CharSet)
  /-- The empty text at a place that meets a condition. -/
  | edge (e : Edge)
  | seq (p q : Pattern)
  | alt (p q : Pattern)
  /-- One or more times `p`, as many as possible if greedy, else as few as possible. -/
  | plus (greedy : Bool) (p : Pattern)
  /-- A pattern `p` whose part in a match is noted under a number. -/
  | group (number : Nat) (p : Pattern)
  deriving Repr, DecidableEq

namespace Pattern

/-- The character before the place that lies `n` characters further on. -/
def beforeAt (before : Option Char) (after : List Char) (n : Nat) : Option Char :=
  if n = 0 then before else after[n - 1]?

/-- Further rounds of a repetition that has made progress: in order of preference the lengths that
they add. A round that uses up nothing adds nothing, so at most `fuel` rounds are needed when
`fuel` characters are left. -/
def rounds (body : Option Char → List Char → List Nat) (greedy : Bool) :
    Nat → Option Char → List Char → List Nat
  | 0, _, _ => [0]
  | fuel + 1, before, after =>
    let more := (body before after).flatMap fun n =>
      if n = 0 then []
      else (rounds body greedy fuel (beforeAt before after n) (after.drop n)).map (n + ·)
    if greedy then more ++ [0] else 0 :: more

/-- The lengths of all matches of a pattern at a place, the preferred one first. -/
def lengths : Pattern → Option Char → List Char → List Nat
  | empty, _, _ => [0]
  | one _, _, [] => []
  | one s, _, c :: _ => if s.has c then [1] else []
  | edge e, before, after => if e.holds before after.head? then [0] else []
  | seq p q, before, after =>
    (p.lengths before after).flatMap fun n =>
      (q.lengths (beforeAt before after n) (after.drop n)).map (n + ·)
  | alt p q, before, after => p.lengths before after ++ q.lengths before after
  | plus greedy p, before, after =>
    (p.lengths before after).flatMap fun n =>
      if n = 0 then [0]
      else
        (rounds p.lengths greedy after.length (beforeAt before after n) (after.drop n)).map (n + ·)
  | group _ p, before, after => p.lengths before after

/-- The length of the match that counts at a place, if the pattern matches there at all. -/
def preferred? (p : Pattern) (before : Option Char) (after : List Char) : Option Nat :=
  (p.lengths before after).head?

/-- What a match captures: its length, and the numbers of the groups that took part in it. -/
structure Captures where
  length : Nat
  groups : List Nat
  deriving Repr, DecidableEq

namespace Captures

/-- The match of the empty text that no group takes part in. -/
def nothing : Captures :=
  ⟨0, []⟩

/-- A match and another right behind it. A group that took part in the first stays noted, whatever
the second does. -/
def append (c d : Captures) : Captures :=
  ⟨c.length + d.length, c.groups ++ d.groups⟩

/-- The match, noted for a group. -/
def inGroup (number : Nat) (c : Captures) : Captures :=
  ⟨c.length, number :: c.groups⟩

end Captures

/-- Further rounds of a repetition, as in `rounds`, with what they capture. -/
def captureRounds (body : Option Char → List Char → List Captures) (greedy : Bool) :
    Nat → Option Char → List Char → List Captures
  | 0, _, _ => [.nothing]
  | fuel + 1, before, after =>
    let more := (body before after).flatMap fun c =>
      if c.length = 0 then []
      else
        (captureRounds body greedy fuel (beforeAt before after c.length)
          (after.drop c.length)).map c.append
    if greedy then more ++ [.nothing] else .nothing :: more

/-- What all matches of a pattern at a place capture, the preferred one first. -/
def captures : Pattern → Option Char → List Char → List Captures
  | empty, _, _ => [.nothing]
  | one _, _, [] => []
  | one s, _, c :: _ => if s.has c then [⟨1, []⟩] else []
  | edge e, before, after => if e.holds before after.head? then [.nothing] else []
  | seq p q, before, after =>
    (p.captures before after).flatMap fun c =>
      (q.captures (beforeAt before after c.length) (after.drop c.length)).map c.append
  | alt p q, before, after => p.captures before after ++ q.captures before after
  | plus greedy p, before, after =>
    (p.captures before after).flatMap fun c =>
      if c.length = 0 then [c]
      else
        (captureRounds p.captures greedy after.length (beforeAt before after c.length)
          (after.drop c.length)).map c.append
  | group number p, before, after => (p.captures before after).map (.inGroup number)

/-- What the match that counts at a place captures, if the pattern matches there at all. -/
def capture? (p : Pattern) (before : Option Char) (after : List Char) : Option Captures :=
  (p.captures before after).head?

/-- The highest number of a group of the pattern. -/
def lastGroup : Pattern → Nat
  | empty | one _ | edge _ => 0
  | seq p q | alt p q => max p.lastGroup q.lastGroup
  | plus _ p => p.lastGroup
  | group number p => max number p.lastGroup

/-- The pattern with all its groups numbered `k` higher. -/
def shift (k : Nat) : Pattern → Pattern
  | empty => empty
  | one s => one s
  | edge e => edge e
  | seq p q => seq (p.shift k) (q.shift k)
  | alt p q => alt (p.shift k) (q.shift k)
  | plus greedy p => plus greedy (p.shift k)
  | group number p => group (number + k) (p.shift k)

/-- Zero times or once. -/
def opt (greedy : Bool) (p : Pattern) : Pattern :=
  if greedy then alt p empty else alt empty p

/-- Any number of times. -/
def star (greedy : Bool) (p : Pattern) : Pattern :=
  opt greedy (plus greedy p)

/-- Exactly `n` times. -/
def exactly (p : Pattern) : Nat → Pattern
  | 0 => empty
  | 1 => p
  | n + 1 => seq p (exactly p n)

/-- At most `n` times; a further round is tried only after the one before it. -/
def atMost (greedy : Bool) (p : Pattern) : Nat → Pattern
  | 0 => empty
  | 1 => opt greedy p
  | n + 1 => opt greedy (seq p (atMost greedy p n))

/-- At least `least` times. -/
def atLeast (greedy : Bool) (p : Pattern) : Nat → Pattern
  | 0 => star greedy p
  | 1 => plus greedy p
  | least + 1 => seq (exactly p least) (plus greedy p)

/-- Between `least` and `most` times. -/
def between (greedy : Bool) (p : Pattern) (least most : Nat) : Pattern :=
  if least = 0 then atMost greedy p most
  else if most ≤ least then exactly p least
  else seq (exactly p least) (atMost greedy p (most - least))

/-- One pattern after the other. -/
def sequence : List Pattern → Pattern
  | [] => empty
  | [p] => p
  | p :: ps => seq p (sequence ps)

/-- Any one of the patterns, the earlier preferred. -/
def choice : List Pattern → Pattern
  | [] => one .nothing
  | [p] => p
  | p :: ps => alt p (choice ps)

end Pattern

end Stencil
