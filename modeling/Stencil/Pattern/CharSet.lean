import Stencil.Text.Blank
import Stencil.Text.Digit
import Stencil.Text.Folding
import Stencil.Text.Word

/-!
# Sets of characters

A set of characters as written in a pattern: ranges and named classes, closed under union,
intersection and complement. `CharSet.has` decides membership.
-/

namespace Stencil.Pattern

open Stencil.Text (isBlank isDigit isWord caseVariants)

/-- A set of characters, by the way it is written. -/
inductive CharSet where
  /-- No character at all. -/
  | nothing
  /-- The characters between two, both included. -/
  | range (first last : Char)
  /-- Decimal digits of any script. -/
  | digit
  /-- Blanks. -/
  | blank
  /-- Word characters. -/
  | word
  | union (s t : CharSet)
  | inter (s t : CharSet)
  | compl (s : CharSet)
  /-- The characters that agree up to case with a member of the set. -/
  | folded (s : CharSet)
  deriving Repr, DecidableEq

namespace CharSet

/-- Whether the set holds a character. -/
def has : CharSet → Char → Bool
  | nothing, _ => false
  | range a b, c => a ≤ c && c ≤ b
  | digit, c => isDigit c
  | blank, c => isBlank c
  | word, c => isWord c
  | union s t, c => s.has c || t.has c
  | inter s t, c => s.has c && t.has c
  | compl s, c => !s.has c
  | folded s, c => s.has c || (caseVariants c).any s.has

/-- The set of one character. -/
def single (c : Char) : CharSet :=
  range c c

/-- All characters. -/
def anything : CharSet :=
  compl nothing

/-- All characters except the line feed. -/
def withinLine : CharSet :=
  compl (single '\n')

/-- All characters except the two that end lines. -/
def withinCrlfLine : CharSet :=
  compl (union (single '\r') (single '\n'))

/-- The characters of ASCII. -/
def ascii : CharSet :=
  range '\x00' '\x7f'

/-- The ten digits of ASCII. -/
def asciiDigit : CharSet :=
  range '0' '9'

/-- The blanks of ASCII. -/
def asciiBlank : CharSet :=
  union (range '\t' '\x0d') (single ' ')

/-- The word characters of ASCII. -/
def asciiWord : CharSet :=
  union (single '_') (union asciiDigit (union (range 'A' 'Z') (range 'a' 'z')))

/-- The set closed under change of case within ASCII. -/
def asciiFolded (s : CharSet) : CharSet :=
  union s (inter ascii (folded (inter ascii s)))

/-- The characters of `s` that are not in `t`. -/
def diff (s t : CharSet) : CharSet :=
  inter s (compl t)

/-- The characters in exactly one of the two sets. -/
def symmDiff (s t : CharSet) : CharSet :=
  union (diff s t) (diff t s)

end CharSet

end Stencil.Pattern
