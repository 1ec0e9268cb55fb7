import Stencil.Text.Numeral

/-!
# Lines of a source

Lines and columns are counted from one. A place is given by a byte offset that is counted from
one too, or is missing for the end of the text. `lineAt` counts the line feeds before the place;
`excerpt` shows the lines around one line and marks it.
-/

namespace Stencil.Text

/-- The number of bytes that characters take up. -/
def byteLength (cs : List Char) : Nat :=
  cs.foldr (fun c n => c.utf8Size + n) 0

/-- The characters that start before a byte. -/
def startingBefore : Nat → List Char → List Char
  | _, [] => []
  | 0, _ => []
  | stop + 1, c :: rest => c :: startingBefore (stop + 1 - c.utf8Size) rest

/-- The number of bytes before a place, at most all of them. -/
def bytesBefore (text : List Char) : Option Nat → Nat
  | some offset => min (offset - 1) (byteLength text)
  | none => byteLength text

/-- The line of a place. -/
def lineAt (text : List Char) (offset : Option Nat) : Nat :=
  (startingBefore (bytesBefore text offset) text).count '\n' + 1

/-- The column of a place, in characters. A place inside a character is in the first column. -/
def columnAt (text : List Char) (offset : Option Nat) : Nat :=
  let stop := bytesBefore text offset
  let before := startingBefore stop text
  if byteLength before = stop then (before.reverse.takeWhile (· != '\n')).length + 1 else 1

/-- Drops one carriage return at the end of a line. -/
def dropReturn (line : List Char) : List Char :=
  if line.getLast? = some '\r' then line.dropLast else line

/-- The lines of a text, in a loop over its characters; `current` holds the line being read, last
character first. A line feed ends a line, so nothing after the last one is no line. -/
def linesFrom (current : List Char) : List Char → List (List Char)
  | [] => if current.isEmpty then [] else [current.reverse]
  | c :: rest =>
    if c = '\n' then dropReturn current.reverse :: linesFrom [] rest
    else linesFrom (c :: current) rest

/-- The lines of a text without their line ends. -/
def lines (text : List Char) : List (List Char) :=
  linesFrom [] text

/-- A number to the right in three places. -/
def threeWide (n : Nat) : String :=
  let digits := natText n
  String.ofList (List.replicate (3 - digits.length) ' ') ++ digits

/-- One line of an excerpt, with its mark and its number. -/
def excerptLine (marked : Bool) (number : Nat) (line : List Char) : String :=
  (if marked then ">> " else "   ") ++ threeWide number ++ " | " ++ String.ofList line ++ "\n"

/-- The lines of the text around a line: two before it, the line itself with a mark, and two
after it, as far as they exist. Line zero is taken for the first. -/
def excerpt (text : List Char) (line : Nat) : String :=
  let above := line - 1
  let window := ((lines text).zipIdx 1).filter fun (_, n) => above ≤ n + 1 && n ≤ above + 3
  String.join (window.map fun (l, n) => excerptLine (n == above + 1) n l)

end Stencil.Text
