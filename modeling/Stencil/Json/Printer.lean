import Stencil.Json.Value

/-!
# Writing JSON

There are two forms. The compact form has no blanks. The indented form puts every element and
member on a line of its own, two spaces deeper than its bracket; empty arrays and objects stay on
one line in both.
-/

namespace Stencil.Json

/-- One character inside a JSON string: quotes, backslashes and controls are escaped. -/
def escapedChar (c : Char) : List Char :=
  if c = '"' then ['\\', '"']
  else if c = '\\' then ['\\', '\\']
  else if c = '\n' then ['\\', 'n']
  else if c = '\r' then ['\\', 'r']
  else if c = '\t' then ['\\', 't']
  else if c = '\x08' then ['\\', 'b']
  else if c = '\x0c' then ['\\', 'f']
  else if c.toNat < 32 then
    ['\\', 'u', '0', '0', if c.toNat < 16 then '0' else '1', Nat.digitChar (c.toNat % 16)]
  else [c]

/-- A text as a JSON string. -/
def stringChars (s : String) : List Char :=
  '"' :: s.toList.flatMap escapedChar ++ ['"']

/-- The compact and the indented form differ in what stands between the parts of an array or an
object. -/
structure Layout where
  /-- What starts a new element inside brackets of the given depth. -/
  lineBreak : Nat → List Char
  /-- What stands between a name and its value. -/
  colon : List Char

/-- No blanks at all. -/
def Layout.compact : Layout :=
  ⟨fun _ => [], [':']⟩

/-- A line for every element, and a blank after the colon. -/
def Layout.indented : Layout :=
  ⟨fun depth => '\n' :: List.replicate (2 * depth) ' ', [':', ' ']⟩

mutual

/-- The text of a value inside brackets of the given depth. -/
def chars (layout : Layout) (depth : Nat) : Json → List Char
  | null => "null".toList
  | bool true => "true".toList
  | bool false => "false".toList
  | number text => text.toList
  | string s => stringChars s
  | array [] => ['[', ']']
  | array (x :: xs) =>
    '[' :: layout.lineBreak (depth + 1) ++ x.chars layout (depth + 1) ++
      elementChars layout (depth + 1) xs ++ layout.lineBreak depth ++ [']']
  | object [] => ['{', '}']
  | object ((name, x) :: xs) =>
    '{' :: layout.lineBreak (depth + 1) ++ stringChars name ++ layout.colon ++
      x.chars layout (depth + 1) ++ memberChars layout (depth + 1) xs ++
      layout.lineBreak depth ++ ['}']
termination_by structural v => v

/-- The elements of an array after the first. -/
def elementChars (layout : Layout) (depth : Nat) : List Json → List Char
  | [] => []
  | x :: xs =>
    ',' :: layout.lineBreak depth ++ x.chars layout depth ++ elementChars layout depth xs
termination_by structural xs => xs

/-- The members of an object after the first. -/
def memberChars (layout : Layout) (depth : Nat) : List (String × Json) → List Char
  | [] => []
  | (name, x) :: xs =>
    ',' :: layout.lineBreak depth ++ stringChars name ++ layout.colon ++ x.chars layout depth ++
      memberChars layout depth xs
termination_by structural xs => xs

end

/-- The compact text of a value. -/
def compact (v : Json) : String :=
  String.ofList (v.chars .compact 0)

/-- The indented text of a value. -/
def indented (v : Json) : String :=
  String.ofList (v.chars .indented 0)

end Stencil.Json
