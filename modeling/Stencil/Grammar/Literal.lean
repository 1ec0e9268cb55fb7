import Stencil.Text.Numeral

/-!
# String literals

A string literal stands between two quotes of one kind. Inside it a backslash starts an escape. An
escape that means nothing stands for the character after the backslash.
-/

namespace Stencil.Grammar

/-- The character whose code point the four characters of an escape write. A plus sign may stand
in the place of the first digit. Surrogates are no characters. -/
def escapedCode? (a b c d : Char) : Option Char :=
  Text.codePoint? (if a = '+' then [b, c, d] else [a, b, c, d])

/-- What a backslash and one character stand for. -/
def escapedChar : Char → Char
  | 'n' => '\n'
  | 't' => '\t'
  | 'r' => '\r'
  | 'b' => '\x08'
  | 'f' => '\x0c'
  | c => c

/-- Resolves the escapes of a text. A code point that is no character leaves the letter that
starts its escape; a backslash at the end stands for itself. -/
def unescape : List Char → List Char
  | [] => []
  | '\\' :: 'u' :: a :: b :: c :: d :: rest =>
    match escapedCode? a b c d with
    | some u => u :: unescape rest
    | none => 'u' :: unescape (a :: b :: c :: d :: rest)
  | '\\' :: c :: rest => escapedChar c :: unescape rest
  | c :: rest => c :: unescape rest

/-- Takes off the quotes of a string literal and resolves its escapes. Text that does not stand
between two quotes of one kind stays as it is. -/
def unquoteChars (raw : List Char) : List Char :=
  match raw with
  | [] => []
  | q :: inner =>
    if (q = '"' ∨ q = '\'') ∧ inner.getLast? = some q then unescape inner.dropLast else raw

/-- The text that a string literal stands for. -/
def unquote (raw : String) : String :=
  String.ofList (unquoteChars raw.toList)

end Stencil.Grammar
