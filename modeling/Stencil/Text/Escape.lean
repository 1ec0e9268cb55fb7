/-!
# Reading escaped text

A reader of a quoted string goes through the text up to the closing quote and returns what the text
stands for, with what follows the quote.
-/

namespace Stencil.Text

/-- Puts a character, if there is one, before the text that is read after it. -/
def withChar (c? : Option Char) (more : Option (List Char × List Char)) :
    Option (List Char × List Char) := do
  let c ← c?
  let (cs, rest) ← more
  return (c :: cs, rest)

end Stencil.Text
