import Stencil.Text.Range

/-!
# Blanks

The blanks are the characters with the property `White_Space`: tab to carriage return and the
space among ASCII, and nineteen more.
-/

namespace Stencil.Text

/-- All blanks, in increasing order. -/
def blankRanges : List CodeRange := [
    (0x9, 0xd), (0x20, 0x20), (0x85, 0x85), (0xa0, 0xa0), (0x1680, 0x1680), (0x2000, 0x200a),
    (0x2028, 0x2029), (0x202f, 0x202f), (0x205f, 0x205f), (0x3000, 0x3000)]

/-- Whether a character is a blank. -/
def isBlank (c : Char) : Bool :=
  CodeRange.anyHas blankRanges c

end Stencil.Text
