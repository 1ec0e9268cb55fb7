/-!
# Ranges of characters

Character classes beyond ASCII are tables of closed ranges of code points, as Unicode 16 has them.
-/

namespace Stencil.Text

/-- A closed range of code points, first and last. -/
abbrev CodeRange := Nat × Nat

/-- Whether one of the ranges holds the character. -/
def CodeRange.anyHas (ranges : List CodeRange) (c : Char) : Bool :=
  ranges.any fun r => r.1 ≤ c.toNat && c.toNat ≤ r.2

end Stencil.Text
