/-!
# Operators

The operators of expressions. Word and symbol spellings are the same operator.
-/

namespace Stencil

/-- An operator with one operand. -/
inductive UnaryOp where
  | negate
  | not
  deriving Repr, DecidableEq

/-- How an operator with one operand is written. -/
def UnaryOp.symbol : UnaryOp → String
  | negate => "-"
  | not => "!"

/-- An operator with two operands. -/
inductive BinaryOp where
  | or
  | and
  | equal
  | notEqual
  | lessOrEqual
  | lessThan
  | greaterOrEqual
  | greaterThan
  | add
  | sub
  | mul
  | div
  | mod
  deriving Repr, DecidableEq

/-- All operators with two operands. -/
def BinaryOp.all : List BinaryOp :=
  [or, and, equal, notEqual, lessOrEqual, lessThan, greaterOrEqual, greaterThan, add, sub, mul,
    div, mod]

/-- How an operator with two operands is written. -/
def BinaryOp.symbol : BinaryOp → String
  | or => "||"
  | and => "&&"
  | equal => "=="
  | notEqual => "!="
  | lessOrEqual => "<="
  | lessThan => "<"
  | greaterOrEqual => ">="
  | greaterThan => ">"
  | add => "+"
  | sub => "-"
  | mul => "*"
  | div => "/"
  | mod => "%"

end Stencil
