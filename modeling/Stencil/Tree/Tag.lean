import Stencil.Tree.Operator

/-!
# Tags

The tag of a node names its kind. In the exchange format (`Stencil.Tree.Wire`) it is a number, in
messages a word in capitals.
-/

namespace Stencil

/-- The kind of a node. -/
inductive Tag where
  | binary (op : BinaryOp)
  | unary (op : UnaryOp)
  | bool (b : Bool)
  | null
  | int
  | decimal
  | string
  | ternary
  | selector
  | call
  | map
  | statements
  | importFile
  | conditional
  | binding
  | loop
  | macroDef
  deriving Repr, DecidableEq

namespace Tag

/-- All tags, in the order of their numbers. -/
def all : List Tag :=
  BinaryOp.all.map binary ++
    [unary .negate, unary .not, bool true, bool false, null, int, decimal, string, ternary,
      selector, call, map, statements, importFile, conditional, binding, loop, macroDef]

/-- The number of a tag. -/
def code : Tag → Nat
  | binary .or => 1
  | binary .and => 2
  | binary .equal => 3
  | binary .notEqual => 4
  | binary .lessOrEqual => 5
  | binary .lessThan => 6
  | binary .greaterOrEqual => 7
  | binary .greaterThan => 8
  | binary .add => 9
  | binary .sub => 10
  | binary .mul => 11
  | binary .div => 12
  | binary .mod => 13
  | unary .negate => 14
  | unary .not => 15
  | bool true => 16
  | bool false => 17
  | null => 18
  | int => 101
  | decimal => 102
  | string => 103
  | ternary => 104
  | selector => 105
  | call => 106
  | map => 107
  | statements => 108
  | importFile => 109
  | conditional => 1000
  | binding => 1001
  | loop => 1002
  | macroDef => 1003

/-- The tag of a number. -/
def ofCode? (n : Int) : Option Tag :=
  all.find? fun t => (t.code : Int) == n

/-- The word for a tag. -/
def name : Tag → String
  | binary .or => "OR"
  | binary .and => "AND"
  | binary .equal => "EQUAL"
  | binary .notEqual => "NOT_EQUAL"
  | binary .lessOrEqual => "LESS_OR_EQUAL"
  | binary .lessThan => "LESS_THAN"
  | binary .greaterOrEqual => "GREATER_OR_EQUAL"
  | binary .greaterThan => "GREATER_THAN"
  | binary .add => "ADD"
  | binary .sub => "SUB"
  | binary .mul => "MUL"
  | binary .div => "DIV"
  | binary .mod => "MOD"
  | unary .negate => "NEGATE"
  | unary .not => "NOT"
  | bool true => "TRUE"
  | bool false => "FALSE"
  | null => "NULL"
  | int => "INT"
  | decimal => "DOUBLE"
  | string => "STRING"
  | ternary => "TERNARY"
  | selector => "SELECTOR"
  | call => "CALL"
  | map => "MAP"
  | statements => "STATEMENTS"
  | importFile => "IMPORT"
  | conditional => "IF"
  | binding => "VAR"
  | loop => "FOR"
  | macroDef => "MACRO"

/-- How the operator of a tag is written, if it has two operands. -/
def symbol? : Tag → Option String
  | binary op => some op.symbol
  | _ => none

/-- How many children a node of the tag has in the exchange format. -/
def childCounts : Tag → List Nat
  | bool _ | null => [0]
  | int | decimal | string | unary _ | selector | map | statements | importFile | conditional =>
    [1]
  | binary _ | binding => [2]
  | ternary => [2, 3]
  | call | loop | macroDef => [3]

end Tag

end Stencil
