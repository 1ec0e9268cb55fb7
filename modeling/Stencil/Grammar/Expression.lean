import Stencil.Grammar.Literal
import Stencil.Grammar.Parse
import Stencil.Tree.Node

/-!
# Expressions

The grammar of expressions, lowest precedence first:

```
ternary         or ("?" ternary (":" ternary)?)?
or              and ("or" and)*
and             equality ("and" equality)*
equality        relational (("is" | "isNot") relational)*
relational      additive (("<=" | "<" | ">=" | ">") additive)*
additive        multiplicative (("+" | "-") multiplicative)*
multiplicative  unary (("*" | "/" | "mod") unary)*
unary           "not" unary | "+" unary | primary
primary         "-"? simple ("." word | "[" ternary "]" | "(" arguments ")")*
simple          literal | map | name | "(" ternary ")"
```

The parsers below take the parser for whole expressions as an argument; `expressionWithin` ties the
knot. It counts how deep expressions nest, and since every level takes a token before it opens the
next one, a number above the number of tokens is always enough.
-/

namespace Stencil.Grammar

open Parse

/-- The operators of a level of precedence, by the kinds of their tokens. -/
abbrev Operators := List (TokenKind × BinaryOp)

/-- The operators that compare for equality. -/
def equalityOps : Operators :=
  [(.equal, .equal), (.notEqual, .notEqual)]

/-- The operators that compare by order. -/
def relationalOps : Operators :=
  [(.lessOrEqual, .lessOrEqual), (.lessThan, .lessThan), (.greaterOrEqual, .greaterOrEqual),
    (.greaterThan, .greaterThan)]

/-- The operators that add. -/
def additiveOps : Operators :=
  [(.plus, .add), (.minus, .sub)]

/-- The operators that multiply. -/
def multiplicativeOps : Operators :=
  [(.star, .mul), (.slash, .div), (.mod, .mod)]

/-- Takes the next token if it is one of the operators. -/
def acceptOperator (ops : Operators) : Parse (Option BinaryOp) := do
  match ops.lookup (← peek).kind with
  | none => return none
  | some op =>
    let _ ← advance
    return some op

/-- Operands with operators of one level between them, grouped to the left. -/
def binaryLevel (ops : Operators) (operand : Parse Node) : Parse Node := do
  let first ← operand
  iterate (fun left => do
    match ← acceptOperator ops with
    | none => return none
    | some op => return some (.binary op left (← operand))) first

/-- The binary levels from multiplication up to disjunction. -/
def binaryLevels (unary : Parse Node) : Parse Node :=
  let multiplicative := binaryLevel multiplicativeOps unary
  let additive := binaryLevel additiveOps multiplicative
  let relational := binaryLevel relationalOps additive
  let equality := binaryLevel equalityOps relational
  let conjunction := binaryLevel [(.and, .and)] equality
  binaryLevel [(.or, .or)] conjunction

/-- Negations and plus signs before a primary expression, at most `fuel` of them. A plus sign
leaves no trace. -/
def unaryUpTo (primary : Parse Node) : Nat → Parse Node
  | 0 => primary
  | fuel + 1 => do
    if ← accept .not then return .unary .not (← unaryUpTo primary fuel)
    else if ← accept .plus then unaryUpTo primary fuel
    else primary

/-- Negations and plus signs before a primary expression. -/
def unary (primary : Parse Node) : Parse Node :=
  bound fun n => unaryUpTo primary n

/-- A name after a dot; keywords will do. -/
def propertyName : Parse String := do
  if (← peek).kind.isWord then return (← advance).text else reject "property name"

/-- Arguments up to and with the closing bracket. -/
def arguments (expression : Parse Node) : Parse (List Node) := do
  if ← accept .rightParen then return []
  let args ← commaList expression
  let _ ← expect .rightParen
  return args

/-- A call of what has been read so far: the last step of its path names the function, the steps
before it are the target. -/
def call (expression : Parse Node) (callee : Node) : Parse Node := do
  match callee with
  | .selector path =>
    match path.getLast? with
    | some name =>
      let _ ← expect .leftParen
      let args ← arguments expression
      let target := path.dropLast
      return .call (if target.isEmpty then none else some (.selector target)) name args
    | none => reject "a selector before \"(\""
  | _ => reject "a selector before \"(\""

/-- One further step after a simple expression: a property, an index or a call. -/
def postfixStep (expression : Parse Node) (node : Node) : Parse (Option Node) := do
  if ← accept .dot then
    return some (node.step (.name (← propertyName)))
  else if ← accept .leftBracket then
    if ← isNext .rightBracket then reject "index expression"
    let index ← expression
    let _ ← expect .rightBracket
    return some (node.step (.expr index))
  else if ← isNext .leftParen then
    return some (← call expression node)
  else
    return none

/-- The key that an expression before a colon stands for. -/
def mapKey? : Node → Option String
  | .string s => some s
  | .int n => some (Text.intText n)
  | .selector [.name s] => some s
  | _ => none

/-- An entry of a map, with or without a key. -/
def mapEntry (expression : Parse Node) : Parse Entry := do
  let first ← expression
  if ← isNext .colon then
    match mapKey? first with
    | some key =>
      let _ ← advance
      return .mk (some key) (← expression)
    | none => reject "string, integer or name as map key"
  else
    return .mk none first

/-- A map after its opening bracket. -/
def mapLiteral (expression : Parse Node) : Parse Node := do
  if ← accept .rightBracket then return .map []
  let entries ← commaList (mapEntry expression)
  let _ ← expect .rightBracket
  return .map entries

/-- The node of a token that is an expression by itself. -/
def leaf (node : Node) : Parse Node := do
  let _ ← advance
  return node

/-- A literal, a map, a name, or an expression in round brackets. -/
def simple (expression : Parse Node) : Parse Node := do
  let t ← peek
  match t.kind with
  | .nullWord => leaf .null
  | .trueWord => leaf (.bool true)
  | .falseWord => leaf (.bool false)
  | .int =>
    match Text.grouped? t.text.toList with
    | some n => leaf (.int n)
    | none => reject TokenKind.int.description
  | .double =>
    match Decimal.ofText? t.text with
    | some d => leaf (.decimal d)
    | none => reject TokenKind.double.description
  | .string => leaf (.string (unquote t.text))
  | .identifier | .thisWord | .selfWord | .globalWord => leaf (Node.ofName t.text)
  | .leftBracket =>
    let _ ← advance
    mapLiteral expression
  | .leftParen =>
    let _ ← advance
    let inner ← expression
    let _ ← expect .rightParen
    return inner
  | _ => reject "expression"

/-- A simple expression with its properties, indices and calls. A minus sign negates the whole. -/
def primary (expression : Parse Node) : Parse Node := do
  let negated ← accept .minus
  let first ← simple expression
  let node ← iterate (postfixStep expression) first
  return if negated then .unary .negate node else node

/-- A whole expression. -/
def ternary (expression : Parse Node) : Parse Node := do
  let condition ← binaryLevels (unary (primary expression))
  if ← accept .question then
    let positive ← expression
    if ← accept .colon then
      return .ternary condition positive (some (← expression))
    return .ternary condition positive none
  return condition

/-- An expression whose parts nest less deep than the given number. The parser of the parts is made
only once it is needed. -/
def expressionWithin : Nat → Parse Node
  | 0 => reject "expression"
  | depth + 1 => later fun () => ternary (expressionWithin depth)

/-- An expression. -/
def expression : Parse Node :=
  bound expressionWithin

/-- A bare expression: nothing may follow it but the end of a block. -/
def bareExpression : Parse Node := do
  let node ← expression
  let _ ← accept .blockClose
  unless ← isNext .eof do reject "\"\x7d\x7d\" or end of input"
  return node

end Stencil.Grammar
