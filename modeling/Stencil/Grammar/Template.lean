import Stencil.Grammar.Expression

/-!
# Templates

A template is a sequence of text, comments, literal blocks and blocks. The body of a construct is
such a sequence too. It ends where a block opens with one of the words that the construct allows
there; that word is left for the construct, which goes on to its next part or checks that the right
construct is being closed.

`bodyWithin` counts how deep bodies nest. A construct takes tokens before it opens a body, so a
number above the number of tokens is always enough.
-/

namespace Stencil.Grammar

open Parse

/-- Passes over a comment with all comments inside it. -/
def skipComment : Parse Unit := do
  let _ ← expect .commentOpen
  let _ ← iterate (fun (depth : Nat) => do
    if depth = 0 then return none
    reach (.comment depth)
    match (← peek).kind with
    | .eof => reject TokenKind.commentClose.description
    | .commentOpen =>
      let _ ← advance
      return some (depth + 1)
    | .commentClose =>
      let _ ← advance
      return some (depth - 1)
    | _ =>
      let _ ← advance
      return some depth) 1

/-- The text of a literal block. -/
def literalBlock : Parse String := do
  let _ ← expect .literalOpen
  iterate (fun (text : String) => do
    match (← peek).kind with
    | .eof => reject TokenKind.literalClose.description
    | .literalClose =>
      let _ ← advance
      return none
    | _ => return some (text ++ (← advance).text)) ""

/-- A name that is bound here. -/
def boundName : Parse String := do
  return (← expect .identifier).text

/-- The end of a construct after the opening of its last block. -/
def closing (keyword : TokenKind) (name : String) : Parse Unit := do
  let expected := "\"\x7b\x7b/" ++ name ++ "\x7d\x7d\""
  expectAs .slash expected
  expectAs keyword expected
  expectAs .blockClose expected

/-- A parser for bodies, given the words that end the body. -/
abbrev Body := List TokenKind → Parse (List Item)

/-- `import "path"`. -/
def importBlock : Parse Node := do
  let _ ← expect .importWord
  let path ← expect .string
  let _ ← expect .blockClose
  return .importFile (unquote path.text)

/-- `var name = value`, or `var name` with a body that is the value. -/
def varBlock (body : Body) : Parse Node := do
  let _ ← expect .varWord
  let name ← boundName
  if ← accept .assign then
    let value ← expression
    let _ ← expect .blockClose
    return .binding name value
  expectAs .blockClose "\"=\" or \"\x7d\x7d\""
  let items ← body [.slash]
  closing .varWord "var"
  return .binding name (.statements items)

/-- The parameters of a macro, in brackets that may be missing. -/
def parameters : Parse (List String) := do
  unless ← accept .leftParen do return []
  if ← accept .rightParen then return []
  let params ← commaList boundName
  let _ ← expect .rightParen
  return params

/-- `macro name(parameters)` with its body. -/
def macroBlock (body : Body) : Parse Node := do
  let _ ← expect .macroWord
  let name ← boundName
  let params ← parameters
  let _ ← expect .blockClose
  let items ← body [.slash]
  closing .macroWord "macro"
  return .macroDef name params items

/-- `for value in collection`, or `for key : value in collection`, with its body and a body for the
empty collection after `else`. -/
def forBlock (body : Body) : Parse Node := do
  let _ ← expect .forWord
  let first ← boundName
  let names ← if ← accept .colon then pure [first, ← boundName] else pure [first]
  let _ ← expect .inWord
  let collection ← expression
  let _ ← expect .blockClose
  let items ← body [.slash, .elseWord]
  if ← accept .elseWord then
    let _ ← expect .blockClose
    let otherwise ← body [.slash]
    closing .forWord "for"
    return .loop names collection items (some otherwise)
  closing .forWord "for"
  return .loop names collection items none

/-- A condition with its body. -/
def arm (body : Body) : Parse Arm := do
  let condition ← expression
  let _ ← expect .blockClose
  return .mk condition (← body [.slash, .elseIfWord, .elseWord])

/-- `if condition` with its body, any number of `elseif` arms and at most one `else`, which is kept
as an arm with the condition true. -/
def ifBlock (body : Body) : Parse Node := do
  let _ ← expect .ifWord
  let first ← arm body
  let arms ← iterate (fun arms => do
    if ← accept .elseIfWord then return some ((← arm body) :: arms) else return none) [first]
  if ← accept .elseWord then
    let _ ← expect .blockClose
    let items ← body [.slash]
    closing .ifWord "if"
    return .conditional (Arm.mk (.bool true) items :: arms).reverse
  closing .ifWord "if"
  return .conditional arms.reverse

/-- `call name(arguments)` with a body, which becomes the last argument. -/
def callBlock (body : Body) : Parse Node := do
  let _ ← expect .callWord
  let name ← boundName
  let args ← if ← accept .leftParen then arguments expression else pure []
  let _ ← expect .blockClose
  let items ← body [.slash]
  closing .callWord "call"
  return .call none (.name name) (args ++ [.statements items])

/-- The inside of a block: a construct by its first word, or else an expression. -/
def block (body : Body) : Parse Node := do
  match (← peek).kind with
  | .varWord => varBlock body
  | .macroWord => macroBlock body
  | .forWord => forBlock body
  | .ifWord => ifBlock body
  | .callWord => callBlock body
  | .importWord => importBlock
  | _ =>
    let node ← expression
    let _ ← expect .blockClose
    return node

/-- One further element of a body, put before those already read. Nothing is left to read at the
end of the source, and where a block opens with a word that ends the body. -/
def bodyStep (body : Body) (stops : List TokenKind) (items : List Item) :
    Parse (Option (List Item)) := do
  reach .item
  match (← peek).kind with
  | .eof => return none
  | .commentOpen =>
    skipComment
    return some items
  | .literalOpen => return some (.text (← literalBlock) :: items)
  | .blockOpen =>
    let _ ← advance
    if stops.contains (← peek).kind then return none
    if ← accept .blockClose then return some items
    return some (.node (← block body) :: items)
  | .blockClose =>
    let _ ← advance
    return some items
  | .fragment => return some (.text (← advance).text :: items)
  | _ => reject "template text or \"\x7b\x7b\""

/-- A body whose constructs nest less deep than the given number. -/
def bodyWithin : Nat → Body
  | 0, _ => reject "template text or \"\x7b\x7b\""
  | depth + 1, stops => do
    let items ← iterate (bodyStep (bodyWithin depth) stops) []
    return items.reverse

/-- A whole template. -/
def template : Parse (List Item) :=
  bound fun n => bodyWithin n []

end Stencil.Grammar
