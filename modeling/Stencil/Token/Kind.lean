/-!
# Kinds of tokens

A token kind has three texts: the name by which token tables refer to it, the label under which
tokens are displayed, and the description that syntax errors use.
-/

namespace Stencil

/-- The kind of a token. Word and symbol spellings of an operator share a kind. -/
inductive TokenKind where
  /-- Text that no definition recognises. -/
  | fragment
  /-- The end of the source. -/
  | eof
  | commentOpen
  | commentClose
  | literalOpen
  | literalClose
  | blockOpen
  | blockClose
  | whitespace
  | varWord
  | macroWord
  | forWord
  | inWord
  | ifWord
  | elseIfWord
  | elseWord
  | callWord
  | importWord
  | nullWord
  | trueWord
  | falseWord
  | thisWord
  | selfWord
  | globalWord
  | or
  | and
  | not
  | equal
  | notEqual
  | lessOrEqual
  | lessThan
  | greaterOrEqual
  | greaterThan
  | plus
  | minus
  | star
  /-- Division inside an expression, the close mark right after the opening of a block. -/
  | slash
  | mod
  | question
  | colon
  | comma
  | dot
  | leftParen
  | rightParen
  | leftBracket
  | rightBracket
  | assign
  | int
  | double
  | string
  | identifier
  deriving Repr, DecidableEq

namespace TokenKind

/-- All kinds. -/
def all : List TokenKind := [
    .fragment, .eof, .commentOpen, .commentClose, .literalOpen, .literalClose, .blockOpen,
    .blockClose, .whitespace, .varWord, .macroWord, .forWord, .inWord, .ifWord, .elseIfWord,
    .elseWord, .callWord, .importWord, .nullWord, .trueWord, .falseWord, .thisWord, .selfWord,
    .globalWord, .or, .and, .not, .equal, .notEqual, .lessOrEqual, .lessThan, .greaterOrEqual,
    .greaterThan, .plus, .minus, .star, .slash, .mod, .question, .colon, .comma, .dot, .leftParen,
    .rightParen, .leftBracket, .rightBracket, .assign, .int, .double, .string, .identifier]

/-- The name of the kind in a token table. -/
def name : TokenKind → String
  | fragment => "fragment"
  | eof => "eof"
  | commentOpen => "comment-open"
  | commentClose => "comment-close"
  | literalOpen => "literal-open"
  | literalClose => "literal-close"
  | blockOpen => "block-open"
  | blockClose => "block-close"
  | whitespace => "whitespace"
  | varWord => "var"
  | macroWord => "macro"
  | forWord => "for"
  | inWord => "in"
  | ifWord => "if"
  | elseIfWord => "else-if"
  | elseWord => "else"
  | callWord => "call"
  | importWord => "import"
  | nullWord => "null"
  | trueWord => "true"
  | falseWord => "false"
  | thisWord => "this"
  | selfWord => "self"
  | globalWord => "global"
  | or => "or"
  | and => "and"
  | not => "not"
  | equal => "equal"
  | notEqual => "not-equal"
  | lessOrEqual => "less-or-equal"
  | lessThan => "less-than"
  | greaterOrEqual => "greater-or-equal"
  | greaterThan => "greater-than"
  | plus => "plus"
  | minus => "minus"
  | star => "star"
  | slash => "slash"
  | mod => "mod"
  | question => "question"
  | colon => "colon"
  | comma => "comma"
  | dot => "dot"
  | leftParen => "left-paren"
  | rightParen => "right-paren"
  | leftBracket => "left-bracket"
  | rightBracket => "right-bracket"
  | assign => "assign"
  | int => "int"
  | double => "double"
  | string => "string"
  | identifier => "identifier"

/-- The label under which a token of the kind is displayed. -/
def label : TokenKind → String
  | fragment => "Fragment"
  | eof => "Eof"
  | commentOpen => "CommentOpen"
  | commentClose => "CommentClose"
  | literalOpen => "LiteralOpen"
  | literalClose => "LiteralClose"
  | blockOpen => "BlockOpen"
  | blockClose => "BlockClose"
  | whitespace => "Whitespace"
  | varWord => "Var"
  | macroWord => "Macro"
  | forWord => "For"
  | inWord => "In"
  | ifWord => "If"
  | elseIfWord => "ElseIf"
  | elseWord => "Else"
  | callWord => "Call"
  | importWord => "Import"
  | nullWord => "Null"
  | trueWord => "True"
  | falseWord => "False"
  | thisWord => "This"
  | selfWord => "SelfRef"
  | globalWord => "Global"
  | or => "Or"
  | and => "And"
  | not => "Not"
  | equal => "Equal"
  | notEqual => "NotEqual"
  | lessOrEqual => "LessOrEqual"
  | lessThan => "LessThan"
  | greaterOrEqual => "GreaterOrEqual"
  | greaterThan => "GreaterThan"
  | plus => "Plus"
  | minus => "Minus"
  | star => "Star"
  | slash => "Slash"
  | mod => "Mod"
  | question => "Question"
  | colon => "Colon"
  | comma => "Comma"
  | dot => "Dot"
  | leftParen => "LeftParen"
  | rightParen => "RightParen"
  | leftBracket => "LeftBracket"
  | rightBracket => "RightBracket"
  | assign => "Assign"
  | int => "Int"
  | double => "Double"
  | string => "String"
  | identifier => "Identifier"

/-- What a syntax error says when it expects the kind. -/
def description : TokenKind → String
  | fragment => "template text"
  | eof => "end of input"
  | commentOpen => "\"\x7b\x7b*\""
  | commentClose => "\"*\x7d\x7d\""
  | literalOpen => "\"\x7b\x7b%\""
  | literalClose => "\"%\x7d\x7d\""
  | blockOpen => "\"\x7b\x7b\""
  | blockClose => "\"\x7d\x7d\""
  | whitespace => "whitespace"
  | varWord => "\"var\""
  | macroWord => "\"macro\""
  | forWord => "\"for\""
  | inWord => "\"in\""
  | ifWord => "\"if\""
  | elseIfWord => "\"elseif\""
  | elseWord => "\"else\""
  | callWord => "\"call\""
  | importWord => "\"import\""
  | nullWord => "\"null\""
  | trueWord => "\"true\""
  | falseWord => "\"false\""
  | thisWord => "\"this\""
  | selfWord => "\"self\""
  | globalWord => "\"global\""
  | or => "\"or\""
  | and => "\"and\""
  | not => "\"not\""
  | equal => "\"is\""
  | notEqual => "\"isNot\""
  | lessOrEqual => "\"<=\""
  | lessThan => "\"<\""
  | greaterOrEqual => "\">=\""
  | greaterThan => "\">\""
  | plus => "\"+\""
  | minus => "\"-\""
  | star => "\"*\""
  | slash => "\"/\""
  | mod => "\"mod\""
  | question => "\"?\""
  | colon => "\":\""
  | comma => "\",\""
  | dot => "\".\""
  | leftParen => "\"(\""
  | rightParen => "\")\""
  | leftBracket => "\"[\""
  | rightBracket => "\"]\""
  | assign => "\"=\""
  | int => "integer"
  | double => "decimal"
  | string => "string"
  | identifier => "identifier"

/-- The kind with the given name in a token table. -/
def ofName? (name : String) : Option TokenKind :=
  all.find? (·.name == name)

/-- Whether a token of the kind can name a property after a dot: names and keywords can. -/
def isWord : TokenKind → Bool
  | varWord | macroWord | forWord | inWord | ifWord | elseIfWord | elseWord | callWord |
    importWord | nullWord | trueWord | falseWord | thisWord | selfWord | globalWord |
    identifier => true
  | _ => false

end TokenKind

end Stencil
