import Stencil.Lexer.Matcher

/-!
# The standard token table

The vocabulary of templates, context by context. In the block context the order matters: `isNot`
stands before `is`, a symbol of two characters before its first character, and decimals before
integers.
-/

namespace Stencil.Standard

/-- A word of the block context: a keyword, or an operator that is spelled as a word. It ends where
a word ends. -/
def word (kind : TokenKind) (spelling : String) : TokenDef :=
  ⟨.block, kind, .normal, spelling ++ "\\b", .stay⟩

/-- A symbol of the block context. -/
def symbol (kind : TokenKind) (pattern : String) : TokenDef :=
  ⟨.block, kind, .normal, pattern, .stay⟩

/-- A token of the block context that carries a value. -/
def value (kind : TokenKind) (pattern : String) : TokenDef :=
  ⟨.block, kind, .literal, pattern, .stay⟩

/-- What ends the text of a template. -/
def templateTable : TokenTable := [
    ⟨.template, .commentOpen, .normal, "\\\x7b\\\x7b\\*", .commentEnter⟩,
    ⟨.template, .literalOpen, .normal, "\\\x7b\\\x7b%", .literal⟩,
    ⟨.template, .blockOpen, .normal, "\\\x7b\\\x7b", .block⟩]

/-- What opens and closes comments inside a comment. -/
def commentTable : TokenTable := [
    ⟨.comment, .commentOpen, .normal, "\\\x7b\\\x7b\\*", .commentEnter⟩,
    ⟨.comment, .commentClose, .normal, "\\*\\\x7d\\\x7d", .commentLeave⟩]

/-- What ends a literal block. -/
def literalTable : TokenTable := [
    ⟨.literal, .literalClose, .normal, "%\\\x7d\\\x7d", .template⟩]

/-- The blanks inside a block, which are dropped, and the end of the block. -/
def layoutTable : TokenTable := [
    ⟨.block, .whitespace, .ignore, "\\s+", .stay⟩,
    ⟨.block, .blockClose, .normal, "\\\x7d\\\x7d", .template⟩]

/-- The words of the block context. -/
def wordTable : TokenTable := [
    word .varWord "var", word .macroWord "macro", word .forWord "for", word .inWord "in",
    word .ifWord "if", word .elseIfWord "elseif", word .elseWord "else", word .callWord "call",
    word .importWord "import", word .nullWord "null", word .trueWord "true",
    word .falseWord "false", word .thisWord "this", word .selfWord "self",
    word .globalWord "global", word .notEqual "isNot", word .equal "is", word .or "or",
    word .and "and", word .not "not", word .mod "mod"]

/-- The symbols of the block context. -/
def symbolTable : TokenTable := [
    symbol .or "\\|\\|", symbol .and "&&", symbol .equal "==", symbol .notEqual "!=",
    symbol .lessOrEqual "<=", symbol .greaterOrEqual ">=", symbol .lessThan "<",
    symbol .greaterThan ">", symbol .not "!", symbol .plus "\\+", symbol .minus "-",
    symbol .star "\\*", symbol .slash "/", symbol .mod "%", symbol .question "\\?",
    symbol .colon ":", symbol .comma ",", symbol .dot "\\.", symbol .leftParen "\\(",
    symbol .rightParen "\\)", symbol .leftBracket "\\[", symbol .rightBracket "\\]",
    symbol .assign "="]

/-- The values of the block context. -/
def valueTable : TokenTable := [
    value .double "\\d+\\.\\d+",
    value .int "\\d+",
    value .string "\"(?:[^\"\\\\]|\\\\(?s:.))*\"",
    value .string "'(?:[^'\\\\]|\\\\(?s:.))*'",
    value .identifier "[A-Za-z_$][A-Za-z0-9_$]*"]

/-- The standard token table. -/
def table : TokenTable :=
  templateTable ++ commentTable ++ literalTable ++ layoutTable ++ wordTable ++ symbolTable ++
    valueTable

/-- The compiled standard token table. -/
def lexicon : Except SetupError Lexicon :=
  Lexicon.compile table

end Stencil.Standard
