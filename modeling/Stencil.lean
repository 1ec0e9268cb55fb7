import Stencil.Command.Arguments
import Stencil.Command.Run
import Stencil.Config.Basic
import Stencil.Config.Path
import Stencil.Config.Setting
import Stencil.Config.Toml
import Stencil.Grammar.Expression
import Stencil.Grammar.Literal
import Stencil.Grammar.Parse
import Stencil.Grammar.Source
import Stencil.Grammar.Template
import Stencil.Json.Number
import Stencil.Json.Printer
import Stencil.Json.Reader
import Stencil.Json.Value
import Stencil.Lexer.Cursor
import Stencil.Lexer.Matcher
import Stencil.Lexer.Scan
import Stencil.Lexer.Standard
import Stencil.Main
import Stencil.Number.Binary64
import Stencil.Output.Fingerprint
import Stencil.Output.Outline
import Stencil.Output.PseudoSource
import Stencil.Output.Registry
import Stencil.Output.TokenList
import Stencil.Pattern.Basic
import Stencil.Pattern.CharSet
import Stencil.Pattern.Reader
import Stencil.Proofs.CommentExact
import Stencil.Proofs.ChainExact
import Stencil.Proofs.ClauseExact
import Stencil.Proofs.ConstructExact
import Stencil.Proofs.CursorStream
import Stencil.Proofs.DecimalText
import Stencil.Proofs.Exchange
import Stencil.Proofs.ExpressionExact
import Stencil.Proofs.ExpressionGrammar
import Stencil.Proofs.Matching
import Stencil.Proofs.Numeral
import Stencil.Proofs.ParseRun
import Stencil.Proofs.ParsedShape
import Stencil.Proofs.RoundTrip
import Stencil.Proofs.TemplateExact
import Stencil.Proofs.TemplateGrammar
import Stencil.Proofs.Tiling
import Stencil.Proofs.TreeShape
import Stencil.Text.Blank
import Stencil.Text.Digit
import Stencil.Text.Escape
import Stencil.Text.Folding
import Stencil.Text.Hidden
import Stencil.Text.Lines
import Stencil.Text.Numeral
import Stencil.Text.Quoted
import Stencil.Text.Range
import Stencil.Text.Word
import Stencil.Token.Basic
import Stencil.Token.Kind
import Stencil.Token.Source
import Stencil.Token.Table
import Stencil.Token.Transition
import Stencil.Tree.Decimal
import Stencil.Tree.Document
import Stencil.Tree.Node
import Stencil.Tree.Operator
import Stencil.Tree.Tag
import Stencil.Tree.Wire
import Stencil.Yaml.Reader
import Stencil.Yaml.Scalar
import Stencil.Proofs.CursorRequests
import Stencil.Proofs.FirstMatch
import Stencil.Proofs.Lockstep
import Stencil.Proofs.LockstepExpression
import Stencil.Proofs.LockstepTemplate
import Stencil.Proofs.InStep
import Stencil.Proofs.Settled
import Stencil.Proofs.SourceRun
import Stencil.Proofs.StandardScan
import Stencil.Proofs.CommentText
import Stencil.Proofs.Concatenation
import Stencil.Proofs.CollectedTokens
import Stencil.Proofs.Refusal
import Stencil.Proofs.ExpressionViable
import Stencil.Proofs.ClauseViable
import Stencil.Proofs.TemplateViable
import Stencil.Proofs.EarliestRefusal
import Stencil.Proofs.NumberText
import Stencil.Proofs.Respelling
import Stencil.Proofs.TextItems
import Stencil.Proofs.TextOrder
import Stencil.Proofs.TextSlices
import Stencil.Proofs.Placement
import Stencil.Proofs.StringLiteral
import Stencil.Proofs.WordBoundary
import Stencil.Proofs.JsonCanonical
import Stencil.Proofs.JsonReadBack
import Stencil.Proofs.Serialized
import Stencil.Proofs.BlockScan
import Stencil.Proofs.LiteralText
import Stencil.Proofs.DecimalFormat
import Stencil.Proofs.DecimalDigits
import Stencil.Proofs.Deparsed
import Stencil.Proofs.SiblingOrder
import Stencil.Proofs.LeafSum
import Stencil.Proofs.LineBreaks
import Stencil.Proofs.DerivedTree
import Stencil.Proofs.OutlineRows
import Stencil.Proofs.OutlineLines
import Stencil.Proofs.Excerpt
import Stencil.Proofs.ErrorExcerpt
import Stencil.Proofs.PieceLayout
import Stencil.Proofs.Indentation
