import ExprLang.Parser.Parse
import ExprLang.Token.Lexer
import ExprLang.Tree.Equality
import ExprLang.Tree.Value
import ExprLang.Proofs.Parser.Clean
import ExprLang.Proofs.Parser.CleanRules
import ExprLang.Proofs.Grammar.Derivation
import ExprLang.Proofs.Grammar.Soundness
import ExprLang.Proofs.Grammar.Kinds
import ExprLang.Proofs.Grammar.Completeness
import ExprLang.Proofs.Token.Scanning
import ExprLang.Proofs.Tree.Erasure
import ExprLang.Proofs.Tree.WellFormed
import ExprLang.Proofs.Rendering.Tokens
import ExprLang.Proofs.Rendering.Nesting
import ExprLang.Proofs.Parser.Exact
import ExprLang.Proofs.Rendering.Readable
import ExprLang.Proofs.Rendering.Statements
import ExprLang.Proofs.Rendering.Reading
import ExprLang.Proofs.Grammar.WellFormed
import ExprLang.Proofs.Rendering.Reparse
import ExprLang.Proofs.Token.Tiling
import ExprLang.Proofs.Token.LongestMatch
import ExprLang.Proofs.Token.Concatenation
import ExprLang.Proofs.Token.Junction
import ExprLang.Proofs.Token.FreePosition
import ExprLang.Proofs.Parser.SpareFuel
import ExprLang.Proofs.Tree.Relocation
import ExprLang.Proofs.Parser.Lockstep
import ExprLang.Proofs.Parser.Elsewhere
import ExprLang.Proofs.Parser.Segment
import ExprLang.Proofs.Recovery.Semicolon
import ExprLang.Proofs.Parser.Conditional
import ExprLang.Proofs.Parser.Origin
import ExprLang.Proofs.Recovery.Block
import ExprLang.Proofs.Diagnostic.Description
import ExprLang.Proofs.Diagnostic.Order
import ExprLang.Proofs.Diagnostic.Coverage
import ExprLang.Proofs.Diagnostic.Account
import ExprLang.Proofs.Parser.Layout
import ExprLang.Proofs.Parser.Coupling
import ExprLang.Proofs.Parser.Leniency
import ExprLang.Proofs.Parser.Window
import ExprLang.Proofs.Parser.Building
import ExprLang.Proofs.Rendering.Decoder
import ExprLang.Proofs.Rendering.Decoding
import ExprLang.Proofs.Parser.Assembly
import ExprLang.Proofs.Tree.Chain
import ExprLang.Proofs.Parser.Chain
import ExprLang.Proofs.Tree.Path
import ExprLang.Proofs.Parser.Depth
import ExprLang.Proofs.Tree.Entries
import ExprLang.Proofs.Parser.TokenOrder
import ExprLang.Proofs.Parser.Locality
import ExprLang.Proofs.Parser.Termination
import ExprLang.Proofs.Parser.Lookahead
import ExprLang.Proofs.Parser.Balance
import ExprLang.Proofs.Tree.Node
import ExprLang.Proofs.Parser.Proper
import ExprLang.Proofs.Diagnostic.Numbers
import ExprLang.Proofs.Source.Lines
import ExprLang.Proofs.Diagnostic.Caret
import ExprLang.Proofs.Diagnostic.Log
