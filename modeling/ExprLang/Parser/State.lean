import ExprLang.Parser.Event
import ExprLang.Token.Stream

/-!
# The state of a parser

A parser reads a token stream and sees two tokens of it: the current one and the one behind it. It
counts the expressions that it is inside of, and keeps what it has recorded, newest first, so that
recording never changes what was recorded before.
-/

set_option autoImplicit false

namespace ExprLang

/-- The number of expressions that may be open inside one another. -/
def maxNestingDepth : Nat := 64

/-- The choices that the language leaves. -/
structure Options where
  /-- Whether bindings and results must end in a semicolon. -/
  requireSemicolons : Bool := false
  deriving DecidableEq, Repr

/-- A parser at work. -/
structure Parser where
  stream : TokenStream
  options : Options
  /-- The number of expressions being parsed, each inside the one before. -/
  depth : Nat
  /-- The errors so far, newest first. -/
  recorded : List Diagnostic
  /-- The events so far, newest first. -/
  journal : List Event

namespace Parser

/-- The parser at the first token of a stream. -/
def start (stream : TokenStream) (options : Options) : Parser := ⟨stream, options, 0, [], []⟩

/-- The parser at the first token of a source. -/
def ofSource (source : String) (file : Option String) (options : Options) : Parser :=
  start (.ofSource source (file.getD defaultFile)) options

/-- The token under the cursor. -/
def current (p : Parser) : Token := p.stream.current

/-- The token behind the current one. -/
def peek (p : Parser) : Token := p.stream.peek

/-- The number of tokens from the current one on, the end of the source not counted. -/
def tokensLeft (p : Parser) : Nat := p.stream.ahead.length

/-- The position of the current token. -/
def position (p : Parser) : Position := p.current.span.start

/-- The errors so far, in the order in which they were recorded. -/
def errors (p : Parser) : List Diagnostic := p.recorded.reverse

/-- The events so far, in the order in which they happened. -/
def log (p : Parser) : List Event := p.journal.reverse

/-! ## Operations that cannot fail -/

/-- Moves the cursor to the next token. -/
def advance (p : Parser) : Parser := { p with stream := p.stream.advance }

/-- Moves the cursor to the next token if that is of the given kind. -/
def skip (kind : Kind) (p : Parser) : Parser := if p.peek.kind = kind then p.advance else p

/-- Logs an event. -/
def note (event : Event) (p : Parser) : Parser := { p with journal := event :: p.journal }

/-- Records an error, and logs it. -/
def recordAt (fault : Fault) (position : Position) (p : Parser) : Parser :=
  { p with
    recorded := ⟨fault, position⟩ :: p.recorded
    journal := .recorded ⟨fault, position⟩ :: p.journal }

/-- Records an error at the current token. -/
def record (fault : Fault) (p : Parser) : Parser := p.recordAt fault p.position

/-- Enters an expression. -/
def deepen (p : Parser) : Parser := { p with depth := p.depth + 1 }

/-- Leaves an expression; outside of all expressions it has no effect. -/
def leave (p : Parser) : Parser := { p with depth := p.depth - 1 }

end Parser

end ExprLang
