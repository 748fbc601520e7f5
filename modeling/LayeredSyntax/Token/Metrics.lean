/-
  METRICS — what tokenizing a text has counted, and what it tells about itself.

  Both are read off the list of tokens afterwards, so tokenizing itself counts nothing.
-/
import LayeredSyntax.Settings.Basic
import LayeredSyntax.Token.Fault

namespace LayeredSyntax

/-- Counts over a list of tokens. -/
structure TokenMetrics where
  total : Nat
  trivia : Nat
  commands : Nat
  /-- Names and instance variables. -/
  names : Nat
  operators : Nat
  errors : Nat
  /-- Openers of embedded regions. -/
  regions : Nat
  /-- Bytes of the largest string literal. -/
  largestString : Nat
  /-- How often each kind occurs, without the kinds that do not. -/
  counts : List (TokenKind × Nat)
  /-- Where the first error tokens begin. -/
  errorOffsets : List Nat
deriving DecidableEq, Inhabited, Repr

/-- Count tokens.  Kinds and offsets are collected only when the settings ask for them. -/
def TokenMetrics.of [Limits] (settings : LexicalSettings) (tokens : Array Token) : TokenMetrics :=
  let ts := tokens.toList
  let count := fun (p : TokenKind → Bool) => ts.countP fun t => p t.kind
  let kindCounts := TokenKind.all.map fun k => (k, count (· == k))
  let offsets := (ts.filter (·.kind == .error)).map Token.start
  { total := ts.length
    trivia := count TokenKind.isTrivia
    commands := count (· == .command)
    names := count fun k => k == .identifier || k == .instanceVariable
    operators := count (· == .operator)
    errors := count (· == .error)
    regions := count (· == .embedOpen)
    largestString := ((ts.filter (·.kind == .string)).map Token.size).foldl max 0
    counts := if settings.countKinds then kindCounts.filter (·.2 != 0) else []
    errorOffsets := if settings.countKinds then offsets.take Limits.errorOffsets else [] }

/-! ## What tokenizing tells -/

/-- The name of a layer in a journal. -/
def Layer.name : Layer → String
  | .udl => "Udl"
  | .core => "Core"
  | .expr => "Expr"
  | .raw => "Raw"

/-- The event of one token, if it has one: too many tokens always, other errors on demand. -/
def tokenEvent? [Limits] (settings : LexicalSettings) (overflow : Bool) (t : Token) :
    Option Event :=
  if t.kind ≠ .error then none
  else if overflow then
    some ((Event.error .tooManyTokens "Token limit reached").about t.span
      |>.withCount "limit" Limits.tokens)
  else if settings.reportErrors then
    let cause := t.cause false
    some ((Event.error cause.code cause.message).about t.span)
  else none

/-- The events of tokenizing a text of `size` bytes from a mode. -/
def tokenizeEvents [Limits] (settings : LexicalSettings) (m : Mode) (size : Nat)
    (tokens : Array Token) : List Event :=
  let metrics := TokenMetrics.of settings tokens
  let start := (Event.debug "Starting lexical analysis")
    |>.withCount "bytes" size
    |>.withValue "layer" m.layer.name
    |>.withCount "max_tokens_allowed" Limits.tokens
  let finish := (Event.success .tokensRead "Lexical analysis completed")
    |>.withCount "tokens" metrics.total
    |>.withCount "commands" metrics.commands
    |>.withCount "errors" metrics.errors
  let perToken := tokens.toList.zipIdx.filterMap fun p =>
    tokenEvent? settings (isOverflow tokens p.2) p.1
  start :: perToken ++ [finish]

end LayeredSyntax
