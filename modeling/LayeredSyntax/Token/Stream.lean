/-
  TOKEN STREAMS — tokens as a grammar sees them.

  A grammar does not see trivia.  It addresses the other tokens by their POSITION, counted without
  trivia; the position behind the last one stands for the end of the text.  The trivia stay in the
  stream, for whatever is built over a stretch of it has to give them a place: the trivia of a
  position are those directly in front of it (`leadingTrivia`).
-/
import LayeredSyntax.Token.Metrics

namespace LayeredSyntax

/-- The tokens of a document. -/
structure TokenStream where
  document : Document
  /-- All tokens in order, with trivia. -/
  tokens : Array Token
  /-- Where the tokens that are no trivia stand among all tokens. -/
  significant : Array Nat
deriving Inhabited

/-- The indices of the tokens that are no trivia, counted from `index` on. -/
def significantFrom (done : Array Nat) (index : Nat) : List Token → Array Nat
  | [] => done
  | t :: ts => significantFrom (if t.isTrivia then done else done.push index) (index + 1) ts

namespace TokenStream

/-- The stream of a list of tokens. -/
def ofTokens (document : Document) (tokens : Array Token) : TokenStream :=
  ⟨document, tokens, significantFrom #[] 0 tokens.toList⟩

/-- Read a document into a stream. -/
def read [Limits] (m : Mode) (document : Document) : TokenStream :=
  ofTokens document (tokenize m document.text)

/-- How many positions there are, the end not counted. -/
def size (s : TokenStream) : Nat := s.significant.size

/-- Whether there is no position but the end. -/
def isEmpty (s : TokenStream) : Bool := s.significant.isEmpty

/-- The token of a position; nothing at the end. -/
def get? (s : TokenStream) (p : Nat) : Option Token := do
  let index ← s.significant[p]?
  s.tokens[index]?

/-- Where the token of a position stands among all tokens. -/
def tokenIndex (s : TokenStream) (p : Nat) : Nat := s.significant[p]?.getD s.tokens.size

/-- The text of a position; empty at the end. -/
def text (s : TokenStream) (p : Nat) : String := ((s.get? p).map (·.text)).getD ""

/-- Where the token of a position begins; at the end, the size of the text. -/
def startByte (s : TokenStream) (p : Nat) : Nat := ((s.get? p).map Token.start).getD s.document.size

/-- Where the token of a position ends; at the end, the size of the text. -/
def stopByte (s : TokenStream) (p : Nat) : Nat := ((s.get? p).map Token.stop).getD s.document.size

/-- The span from one position up to before another one; an empty range lies in front of its
    position. -/
def span (s : TokenStream) (first stop : Nat) : Span :=
  if stop ≤ first then s.document.span (s.startByte first) (s.startByte first)
  else s.document.span (s.startByte first) (s.stopByte (stop - 1))

/-- How many indices ahead stand for tokens that begin before a byte. -/
def countBefore (s : TokenStream) (byte n : Nat) : List Nat → Nat
  | [] => n
  | i :: is =>
    if ((s.tokens[i]?.map Token.start).getD 0) < byte then s.countBefore byte (n + 1) is else n

/-- The first position whose token does not begin before a byte. -/
def positionAtByte (s : TokenStream) (byte : Nat) : Nat :=
  s.countBefore byte 0 s.significant.toList

/-- The indices of the trivia directly in front of a position: from the first one up to before the
    second one. -/
def leadingTrivia (s : TokenStream) (p : Nat) : Nat × Nat :=
  (if p = 0 then 0 else s.tokenIndex (p - 1) + 1, s.tokenIndex p)

/-- The trivia directly in front of a position. -/
def triviaBefore (s : TokenStream) (p : Nat) : List Token :=
  let (first, stop) := s.leadingTrivia p
  (s.tokens.extract first stop).toList

/-- The tokens that are no trivia. -/
def significantTokens (s : TokenStream) : List Token :=
  s.significant.toList.filterMap fun i => s.tokens[i]?

/-- How many error tokens there are. -/
def errorCount (s : TokenStream) : Nat := s.tokens.toList.countP (·.kind == .error)

/-- A dump of the tokens that are no trivia. -/
def dump (s : TokenStream) : String :=
  let lines := s.significantTokens.zipIdx.map fun p =>
    s!"  [{p.2}] {p.1.kind.name} " ++ quoted p.1.text ++ s!" @{p.1.start}\n"
  s!"TokenStream: {s.tokens.size} tokens, {s.size} significant\n" ++ String.join lines

/-- The event of building a stream. -/
def event [Limits] (s : TokenStream) : Event :=
  (Event.debug "Token stream built")
    |>.withCount "total_tokens" s.tokens.size
    |>.withCount "significant_tokens" s.size

end TokenStream

end LayeredSyntax
