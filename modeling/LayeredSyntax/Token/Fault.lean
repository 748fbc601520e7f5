/-
  LEXICAL FAULTS — why a piece of a text could not be read.

  An error token does not say what is wrong with it; its text and the layer that it was read in do.
  The causes are tried in order: a region without closer, a string, a comment, a name that is too
  long, and at last a single character or anything else.
-/
import LayeredSyntax.Journal.Event
import LayeredSyntax.Token.Tokenize

namespace LayeredSyntax

/-- Why a token could not be read. -/
inductive LexicalCause where
  | invalidCharacter (character : Char)
  | malformedToken (text : String)
  | unterminatedString
  | unterminatedComment
  | unterminatedRegion
  | nameTooLong (length : Nat)
  | stringTooLarge (size : Nat)
  | tooManyTokens
deriving DecidableEq, Inhabited, Repr

namespace LexicalCause

/-- The code under which a cause is reported. -/
def code : LexicalCause → Code
  | invalidCharacter _ | malformedToken _ => .invalidCharacter
  | unterminatedString => .unterminatedString
  | unterminatedComment => .unterminatedComment
  | unterminatedRegion => .unterminatedRegion
  | nameTooLong _ => .nameTooLong
  | stringTooLarge _ => .stringTooLarge
  | tooManyTokens => .tooManyTokens

/-- What is said about a cause. -/
def message [Limits] : LexicalCause → String
  | invalidCharacter c => s!"Invalid character '{c}'"
  | malformedToken text => s!"Malformed token '{text}'"
  | unterminatedString => "Unterminated string literal"
  | unterminatedComment => "Unterminated block comment"
  | unterminatedRegion => "Unterminated embedded region"
  | nameTooLong length =>
    s!"Identifier too long: {length} characters (max {Limits.nameLength})"
  | stringTooLarge size => s!"String too large: {size} bytes (max {Limits.stringSize})"
  | tooManyTokens =>
    s!"Too many tokens (max {Limits.tokens}); remaining input not tokenized"

end LexicalCause

/-- A piece of a text that could not be read, and why. -/
structure LexicalFault where
  cause : LexicalCause
  span : Span
deriving DecidableEq, Inhabited, Repr

variable [Limits]

/-- Whether a text is a string literal that was closed but takes too many bytes. -/
def isOversizedString (text : String) : Bool :=
  text.toList.getLast? == some '"' && Limits.stringSize < text.utf8ByteSize

/-- Why an error token could not be read; `overflow` marks the one that stands for the rest of a
    text with too many tokens. -/
def Token.cause (t : Token) (overflow : Bool) : LexicalCause :=
  let cs := t.text.toList
  if overflow then .tooManyTokens
  else if t.mode.layer = .raw then .unterminatedRegion
  else if startsWith "\"" cs then
    if isOversizedString t.text then .stringTooLarge t.text.utf8ByteSize else .unterminatedString
  else if startsWith "/*" cs then .unterminatedComment
  else if Limits.nameLength < cs.length then .nameTooLong cs.length
  else
    match cs with
    | [c] => .invalidCharacter c
    | _ => .malformedToken t.text

/-- The fault that an error token stands for. -/
def Token.fault (t : Token) (overflow : Bool) : LexicalFault := ⟨t.cause overflow, t.span⟩

/-- Whether the token at an index stands for the rest of a text with too many tokens. -/
def isOverflow (tokens : Array Token) (index : Nat) : Bool :=
  Limits.tokens ≤ tokens.size && index + 1 == tokens.size

/-- **The faults of a list of tokens**, one for each error token. -/
def lexicalFaults (tokens : Array Token) : List LexicalFault :=
  (tokens.toList.zipIdx.filter fun p => p.1.kind == .error).map fun p =>
    p.1.fault (isOverflow tokens p.2)

end LayeredSyntax
