/-
  TOKENIZING — a whole text as a list of tokens.

  Tokens are read one behind the other from the start of the text to its end, each in the mode that
  the one before it left.  At the bound on their number the rest of the text becomes a single error
  token.  **Nothing of the text is lost**: the tokens lie side by side from the first byte to the
  last one (`checkTiling` tests it of any list of tokens).
-/
import LayeredSyntax.Token.Basic

namespace LayeredSyntax

/-! ## The tokens of a text -/

/-- The error token that takes the rest of a text when there are too many tokens. -/
def overflowToken (p : Position) (m : Mode) (cs : List Char) : Token :=
  ⟨.error, String.ofList cs, ⟨p, p.after cs⟩, m⟩

/-- Read on from a place until the text ends; `done` holds the tokens in front of the place. -/
def tokenizeFrom [Limits] (done : Array Token) (p : Position) (m : Mode) (cs : List Char) :
    Array Token :=
  if Limits.tokens ≤ done.size + 1 ∧ cs ≠ [] then done.push (overflowToken p m cs)
  else
    match h : Token.read? p m cs with
    | none => done
    | some s =>
      have := Token.read?_rest_lt h
      tokenizeFrom (done.push s.token) s.token.span.stop s.next s.rest
termination_by cs.length

/-- **The tokens of a text**, read from a mode. -/
def tokenize [Limits] (m : Mode) (text : String) : Array Token :=
  tokenizeFrom #[] .origin m text.toList

/-! ## Tiling -/

/-- How a list of tokens can fail to lie side by side over a text. -/
inductive TilingFault where
  /-- A token does not begin where the one before it ends. -/
  | gap (index start expected : Nat)
  /-- A token holds nothing. -/
  | empty (index start : Nat)
  /-- The last token does not end where the text ends. -/
  | short (stop size : Nat)
deriving DecidableEq, Inhabited, Repr

/-- What is said about tokens that do not lie side by side. -/
def TilingFault.message : TilingFault → String
  | gap index start expected =>
    s!"token {index} starts at {start} but previous ended at {expected}"
  | empty index start => s!"token {index} at {start} is empty"
  | short stop size => s!"tokens end at {stop} but source has {size} bytes"

/-- The first fault of a list of tokens behind `expected` bytes; `index` counts the tokens before.
    -/
def tilingFault? (size index expected : Nat) : List Token → Option TilingFault
  | [] => if expected = size then none else some (.short expected size)
  | t :: ts =>
    if t.start ≠ expected then some (.gap index t.start expected)
    else if t.span.isEmpty then some (.empty index t.start)
    else tilingFault? size (index + 1) t.stop ts

/-- Whether tokens lie side by side over a text of `size` bytes. -/
def checkTiling (tokens : Array Token) (size : Nat) : Option TilingFault :=
  tilingFault? size 0 0 tokens.toList

end LayeredSyntax
