/-
  READING AN EDITED TEXT AGAIN — only where it changed.

  Reading is taken up a little in front of the line in which the edit begins, with the mode that the
  token there was read in, and goes on until a new token begins where an old one began, in the same
  mode and behind the edit.  From there on nothing can differ, and the rest of the old tokens is
  taken over.

  **The crux**: what a token is depends only on the mode and on the text from its first character
  on, so a token of the same place and mode in front of the same text is the same token, and so are
  all those behind it.

  An edit may pass its check and still not tell the truth about the two texts.  Nothing is promised
  then but this: the tokens taken over keep their kinds, and their text is what stands at their
  places now.

  The answer says where the old and the new tokens agree, counted in positions: in front of
  `firstChanged` in both, and from `oldResume` and `newResume` on to the end.
-/
import LayeredSyntax.Edit.Basic
import LayeredSyntax.Token.Stream

namespace LayeredSyntax

/-- The tokens of an edited text. -/
structure Relexed where
  stream : TokenStream
  /-- How many tokens were read again. -/
  reread : Nat
  /-- The first position that may differ; the same in both streams. -/
  firstChanged : Nat
  /-- Where what was taken over begins in the old stream. -/
  oldResume : Nat
  /-- Where it begins in the new stream. -/
  newResume : Nat
  /-- What is told about the reading. -/
  events : List Event

/-- How many of some tokens are no trivia. -/
def countSignificant (ts : List Token) : Nat := ts.countP (!·.isTrivia)

/-- The state of reading on behind an edit. -/
structure Rereading where
  /-- The new tokens so far. -/
  tokens : Array Token
  /-- How many of them were read again. -/
  reread : Nat
  /-- The place that was reached. -/
  place : Position
  /-- The characters from there on. -/
  ahead : List Char
  /-- The old tokens from there on, if they fit again. -/
  rest : Option (List Token)

variable [Limits]

/-- Read on from a place until the old tokens fit again; `old` holds those that do not begin too
    early for that.  There is no answer when there are too many tokens. -/
def rereadFrom (e : Edit) (tokens : Array Token) (reread : Nat) (old : List Token) (p : Position)
    (m : Mode) (cs : List Char) : Option Rereading :=
  match h : Token.read? p m cs with
  | none => some ⟨tokens, reread, p, cs, none⟩
  | some s =>
    if Limits.tokens ≤ tokens.size + 1 then none
    else
      let isBehind := e.newStop ≤ s.token.start
      let start := e.toOld s.token.start
      let old := if isBehind then old.dropWhile (·.start < start) else old
      let fits := fun (t : Token) => isBehind && t.start == start && t.mode == m
      if old.head?.any fits then some ⟨tokens, reread, p, cs, some old⟩
      else
        have := Token.read?_rest_lt h
        rereadFrom e (tokens.push s.token) (reread + 1) old s.token.span.stop s.next s.rest
termination_by cs.length

/-! ## Taking tokens over -/

/-- Walk on until an offset is reached or passed, as the offset may lie inside a character. -/
def walkTo (offset : Nat) (p : Position) : List Char → Position × List Char
  | [] => (p, [])
  | c :: cs => if p.offset < offset then walkTo offset (p.step c) cs else (p, c :: cs)

/-- A stretch of a document. -/
structure Stretch where
  text : String
  span : Span
  /-- A place that is not behind the end of the stretch. -/
  place : Position
  /-- The characters from there on. -/
  ahead : List Char

/-- The stretch of a document from one offset to another one, found by walking on from a place.  A
    stretch that begins or ends inside a character has no text. -/
def stretchFrom (d : Document) (p : Position) (cs : List Char) (start stop : Nat) : Stretch :=
  let (p, cs) := walkTo start p cs
  match if p.offset = start then splitAtByte? (stop - start) cs else none with
  | some (text, rest) =>
    let q := p.after text
    ⟨String.ofList text, ⟨p, q⟩, q, rest⟩
  | none => ⟨"", d.span start stop, p, cs⟩

/-- Put old tokens that stand where they stood behind others.  Their text is that of the document.
    -/
def appendKept (d : Document) (done : Array Token) (p : Position) (cs : List Char) :
    List Token → Array Token
  | [] => done
  | t :: ts =>
    let s := stretchFrom d p cs t.start t.stop
    appendKept d (done.push { t with text := s.text }) s.place s.ahead ts

/-- Put old tokens from behind an edit behind others, at the places where they stand now.  Their
    text is that of the document. -/
def appendMoved (d : Document) (e : Edit) (done : Array Token) (p : Position) (cs : List Char) :
    List Token → Array Token
  | [] => done
  | t :: ts =>
    let s := stretchFrom d p cs (e.toNew t.start) (e.toNew t.stop)
    appendMoved d e (done.push ⟨t.kind, s.text, s.span, t.mode⟩) s.place s.ahead ts

/-! ## The whole text -/

/-- Read the whole text, and take nothing over. -/
def rereadAll (d : Document) (m : Mode) (oldSize : Nat) : Relexed :=
  let s := TokenStream.read m d
  ⟨s, s.tokens.size, 0, oldSize, s.size,
    tokenizeEvents .standard m d.size s.tokens ++ [s.event]⟩

/-- How many old tokens are kept in front of an edit: those that end before the edited line, but for
    a few. -/
def keptBefore (old : TokenStream) (e : Edit) : Nat :=
  let anchor := old.document.lineStart e.start
  (old.tokens.toList.takeWhile (·.stop < anchor)).length - Limits.relexBackoff

/-- Where reading is taken up, and in which mode: in front of the first old token that is not kept.
    -/
def takeUp (m : Mode) : List Token → Nat × Mode
  | [] => (0, m)
  | t :: _ => (t.start, t.mode)

/-- **The tokens of an edited text**, from those of the old text; `m` is the mode in which texts
    begin. -/
def relex (old : TokenStream) (e : Edit) (source : String) (m : Mode) : Relexed :=
  let d := Document.ofText source
  let first := keptBefore old e
  let before := (old.tokens.extract 0 first).toList
  let later := old.tokens.toList.drop first
  let (start, mode) := takeUp m later
  let kept := appendKept d #[] .origin source.toList before
  let ahead := ((splitAtByte? start source.toList).map (·.2)).getD []
  match rereadFrom e kept 0 later (d.positionAt start) mode ahead with
  | none => rereadAll d m old.size
  | some r =>
    let (tokens, oldResume) := match r.rest with
      | some rest =>
        (appendMoved d e r.tokens r.place r.ahead rest, old.size - countSignificant rest)
      | none => (r.tokens, old.size)
    if Limits.tokens ≤ tokens.size + 1 then rereadAll d m old.size
    else
      let stream := TokenStream.ofTokens d tokens
      ⟨stream, r.reread, countSignificant before, oldResume,
        countSignificant r.tokens.toList, [stream.event]⟩

end LayeredSyntax
