/-
  TOKENS — the classified pieces of a text.

  A token knows its text, its place and the mode that it was read in, so reading can be taken up
  again in front of it.  `Token.read?` reads one token at a place; **what it leaves is shorter than
  what it was given** (`Token.read?_rest_lt`), which is why reading a whole text ends.
-/
import LayeredSyntax.Lexicon.Scan
import LayeredSyntax.Source.Document

namespace LayeredSyntax

/-- A piece of a text. -/
structure Token where
  kind : TokenKind
  text : String
  span : Span
  /-- The mode in which the token was read. -/
  mode : Mode
deriving DecidableEq, Inhabited, Repr

namespace Token

/-- Bytes in front of the token. -/
def start (t : Token) : Nat := t.span.start.offset

/-- Bytes up to the end of the token. -/
def stop (t : Token) : Nat := t.span.stop.offset

/-- Bytes of the token. -/
def size (t : Token) : Nat := t.span.size

/-- Whether the token stands between the tokens that a grammar sees. -/
def isTrivia (t : Token) : Bool := t.kind.isTrivia

/-- A token over a range of a document that nothing was read from. -/
def ofRange (d : Document) (kind : TokenKind) (start stop : Nat) (mode : Mode) : Token :=
  ⟨kind, sliceText d.text start stop, d.span start stop, mode⟩

end Token

/-! ## Reading one token -/

/-- A token with the state of reading behind it. -/
structure TokenStep where
  token : Token
  /-- The mode behind the token. -/
  next : Mode
  /-- The characters behind the token. -/
  rest : List Char
deriving Inhabited

namespace Token

/-- Read the token at a place: the place, the mode there and the characters ahead. -/
def read? [Limits] (p : Position) (m : Mode) (cs : List Char) : Option TokenStep :=
  (scan? m cs).map fun r =>
    let text := cs.take r.length
    ⟨⟨r.kind, String.ofList text, ⟨p, p.after text⟩, m⟩, r.next, cs.drop r.length⟩

/-- Reading a token leaves less than there was. -/
theorem read?_rest_lt [Limits] {p : Position} {m : Mode} {cs : List Char} {s : TokenStep}
    (h : read? p m cs = some s) : s.rest.length < cs.length := by
  unfold read? at h
  cases hr : scan? m cs with
  | none => simp [hr] at h
  | some r =>
    have hpos := scan?_length_pos hr
    have hne : cs ≠ [] := by
      rintro rfl
      simp [scan?] at hr
    have hlen : 0 < cs.length := List.length_pos_iff.mpr hne
    simp only [hr, Option.map_some, Option.some.injEq] at h
    subst h
    simp only [List.length_drop]
    omega

end Token

end LayeredSyntax
