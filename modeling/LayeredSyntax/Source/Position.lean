/-
  POSITIONS — where a byte of a text stands for a reader: its offset, line and column.

  Offsets count bytes; lines and columns start at 1, and a column counts characters.  Lines and
  columns are numbers of 32 bits, so they come around to 0 in a text that has more of them.  A
  position is a running value: `Position.step` moves it over one character, `Position.after` over a
  run, so a position can be carried along while a text is read instead of being looked up.

  A span is a pair of positions.  Where only offsets are known the lines are 0 (`Span.ofOffsets`),
  and such a span is written in bytes.
-/
import LayeredSyntax.Text.Width

namespace LayeredSyntax

/-- A place between two characters of a text. -/
structure Position where
  /-- Bytes before the place. -/
  offset : Nat
  /-- Line, from 1 on; 0 when unknown. -/
  line : UInt32
  /-- Column in characters, from 1 on; 0 when unknown. -/
  column : UInt32
deriving DecidableEq, Inhabited, Repr

namespace Position

/-- Where a text begins. -/
def origin : Position := ⟨0, 1, 1⟩

/-- The position after one more character. -/
def step (p : Position) (c : Char) : Position :=
  if c = '\n' then ⟨p.offset + 1, p.line + 1, 1⟩
  else ⟨p.offset + c.utf8Size, p.line, p.column + 1⟩

/-- The position after a run of characters. -/
def after (p : Position) (cs : List Char) : Position := cs.foldl step p

theorem step_offset (p : Position) (c : Char) : (p.step c).offset = p.offset + c.utf8Size := by
  unfold step
  split
  · next h => subst h; rfl
  · rfl

/-- Walking over a run moves the offset by its width. -/
theorem after_offset (p : Position) (cs : List Char) :
    (p.after cs).offset = p.offset + width cs := by
  induction cs generalizing p with
  | nil => simp [after]
  | cons c cs ih =>
    show ((p.step c).after cs).offset = _
    rw [ih, step_offset, width_cons]; omega

theorem after_append (p : Position) (a b : List Char) :
    p.after (a ++ b) = (p.after a).after b := by
  simp [after]

/-- Line and column, as a reader sees them. -/
def text (p : Position) : String := s!"{p.line}:{p.column}"

end Position

/-- The text between two positions. -/
structure Span where
  /-- Where the text begins. -/
  start : Position
  /-- Where the text ends, not included. -/
  stop : Position
deriving DecidableEq, Inhabited, Repr

namespace Span

/-- A span known only by its bytes. -/
def ofOffsets (start stop : Nat) : Span := ⟨⟨start, 0, 0⟩, ⟨stop, 0, 0⟩⟩

/-- Bytes in the span. -/
def size (s : Span) : Nat := s.stop.offset - s.start.offset

/-- Whether the span holds nothing. -/
def isEmpty (s : Span) : Bool := s.start.offset == s.stop.offset

/-- The part of a text that the span marks off, or the empty text when it does not fit. -/
def slice (s : Span) (text : String) : String := sliceText text s.start.offset s.stop.offset

/-- A span as a reader sees it: in bytes when its line is unknown, with one line number when it
    stays on a line. -/
def text (s : Span) : String :=
  if s.start.line = 0 then s!"bytes {s.start.offset}..{s.stop.offset}"
  else if s.start.line = s.stop.line then s.start.text ++ s!"-{s.stop.column}"
  else s.start.text ++ "-" ++ s.stop.text

end Span

/-! ## Running the program -/

example : Position.origin.after ['a', '\n', 'é'] = ⟨4, 2, 2⟩ := by decide
example : (Span.ofOffsets 3 7).text = "bytes 3..7" := by cbv
example : Span.text ⟨⟨0, 1, 1⟩, ⟨4, 2, 2⟩⟩ = "1:1-2:2" := by cbv

end LayeredSyntax
