/-
  DOCUMENTS — a text together with its lines, for looking up positions.

  A line feed ends a line, so a line begins where the text does or right behind a line feed.  A
  document knows where all its lines begin.  `Document.positionAt` finds the last line that begins at
  or before an offset and counts the characters from there.  **The crux**: on the boundary of a
  character the answer is the position reached by walking there from the origin, as
  `Position.after` does; an offset inside a character, which no boundary reaches, is given a column
  in bytes instead.
-/
import LayeredSyntax.Source.Position

namespace LayeredSyntax

/-- A text with its lines. -/
structure Document where
  /-- The whole text. -/
  text : String
  /-- Bytes in front of each line; the first one begins at 0. -/
  starts : Array Nat
deriving Inhabited, Repr

namespace Document

/-! ## The lines of a text -/

/-- Behind a place less of the text is left. -/
theorem sub_next_lt {n : Nat} {p : String.Pos.Raw} (text : String) (h : p.byteIdx < n) :
    n - (p.next text).byteIdx < n - p.byteIdx := by
  have := (p.get text).utf8Size_pos
  show n - (p.byteIdx + (p.get text).utf8Size) < _
  omega

/-- Find the lines that begin behind a place, and put them behind those found. -/
def startsFrom (text : String) (p : String.Pos.Raw) (starts : Array Nat) : Array Nat :=
  if h : p.atEnd text then starts
  else
    let next := p.next' text h
    startsFrom text next (if p.get' text h = '\n' then starts.push next.byteIdx else starts)
termination_by text.utf8ByteSize - p.byteIdx
decreasing_by exact sub_next_lt text (Nat.not_le.mp fun hend => h (decide_eq_true hend))

/-- Find the lines of a text. -/
def ofText (text : String) : Document := ⟨text, startsFrom text 0 #[0]⟩

/-- Bytes in the text. -/
def size (d : Document) : Nat := d.text.utf8ByteSize

/-- Whether the text is empty. -/
def isEmpty (d : Document) : Bool := d.size == 0

/-! ## Looking up -/

/-- The line that holds a byte, counted from 0 on: the last one that begins at or before it. -/
def lineIndex (d : Document) (offset : Nat) : Nat :=
  (d.starts.toList.takeWhile (· ≤ offset)).length - 1

/-- Where the line begins that holds a byte. -/
def lineStart (d : Document) (offset : Nat) : Nat := d.starts[d.lineIndex offset]?.getD 0

/-- How many characters there are from a place up to an offset, beside those counted; nothing when
    the offset is not the boundary of a character. -/
def countUpTo? (text : String) (stop : Nat) (p : String.Pos.Raw) (count : Nat) : Option Nat :=
  if p.byteIdx < stop then countUpTo? text stop (p.next text) (count + 1)
  else if p.byteIdx = stop then some count
  else none
termination_by stop - p.byteIdx
decreasing_by exact sub_next_lt text ‹_›

/-- **Where an offset stands.**  Offsets past the end are taken as the end. -/
def positionAt (d : Document) (offset : Nat) : Position :=
  let offset := min offset d.size
  let start := d.lineStart offset
  let column := (countUpTo? d.text offset ⟨start⟩ 0).getD (offset - start)
  ⟨offset, .ofNat (d.lineIndex offset) + 1, .ofNat column + 1⟩

/-- The span between two offsets. -/
def span (d : Document) (start stop : Nat) : Span := ⟨d.positionAt start, d.positionAt stop⟩

/-- The line of a number, without the line feed and the carriage returns in front of it. -/
def lineText? (d : Document) (number : UInt32) : Option String :=
  if number = 0 then none
  else d.starts[number.toNat - 1]?.map fun start =>
    let stop := (d.starts[number.toNat]?.map (· - 1)).getD d.size
    let line := (sliceText d.text start stop).toList
    String.ofList (line.reverse.dropWhile (· == '\r')).reverse

/-! ## Showing a span -/

/-- A message over the first line of a span, with the span underlined.  At least one caret is
    drawn, and a span that goes on past its first line is underlined to one place after its end. -/
def render (d : Document) (span : Span) (message : String) : String :=
  let span := d.span span.start.offset span.stop.offset
  let head := s!"{message}\n --> {span.start.text}\n"
  match d.lineText? span.start.line with
  | none => head
  | some text =>
    let gutter := s!"{span.start.line}"
    let carets :=
      if span.stop.line = span.start.line then span.stop.column.toNat - span.start.column.toNat
      else text.length + 1 - span.start.column.toNat
    head ++ s!"{gutter} | {text}\n" ++
      String.ofList (List.replicate gutter.length ' ') ++ " | " ++
      String.ofList (List.replicate (span.start.column.toNat - 1) ' ') ++
      String.ofList (List.replicate (max carets 1) '^') ++ "\n"

end Document

/-! ## Running the program -/

example : (Document.ofText "a\nbé").positionAt 5 = ⟨5, 2, 3⟩ := by cbv
example : (Document.ofText "a\nbé").positionAt 4 = ⟨4, 2, 3⟩ := by cbv
example : (Document.ofText "ab\r\nc").lineText? 1 = some "ab" := by cbv

end LayeredSyntax
