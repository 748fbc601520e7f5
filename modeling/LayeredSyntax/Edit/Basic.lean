/-
  EDITS — one range of a text replaced by another text.

  An edit says where it begins and where the replaced range ends, in the old text and in the new
  one. It does not hold the texts themselves, so whether it fits two texts has to be checked
  (`Edit.check`).  **What `Edit.replace` makes always fits**: the edit describes the step from the
  old text to the new one that comes with it.
-/
import LayeredSyntax.Journal.Code
import LayeredSyntax.Text.Width

namespace LayeredSyntax

/-- A replaced range of bytes. -/
structure Edit where
  /-- Where the range begins, in both texts. -/
  start : Nat
  /-- Where it ends in the old text. -/
  oldStop : Nat
  /-- Where it ends in the new text. -/
  newStop : Nat
deriving DecidableEq, Inhabited, Repr

/-- Why an edit does not fit two texts. -/
inductive EditFault where
  /-- A range ends before it begins. -/
  | inverted (start stop : Nat)
  /-- The range goes on past the end of the old text. -/
  | outOfBounds (stop size : Nat)
  /-- The new text does not have the size that follows. -/
  | sizeMismatch (expected actual : Nat)
  /-- A range begins or ends inside a character. -/
  | insideCharacter (offset : Nat)
deriving DecidableEq, Inhabited, Repr

namespace EditFault

/-- What is said about an edit that does not fit. -/
def message : EditFault → String
  | inverted start stop => s!"Edit range {start}..{stop} is inverted"
  | outOfBounds stop size =>
    s!"Edit ends at byte {stop} but the previous source has {size} bytes"
  | sizeMismatch expected actual =>
    s!"Edit implies a new source of {expected} bytes but {actual} were given"
  | insideCharacter offset => s!"Edit boundary {offset} is not on a character boundary"

/-- The code under which a fault is reported. -/
def code (_ : EditFault) : Code := .invalidEdit

end EditFault

namespace Edit

/-- Replace a range of a text; a range that goes on past the end is cut.  There is no answer when
    the range begins or ends inside a character. -/
def replace (source : String) (start stop : Nat) (text : String) : Option (Edit × String) := do
  let start := min start source.utf8ByteSize
  let stop := max start (min stop source.utf8ByteSize)
  let (before, rest) ← splitAtByte? start source.toList
  let (_, after) ← splitAtByte? (stop - start) rest
  return (⟨start, stop, start + text.utf8ByteSize⟩,
    String.ofList before ++ text ++ String.ofList after)

/-- How many bytes longer the new text is. -/
def growth (e : Edit) : Int := (e.newStop : Int) - e.oldStop

/-- The place in the old text of a place behind the range in the new one. -/
def toOld (e : Edit) (offset : Nat) : Nat := offset - e.newStop + e.oldStop

/-- The place in the new text of a place behind the range in the old one. -/
def toNew (e : Edit) (offset : Nat) : Nat := offset - e.oldStop + e.newStop

/-- The first of some offsets that is not between two characters of a text. -/
def insideCharacter? (text : String) (offsets : List Nat) : Option Nat :=
  offsets.find? fun n => !isBoundary n text.toList

/-- **Check that an edit leads from one text to another**, as far as the edit itself can tell. -/
def check (e : Edit) (old new : String) : Except EditFault Unit :=
  let expected := old.utf8ByteSize - (e.oldStop - e.start) + (e.newStop - e.start)
  if e.oldStop < e.start then .error (.inverted e.start e.oldStop)
  else if e.newStop < e.start then .error (.inverted e.start e.newStop)
  else if old.utf8ByteSize < e.oldStop then .error (.outOfBounds e.oldStop old.utf8ByteSize)
  else if expected ≠ new.utf8ByteSize then .error (.sizeMismatch expected new.utf8ByteSize)
  else
    match insideCharacter? old [e.start, e.oldStop], insideCharacter? new [e.start, e.newStop] with
    | some n, _ | none, some n => .error (.insideCharacter n)
    | none, none => .ok ()

end Edit

/-! ## Running the program -/

example : Edit.replace "a + b" 2 3 "**" = some (⟨2, 3, 4⟩, "a ** b") := by cbv
example : Edit.replace "é" 1 2 "" = none := by cbv
example : (Edit.mk 1 2 1).check "é" "x" = .error (.insideCharacter 1) := by rfl

end LayeredSyntax
