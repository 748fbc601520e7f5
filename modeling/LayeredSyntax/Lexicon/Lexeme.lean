/-
  LEXEMES — the pieces that every layer is made of, measured in characters.

  A reading step looks at the characters ahead and answers with a READING: a kind, how many
  characters the token takes, and the mode for the token behind it.  The pieces below give only the
  length; the layers decide what it means.

  1. Names, numbers and comments are runs of a class of characters.
  2. A string literal ends at the first quotation mark that is not doubled (`closeQuote`), and never
     crosses the end of a line.
  3. The value of a macro goes on past the end of a line that ends in a mark of continuation
     (`valueLength`).
-/
import LayeredSyntax.Lexicon.Kind
import LayeredSyntax.Lexicon.Words
import LayeredSyntax.Limits
import LayeredSyntax.Text.Classes
import LayeredSyntax.Text.Width

namespace LayeredSyntax

/-- **One step of reading.** -/
structure Reading where
  /-- What was read. -/
  kind : TokenKind
  /-- How many characters it takes. -/
  length : Nat
  /-- The mode for what follows. -/
  next : Mode
deriving DecidableEq, Inhabited, Repr

/-! ## Steps of a mode -/

namespace Mode

/-- The same mode at another place of the line. -/
def goTo (m : Mode) (position : LinePosition) : Mode := { m with position }

/-- The mode right behind an operand. -/
def afterOperand (m : Mode) : Mode := m.goTo .afterOperand

/-- Whether an operand has just been read. -/
def isAfterOperand (m : Mode) : Bool :=
  m.position == .afterOperand || m.position == .afterOperandSpace

/-- Back in the class layer, where a member has ended. -/
def endMember (m : Mode) : Mode :=
  { m with
    layer := .udl, position := .commandStart, postcond := false, braceDepth := 0, json := .empty
    member := { m.member with pending := .absent, awaiting := .nothing, memberStart := true } }

end Mode

/-! ## Runs -/

/-- How many characters ahead belong to a class. -/
def runLength (belongs : Char → Bool) (cs : List Char) : Nat := (cs.takeWhile belongs).length

/-- Characters of the line end ahead: a carriage return takes the line feed behind it along. -/
def lineEndLength : List Char → Nat
  | '\r' :: '\n' :: _ => 2
  | _ => 1

/-- Characters up to the end of the line. -/
def lineLength (cs : List Char) : Nat := runLength (fun c => !isLineEnd c) cs

/-- Characters of the name ahead; 0 when there is none. -/
def nameLength : List Char → Nat
  | c :: cs => if isNameStart c then runLength isNamePart cs + 1 else 0
  | [] => 0

/-- A kind for a name of some length: names that are too long are errors. -/
def nameOr [Limits] (kind : TokenKind) (length : Nat) : TokenKind :=
  if Limits.nameLength < length then .error else kind

/-! ## Numbers -/

/-- Whether a digit stands ahead. -/
def digitAhead : List Char → Bool
  | c :: _ => c.isDigit
  | [] => false

/-- Characters of a run of digits. -/
def digitsLength (cs : List Char) : Nat := runLength Char.isDigit cs

/-- Characters of the fraction ahead; 0 when no digit follows the point. -/
def fractionLength : List Char → Nat
  | '.' :: cs => if digitAhead cs then digitsLength cs + 1 else 0
  | _ => 0

/-- Characters of a sign; 0 when there is none. -/
def signLength : List Char → Nat
  | '+' :: _ => 1
  | '-' :: _ => 1
  | _ => 0

/-- Characters of the exponent ahead; 0 when it has no digit. -/
def exponentLength : List Char → Nat
  | e :: cs =>
    if e == 'e' || e == 'E' then
      let sign := signLength cs
      let digits := cs.drop sign
      if digitAhead digits then 1 + sign + digitsLength digits else 0
    else 0
  | [] => 0

/-- Characters of a number: digits, a fraction and an exponent. -/
def numberLength (cs : List Char) : Nat :=
  let whole := digitsLength cs
  let fraction := fractionLength (cs.drop whole)
  whole + fraction + exponentLength (cs.drop (whole + fraction))

/-! ## Comments and strings -/

/-- Characters up to and with the closer of a block comment, `n` of them already passed. -/
def closeComment (n : Nat) : List Char → Option Nat
  | [] => none
  | '*' :: '/' :: _ => some (n + 2)
  | _ :: cs => closeComment (n + 1) cs

/-- Where the search for the end of a literal stops. -/
structure Closing where
  /-- Whether the closing mark was found. -/
  closed : Bool
  /-- Characters passed, with the mark. -/
  length : Nat
deriving DecidableEq, Inhabited, Repr

/-- The end of a string literal, `n` characters after its opening mark.  A doubled mark stands for
    itself; a line end or the end of the text leaves the literal open. -/
def closeQuote (n : Nat) : List Char → Closing
  | [] => ⟨false, n⟩
  | '"' :: '"' :: cs => closeQuote (n + 2) cs
  | c :: cs =>
    if c = '"' then ⟨true, n + 1⟩
    else if isLineEnd c then ⟨false, n⟩
    else closeQuote (n + 1) cs

/-- A string literal: the opening mark stands ahead. -/
def readString [Limits] (cs : List Char) (next : Mode) : Reading :=
  let closing := closeQuote 1 (cs.drop 1)
  let fits := closing.closed && width (cs.take closing.length) ≤ Limits.stringSize
  ⟨if fits then .string else .error, closing.length, next⟩

/-- A comment up to the end of the line. -/
def readLineComment (cs : List Char) (next : Mode) : Reading := ⟨.lineComment, lineLength cs, next⟩

/-- A comment up to its closer; without one, the rest of the text is an error. -/
def readBlockComment (cs : List Char) (next : Mode) : Reading :=
  match closeComment 2 (cs.drop 2) with
  | some n => ⟨.blockComment, n, next⟩
  | none => ⟨.error, cs.length, next⟩

/-! ## Values of macros -/

/-- The mark at the end of a line that is continued on the next one. -/
def continuationMark : String := "##continue"

/-- Whether the text passed, given in reverse, ends in the mark of continuation and blanks. -/
def asksToContinue (passed : List Char) : Bool :=
  startsNoCase (String.ofList continuationMark.toList.reverse) (passed.dropWhile isBlank)

/-- Characters of a macro's value: the rest of the line, and further lines as long as the text so
    far asks to be continued.  `passed` holds the text so far in reverse, `n` its length. -/
def valueLength (passed : List Char) (n : Nat) : List Char → Nat
  | [] => n
  | '\r' :: '\n' :: cs =>
    if asksToContinue passed then valueLength ('\n' :: '\r' :: passed) (n + 2) cs else n
  | c :: cs =>
    if isLineEnd c then if asksToContinue passed then valueLength (c :: passed) (n + 1) cs else n
    else valueLength (c :: passed) (n + 1) cs

/-! ## Patterns -/

/-- Where a pattern stops. -/
structure PatternRun where
  /-- Characters passed. -/
  length : Nat
  /-- Parentheses still open. -/
  depth : Nat
  /-- Whether it stopped inside or right behind a literal that is not in order. -/
  broken : Bool
deriving DecidableEq, Inhabited, Repr

/-- The run of a pattern: counts, class letters, literals and parenthesised alternatives.  `n` and
    `bytes` measure what has been passed, `inside` says whether a literal is open. -/
def patternRun [Limits] (depth n bytes : Nat) (inside : Bool) : List Char → PatternRun
  | [] => ⟨n, depth, inside⟩
  | c :: cs =>
    if inside then
      if c = '"' then
        match cs with
        | '"' :: cs => patternRun depth (n + 2) (bytes + 2) true cs
        | cs =>
          if Limits.stringSize < bytes + 1 then ⟨n + 1, depth, true⟩
          else patternRun depth (n + 1) (bytes + 1) false cs
      else if isLineEnd c then ⟨n, depth, true⟩
      else patternRun depth (n + 1) (bytes + c.utf8Size) true cs
    else if c.isDigit || c == '.' || isPatternCode c then
      patternRun depth (n + 1) (bytes + 1) false cs
    else if c = '"' then patternRun depth (n + 1) (bytes + 1) true cs
    else if c = '(' then patternRun (depth + 1) (n + 1) (bytes + 1) false cs
    else if c = ',' && depth != 0 then patternRun depth (n + 1) (bytes + 1) false cs
    else if c = ')' && depth != 0 then patternRun (depth - 1) (n + 1) (bytes + 1) false cs
    else ⟨n, depth, false⟩

/-! ## Running the program -/

example : numberLength ['1', '.', '5', 'E', '-', '3', 'x'] = 6 := by decide
example : numberLength ['1', '.', 'e'] = 1 := by decide
example : closeQuote 1 ['a', '"', '"', '"', 'b'] = ⟨true, 5⟩ := by decide
example : patternRun 0 0 0 false ['1', 'N', '.', '(', 'A', ')', ' '] = ⟨6, 0, false⟩ := by decide

end LayeredSyntax
