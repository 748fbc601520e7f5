/-
  CHARACTER CLASSES — which characters begin and continue a name, separate words and end a line.

  ASCII is decided by comparison; the rest by the tables of `Text.Ranges`.  Case is an ASCII
  matter everywhere in the language: letters outside ASCII are compared as they are written
  (`sameNoCase`, `startsNoCase`).
-/
import LayeredSyntax.Text.Ranges

namespace LayeredSyntax

/-! ## Classes of one character -/

/-- ASCII characters are those below U+0080. -/
def isAscii (c : Char) : Bool := c.toNat < 0x80

/-- Letters outside ASCII. -/
def isWideLetter (c : Char) : Bool := !isAscii c && inRanges alphabeticRanges c.toNat

/-- Letters and numeric characters outside ASCII. -/
def isWideAlphanumeric (c : Char) : Bool :=
  isWideLetter c || (!isAscii c && inRanges numericRanges c.toNat)

/-- White space in the sense of Unicode: it separates words in the class layer and is ignored at
    the end of a line that may be continued. -/
def isBlank (c : Char) : Bool :=
  let n := c.toNat
  (0x9 ≤ n && n ≤ 0xD) || n == 0x20 || n == 0x85 || n == 0xA0 || n == 0x1680 ||
    (0x2000 ≤ n && n ≤ 0x200A) || n == 0x2028 || n == 0x2029 || n == 0x202F || n == 0x205F ||
    n == 0x3000

/-- A name begins with a percent sign or a letter. -/
def isNameStart (c : Char) : Bool := c == '%' || c.isAlpha || isWideLetter c

/-- A name goes on with letters and digits. -/
def isNamePart (c : Char) : Bool := c.isAlphanum || isWideAlphanumeric c

/-- Names of preprocessor definitions may hold percent signs anywhere. -/
def isDefinitionPart (c : Char) : Bool := c == '%' || isNamePart c

/-- Lines end at a line feed or a carriage return. -/
def isLineEnd (c : Char) : Bool := c == '\n' || c == '\r'

/-- Spaces and tabs separate words inside a line. -/
def isSpace (c : Char) : Bool := c == ' ' || c == '\t'

/-- The letters that name a character class in a pattern. -/
def isPatternCode (c : Char) : Bool :=
  ['a', 'c', 'e', 'l', 'n', 'p', 'u'].contains c.toLower

/-- Characters that a quoted rendering writes as an escape: controls, separators other than the
    space, combining marks and formatting characters. -/
def isUnprintable (c : Char) : Bool :=
  let n := c.toNat
  n < 0x20 || (0x7F ≤ n && n < 0xA0) || (isBlank c && n != 0x20) || n == 0xAD ||
    (0x300 ≤ n && n ≤ 0x36F) || (0x200B ≤ n && n ≤ 0x200F) || (0x202A ≤ n && n ≤ 0x202E) ||
    (0x2060 ≤ n && n ≤ 0x206F) || n == 0xFEFF || (0xE000 ≤ n && n ≤ 0xF8FF)

/-! ## Comparing and looking ahead without regard to case -/

/-- Equality of texts up to the case of ASCII letters. -/
def sameNoCase (a b : String) : Bool := a.toLower == b.toLower

/-- Whether the characters ahead begin with `text`. -/
def startsWith (text : String) (cs : List Char) : Bool := text.toList.isPrefixOf cs

/-- Whether the characters ahead begin with `text` up to the case of ASCII letters. -/
def startsNoCase (text : String) (cs : List Char) : Bool :=
  let head := cs.take text.length
  head.map Char.toLower == text.toList.map Char.toLower

/-! ## Running the program -/

example : isNameStart 'é' = true ∧ isNameStart '²' = false ∧ isNamePart '²' = true := by decide
example : isNamePart '名' = true ∧ isBlank '\u3000' = true ∧ isNamePart '_' = false := by
  decide +kernel
example : startsNoCase "##class" ['#', '#', 'C', 'l', 'A', 's', 's', '('] = true := by decide

end LayeredSyntax
