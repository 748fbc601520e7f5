/-
  THE CLASS LAYER — class definitions and the headers of their members.

  The class layer has few tokens.  Its work is to know **what the next opening brace holds**: the
  keyword of a member arms the kind of its body, and the keywords in square brackets can change it
  before the brace is reached.  A brace inside square brackets or parentheses holds the value of a
  keyword or the default of an argument instead, and the bracket counts survive it.
-/
import LayeredSyntax.Lexicon.CodeLayer

namespace LayeredSyntax

/-- The deepest nesting of brackets that the class layer can count. -/
def maxBrackets : Nat := 255

/-! ## Words -/

/-- Characters of the further parts of a dotted name, `n` of them passed.  A part begins behind a
    point with a character of a name; `inside` says whether a part has begun. -/
def dottedLength (n : Nat) : List Char → Nat
  | [] => n
  | '.' :: c :: cs => if isDefinitionPart c then dottedLength (n + 2) cs else n
  | c :: cs => if isDefinitionPart c then dottedLength (n + 1) cs else n

/-- Characters of a name with points: the name ahead and its further parts. -/
def classNameLength (cs : List Char) : Nat :=
  let first := nameLength cs
  match cs.drop first with
  | '.' :: rest => first + dottedLength 0 ('.' :: rest)
  | _ => first

namespace ClassContext

/-- A word where the value of a keyword is awaited settles the body of the member. -/
def takeValue (u : ClassContext) (word : String) : ClassContext :=
  match u.awaiting with
  | .language =>
    if u.pending = .absent then u
    else { u with pending := if isNativeLanguage word then .code else .raw, awaiting := .nothing }
  | .codeMode =>
    if u.pending = .code ∨ u.pending = .expr then
      { u with pending := if word = "expression" then .expr else .code, awaiting := .nothing }
    else u
  | _ => u

/-- The first word of a member can arm its body. -/
def takeMember (u : ClassContext) (word : String) : ClassContext :=
  if u.memberStart then
    { u with pending := (memberBody? word).getD u.pending, memberStart := false }
  else u

/-- What a keyword in square brackets makes the member wait for; `armed` tells whether a body is
    pending in front of the keyword. -/
def awaitedBy (armed : Bool) (word : String) : Option Awaited :=
  match keywordValueBody? word with
  | some .expr => some .expression
  | some .code => some .code
  | _ =>
    if armed && word == "language" then some .language
    else if armed && word == "codemode" then some .codeMode
    else none

/-- The context behind a word. -/
def takeWord (u : ClassContext) (word : String) : ClassContext :=
  let next := (u.takeValue word).takeMember word
  if u.brackets = 0 then next
  else { next with awaiting := (awaitedBy (u.pending != .absent) word).getD next.awaiting }

/-- Give up waiting for a braced value. -/
def dropValue (u : ClassContext) : ClassContext :=
  if u.awaiting = .expression ∨ u.awaiting = .code then { u with awaiting := .nothing } else u

/-- Whether no bracket and no parenthesis is open. -/
def atTop (u : ClassContext) : Bool := u.brackets == 0 && u.parens == 0

end ClassContext

namespace Mode

/-- The same mode with another context of the class layer. -/
def inMember (m : Mode) (member : ClassContext) : Mode := { m with member }

/-- Begin a braced value of a keyword or an argument. -/
def enterValue (m : Mode) (layer : Layer) (position : LinePosition) : Mode :=
  { m with
    layer, position, braceDepth := 0, postcond := false, blockCommand := false, json := .empty
    member := { m.member with awaiting := .nothing, inValue := true } }

/-- The mode behind an opening brace of the class layer. -/
def openBrace (m : Mode) : Mode :=
  let u := m.member
  if !u.atTop && u.awaiting = .expression then m.enterValue .expr .operand
  else if !u.atTop && u.awaiting = .code then m.enterValue .core .commandStart
  else
    match u.atTop, u.pending with
    | true, .code =>
      { m with
        layer := .core, position := .commandStart, braceDepth := 0, postcond := false
        blockCommand := false, json := .empty }
    | true, .expr => { m with layer := .expr, position := .operand, json := .empty }
    | true, .raw => { m with layer := .raw, fence := some ⟨.brace, .udl⟩ }
    | _, _ => m.inMember { u with memberStart := true }

end Mode

/-! ## Symbols -/

/-- The context behind a symbol of the class layer; nothing for a symbol that it does not have. -/
def ClassContext.takeSymbol? (u : ClassContext) (c : Char) : Option ClassContext :=
  match c with
  | '}' => some { u with memberStart := true }
  | '[' => some { u with brackets := min (u.brackets + 1) maxBrackets }
  | ']' => some { u.dropValue with brackets := u.brackets - 1 }
  | '(' => some { u with parens := min (u.parens + 1) maxBrackets }
  | ')' => some { u.dropValue with parens := u.parens - 1 }
  | ';' =>
    some (if u.atTop then { u.dropValue with memberStart := true, pending := .absent }
      else u.dropValue)
  | '=' => some (if u.parens != 0 && u.brackets == 0 then { u with awaiting := .expression } else u)
  | ',' => some u.dropValue
  | ':' => some u
  | _ => none

/-- **A step in the class layer**; `c` is the first character ahead. -/
def readClass [Limits] (m : Mode) (c : Char) (cs : List Char) : Reading :=
  if isBlank c then ⟨.whitespace, runLength isBlank cs, m⟩
  else if startsWith "///" cs then ⟨.docComment, lineLength cs, m⟩
  else if startsWith "//" cs then readLineComment cs m
  else if startsWith "/*" cs then readBlockComment cs m
  else if isNameStart c then
    let n := classNameLength cs
    let word := (String.ofList (cs.take n)).toLower
    ⟨nameOr .identifier n, n, m.inMember (m.member.takeWord word)⟩
  else if c.isDigit then ⟨.number, numberLength cs, m⟩
  else if c = '"' then readString cs m
  else if c = '{' then ⟨.punctuation, 1, m.openBrace⟩
  else if c = '.' then ⟨.punctuation, if startsWith "..." cs then 3 else 1, m⟩
  else if ['-', '+', '*'].contains c then ⟨.operator, 1, m⟩
  else
    match m.member.takeSymbol? c with
    | some member => ⟨.punctuation, 1, m.inMember member⟩
    | none => ⟨.error, 1, m⟩

/-! ## Running the program -/

example : classNameLength ['%', 'A', '.', 'b', '.', '.', 'c'] = 4 := by decide +kernel

end LayeredSyntax
