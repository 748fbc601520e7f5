/-
  THE CODE LAYERS — commands and the expressions inside them.

  The difficulty of the command language is that spaces and line ends carry meaning: one space
  behind a command word begins its arguments, two begin the next command, and the same word is a
  label at the start of a line, a command after a space and a variable anywhere else.  The place in
  the line (`LinePosition`) settles all of it, and each step here answers with the place behind the
  token that it reads.

  An expression is read the same way, except that line ends are white space in it.
-/
import LayeredSyntax.Lexicon.RawLayer

namespace LayeredSyntax

/-! ## White space and line ends -/

/-- Whether what stands behind a command and one space ends the command without arguments. -/
def atArgumentEnd (cs : List Char) : Bool :=
  match cs with
  | [] => true
  | c :: _ =>
    [' ', '\t', '\n', '\r', ';', '}'].contains c ||
      startsWith "//" cs || startsWith "/*" cs || startsWith "#;" cs

/-- The place behind a command word and white space: exactly one space begins the arguments. -/
def placeAfterCommand (singleSpace : Bool) (ahead : List Char) : LinePosition :=
  if singleSpace && !atArgumentEnd ahead then .operand else .commandStart

/-- White space.  It ends the condition behind a command word. -/
def readSpace (m : Mode) (cs : List Char) : Reading :=
  let across := !m.newlineIsSignificant
  let n := runLength (fun c => isSpace c || (across && isLineEnd c)) cs
  let place := placeAfterCommand (cs.take n == [' ']) (cs.drop n)
  let next :=
    match m.position with
    | .columnZero => m.goTo .commandStart
    | .afterCommand => m.goTo place
    | .operand => if m.postcond then { m with postcond := false, position := place } else m
    | .afterOperand =>
      if m.postcond then { m with postcond := false, position := place }
      else m.goTo .afterOperandSpace
    | _ => m
  ⟨.whitespace, n, next⟩

/-- The end of a line of commands. -/
def readLineEnd (m : Mode) (cs : List Char) : Reading :=
  ⟨.newline, lineEndLength cs, { m with position := .columnZero, postcond := false }⟩

/-! ## Words -/

/-- Whether a word here can be a command. -/
def Mode.takesCommand (m : Mode) : Bool :=
  m.layer == .core && (m.position == .commandStart || m.position == .afterOperandSpace) &&
    m.json.isEmpty

/-- Characters of an instance variable: the letter i, a percent sign and a name. -/
def instanceLength? (cs : List Char) : Option Nat :=
  match cs.drop (nameLength cs) with
  | '%' :: c :: rest =>
    if (cs.take (nameLength cs)).map Char.toLower == ['i'] && isNameStart c then
      some (nameLength cs + 1 + nameLength (c :: rest))
    else none
  | _ => none

variable [Limits]

/-- A word: an instance variable, a command, or a name. -/
def readWord (m : Mode) (cs : List Char) : Reading :=
  match instanceLength? cs with
  | some n => ⟨nameOr .instanceVariable n, n, m.afterOperand⟩
  | none =>
    let n := nameLength cs
    let word := (String.ofList (cs.take n)).toLower
    if m.takesCommand && isCommandWord word then
      ⟨.command, n,
        { m with
          position := .afterCommand, postcond := false, blockCommand := isBlockCommand word }⟩
    else ⟨nameOr .identifier n, n, m.afterOperand⟩

/-- A name behind a dollar sign: a function when a parenthesis follows, else a variable. -/
def readDollar (m : Mode) (cs : List Char) : Reading :=
  if startsWith "$$$" cs then
    let n := runLength isDefinitionPart (cs.drop 3)
    if n = 0 then ⟨.error, 3, m⟩ else ⟨nameOr .macroWord (n + 3), n + 3, m.afterOperand⟩
  else if startsWith "$$" cs then ⟨.punctuation, 2, m.goTo .operand⟩
  else
    let n := nameLength (cs.drop 1)
    let word := (String.ofList ((cs.drop 1).take n)).toLower
    if n = 0 then ⟨.error, 1, m⟩
    else
      let kind :=
        if (cs.drop (n + 1)).head? == some '(' && isSystemFunction word then .systemFunction
        else if isSystemVariable word then .systemVariable
        else nameOr .identifier (n + 1)
      ⟨kind, n + 1, m.afterOperand⟩

/-- A point: a fraction without whole part, dots of a reference, or dots of a block. -/
def readDot (m : Mode) (cs : List Char) : Reading :=
  if digitAhead (cs.drop 1) && !m.isAfterOperand then
    ⟨.number, digitsLength (cs.drop 1) + 1, m.afterOperand⟩
  else if startsWith "..." cs then ⟨.punctuation, 3, m.afterOperand⟩
  else if startsWith ".." cs then ⟨.punctuation, 2, m.goTo .operand⟩
  else ⟨.punctuation, 1, if m.position = .commandStart then m else m.goTo .operand⟩

/-! ## Number signs and ampersands -/

/-- The directive ahead in lower case, where a line can hold one. -/
def directive? (m : Mode) (cs : List Char) : Option String :=
  if m.position == .columnZero || m.position == .commandStart then
    match cs.drop 1 with
    | c :: rest =>
      let word := String.ofList ((c :: rest).takeWhile Char.isAlphanum) |>.toLower
      if c.isAlpha && isDirective word then some word else none
    | [] => none
  else none

/-- A number sign: a cast, embedded SQL, a directive or an operator. -/
def readHash (m : Mode) (cs : List Char) : Reading :=
  if startsNoCase "##class" cs || startsNoCase "##super" cs then ⟨.punctuation, 7, m.goTo .operand⟩
  else if startsNoCase "##sql(" cs then ⟨.embedOpen, 6, m.openFence .paren⟩
  else
    match directive? m cs with
    | some word =>
      let place : LinePosition :=
        if takesMacroName word then .macroName
        else if isBareDirective word then .afterOperand
        else .operand
      ⟨.directive, word.length + 1, m.goTo place⟩
    | none => ⟨.operator, 1, m.goTo .operand⟩

/-- The words that open an embedded region, and their fences. -/
def embeddings : List (String × FenceKind) :=
  [("&sql(", .paren), ("&html<", .angle), ("&js<", .angle), ("&xml<", .angle)]

/-- An ampersand: an embedded region or an operator. -/
def readAmpersand (m : Mode) (cs : List Char) : Reading :=
  match embeddings.find? fun e => startsNoCase e.1 cs with
  | some (word, kind) => ⟨.embedOpen, word.length, m.openFence kind⟩
  | none => ⟨.operator, if startsWith "&&" cs then 2 else 1, m.goTo .operand⟩

/-! ## Braces -/

/-- Whether an opening brace here begins a block of commands. -/
def Mode.opensBlock (m : Mode) : Bool :=
  m.layer == .core && m.json.isEmpty &&
    match m.position with
    | .operand => m.blockCommand
    | .commandStart | .afterCommand | .afterOperand | .afterOperandSpace | .columnZero => true
    | _ => false

/-- Characters up to and with the brace that closes a reference to a field, `n` already passed. -/
def closeField (n : Nat) : List Char → Option Nat
  | [] => none
  | c :: cs =>
    if c = '}' then some (n + 1)
    else if isDefinitionPart c || c == '*' || c == '_' then closeField (n + 1) cs
    else none

/-- Characters of a reference to a field of a table: a star or a name between braces. -/
def fieldLength? (cs : List Char) : Option Nat :=
  match cs.drop 1 with
  | '*' :: '}' :: _ => some 3
  | c :: rest => if isNameStart c then closeField 2 rest else none
  | [] => none

/-- The deepest nesting of blocks that a mode can count. -/
def maxBraceDepth : Nat := 65535

/-- Open a JSON literal; one that is nested too deep is an error. -/
def readJsonOpen (m : Mode) (array : Bool) : Reading :=
  match m.json.push? array with
  | some json => ⟨.punctuation, 1, { m with json, position := .operand }⟩
  | none => ⟨.error, 1, m⟩

/-- An opening brace: a block, a reference to a field or a JSON object. -/
def readBraceOpen (m : Mode) (cs : List Char) : Reading :=
  if m.opensBlock then
    ⟨.punctuation, 1,
      { m with
        braceDepth := min (m.braceDepth + 1) maxBraceDepth
        postcond := false
        position := .commandStart }⟩
  else if m.position = .operand then
    match fieldLength? cs with
    | some n => ⟨.sqlField, n, m.afterOperand⟩
    | none => readJsonOpen m false
  else ⟨.punctuation, 1, m⟩

/-- Back in the class layer, behind the value of a keyword or an argument. -/
def Mode.leaveValue (m : Mode) : Mode :=
  { m with
    layer := .udl, position := .commandStart, postcond := false, braceDepth := 0, json := .empty
    member := { m.member with inValue := false } }

/-- A closing brace ends, from the inside out, an object, a block, a value or a member. -/
def readBraceClose (m : Mode) : Reading :=
  let next :=
    if m.json.topIsObject then { m with json := m.json.pop }.afterOperand
    else if m.layer == .core && m.braceDepth != 0 then
      { m with braceDepth := m.braceDepth - 1, postcond := false }.afterOperand
    else if m.member.inValue then m.leaveValue
    else if m.inMemberBody then m.endMember
    else m.afterOperand
  ⟨.punctuation, 1, next⟩

/-! ## Operators -/

/-- A closing square bracket: the end of an array, or an operator. -/
def readBracketClose (m : Mode) (cs : List Char) : Reading :=
  if m.json.topIsArray then ⟨.punctuation, 1, { m with json := m.json.pop }.afterOperand⟩
  else ⟨.operator, if startsWith "]]" cs then 2 else 1, m.goTo .operand⟩

/-- An apostrophe negates; right behind an operand it can be part of a comparison. -/
def readApostrophe (m : Mode) (cs : List Char) : Reading :=
  if m.isAfterOperand then
    if startsWith "]]" (cs.drop 1) then ⟨.operator, 3, m.goTo .operand⟩
    else
      match cs.drop 1 with
      | '?' :: _ => ⟨.operator, 2, m.goTo .pattern⟩
      | c :: _ =>
        let n := if ['=', '<', '>', '[', ']', '&', '!'].contains c then 2 else 1
        ⟨.operator, n, m.goTo .operand⟩
      | [] => ⟨.operator, 1, m.goTo .operand⟩
  else ⟨.operator, 1, m.goTo .operand⟩

/-- A bar is an operator only when it is doubled. -/
def readBar (m : Mode) (cs : List Char) : Reading :=
  if startsWith "||" cs then ⟨.operator, 2, m.goTo .operand⟩ else ⟨.error, 1, m⟩

/-- An operator of one character, or of two when the pair stands ahead. -/
def readPaired (pair : String) (m : Mode) (cs : List Char) : Reading :=
  ⟨.operator, if startsWith pair cs then 2 else 1, m.goTo .operand⟩

/-- A colon behind a command word begins its condition. -/
def readColon (m : Mode) : Reading :=
  ⟨.punctuation, 1,
    { m with postcond := m.postcond || m.position == .afterCommand, position := .operand }⟩

/-- A step anywhere that no special rule of a place applies; `c` is the first character ahead. -/
def readGeneral (m : Mode) (c : Char) (cs : List Char) : Reading :=
  if isNameStart c then readWord m cs
  else if c.isDigit then ⟨.number, numberLength cs, m.afterOperand⟩
  else
    match c with
    | '.' => readDot m cs
    | '"' => readString cs m.afterOperand
    | '$' => readDollar m cs
    | '^' => ⟨.punctuation, if startsWith "^$" cs then 2 else 1, m.goTo .operand⟩
    | '#' => readHash m cs
    | '&' => readAmpersand m cs
    | '{' => readBraceOpen m cs
    | '}' => readBraceClose m
    | '[' => if m.position = .operand then readJsonOpen m true else ⟨.operator, 1, m.goTo .operand⟩
    | ']' => readBracketClose m cs
    | ')' => ⟨.punctuation, 1, m.afterOperand⟩
    | ':' => readColon m
    | '\'' => readApostrophe m cs
    | '?' => ⟨.operator, 1, m.goTo (if m.isAfterOperand then .pattern else .operand)⟩
    | '*' => readPaired "**" m cs
    | '<' => readPaired "<=" m cs
    | '>' => readPaired ">=" m cs
    | '|' => readBar m cs
    | c =>
      if ['(', ',', '@'].contains c then ⟨.punctuation, 1, m.goTo .operand⟩
      else if ['=', '+', '-', '/', '\\', '_', '!'].contains c then ⟨.operator, 1, m.goTo .operand⟩
      else ⟨.error, 1, m⟩

/-! ## Places with rules of their own -/

/-- At the start of a line of commands a word is a label. -/
def readColumnZero (m : Mode) (c : Char) (cs : List Char) : Reading :=
  if isNameStart c || c.isDigit then
    let n := runLength isNamePart (cs.drop 1) + 1
    ⟨nameOr .label n, n, m.afterOperand⟩
  else readGeneral m c cs

/-- A pattern; where none stands ahead, an operand is read instead. -/
def readPattern (m : Mode) (c : Char) (cs : List Char) : Reading :=
  let run := patternRun 0 0 0 false cs
  if run.length = 0 then readGeneral (m.goTo .operand) c cs
  else if run.broken then ⟨.error, run.length, m⟩
  else ⟨if run.depth = 0 then .pattern else .error, run.length, m.afterOperand⟩

/-- The name of a macro that is being defined. -/
def readMacroName (m : Mode) (cs : List Char) : Reading :=
  let n := runLength isDefinitionPart cs
  if n = 0 then ⟨.error, 1, m.goTo .macroValue⟩
  else
    let place : LinePosition :=
      if (cs.drop n).head? = some '(' then .macroParams else .macroValue
    ⟨nameOr .identifier n, n, m.goTo place⟩

/-- The parameters of a macro that is being defined. -/
def readMacroParams (m : Mode) (c : Char) (cs : List Char) : Reading :=
  if c == '(' || c == ',' then ⟨.punctuation, 1, m⟩
  else if c == ')' then ⟨.punctuation, 1, m.goTo .macroValue⟩
  else if isNameStart c then ⟨nameOr .identifier (nameLength cs), nameLength cs, m⟩
  else ⟨.error, 1, m⟩

/-- Whether a comment up to the end of the line stands ahead. -/
def atLineComment (m : Mode) (cs : List Char) : Bool :=
  startsWith "//" cs || (m.layer == .core && startsWith ";" cs)

/-- Whether a comment of the preprocessor stands ahead. -/
def atHashComment (m : Mode) (cs : List Char) : Bool :=
  m.layer == .core && (startsWith "#;" cs || startsWith "##;" cs)

/-- **A step in the code layers**; `c` is the first character ahead. -/
def readCode (m : Mode) (c : Char) (cs : List Char) : Reading :=
  if isLineEnd c then if m.newlineIsSignificant then readLineEnd m cs else readSpace m cs
  else if isSpace c then readSpace m cs
  else if atLineComment m cs then readLineComment cs m
  else if startsWith "/*" cs then readBlockComment cs m
  else if atHashComment m cs then readLineComment cs m
  else
    match m.position with
    | .columnZero => if m.layer = .core then readColumnZero m c cs else readGeneral m c cs
    | .macroName => readMacroName m cs
    | .macroParams => readMacroParams m c cs
    | .macroValue => ⟨.rawText, valueLength [] 0 cs, m⟩
    | .pattern => readPattern m c cs
    | _ => readGeneral m c cs

end LayeredSyntax
