/-
  SETTINGS TEXT — settings written as a small part of TOML.

  The part has headers of tables, bare keys, truth values, integers, basic strings, comments and
  blank lines.  A text is read line by line into ENTRIES, each a value under a table and a key;
  settings are then picked out of the entries.  What is not known is passed over, but **everything
  must be well written**: a key or a table that occurs twice is a fault, and so is a value of the
  wrong sort.
-/
import LayeredSyntax.Settings.Basic

namespace LayeredSyntax

/-- What can be wrong with a settings text. -/
inductive SettingsFault where
  | unclosedHeader
  | missingEquals
  | badKey
  | badValue
  | textBehindValue
  | duplicateKey (table key : String)
  | duplicateTable (table : String)
  | wrongSort (table key : String)
  | unknownLevel (word : String)
deriving DecidableEq, Inhabited, Repr

/-- A value of a settings text. -/
inductive SettingsValue where
  | truth (b : Bool)
  | number (n : Int)
  | text (s : String)
deriving DecidableEq, Inhabited, Repr

/-- A value under its table and key; the table is empty in front of the first header. -/
structure SettingsEntry where
  table : String
  key : String
  value : SettingsValue
deriving DecidableEq, Inhabited, Repr

/-! ## The pieces of a line -/

/-- Skip spaces and tabs. -/
def skipSpaces (cs : List Char) : List Char := cs.dropWhile isSpace

/-- Characters that a comment or a string may hold. -/
def isSettingsText (c : Char) : Bool := (0x20 ≤ c.toNat && c.toNat != 0x7F) || c == '\t'

/-- Whether nothing but spaces and a comment is left of a line. -/
def isLineDone (cs : List Char) : Bool :=
  match skipSpaces cs with
  | [] => true
  | '#' :: cs => cs.all isSettingsText
  | _ => false

/-- Characters of a bare key. -/
def isKeyPart (c : Char) : Bool := c.isAlphanum || c == '_' || c == '-'

/-- A bare key and what follows it. -/
def readKey (cs : List Char) : Except SettingsFault (String × List Char) :=
  let key := cs.takeWhile isKeyPart
  if key.isEmpty then .error .badKey else .ok (String.ofList key, cs.dropWhile isKeyPart)

/-- The value of a hexadecimal digit. -/
def hexValue? (c : Char) : Option Nat :=
  if c.isDigit then some (c.toNat - '0'.toNat)
  else if 'a' ≤ c ∧ c ≤ 'f' then some (c.toNat - 'a'.toNat + 10)
  else if 'A' ≤ c ∧ c ≤ 'F' then some (c.toNat - 'A'.toNat + 10)
  else none

/-- The character of a number of hexadecimal digits. -/
def hexChar? (digits : List Char) : Option Char := do
  let values ← digits.mapM hexValue?
  let n := values.foldl (fun n d => 16 * n + d) 0
  if h : n.isValidChar then some (Char.ofNatAux n h) else none

/-- The character of an escape of one letter. -/
def escaped? (c : Char) : Option Char :=
  (List.lookup c [('b', Char.ofNat 8), ('t', '\t'), ('n', '\n'), ('f', Char.ofNat 12), ('r', '\r'),
    ('"', '"'), ('\\', '\\')])

/-- What may open an escape of several digits, and how many there are. -/
def escapeDigits? (c : Char) : Option Nat := List.lookup c [('u', 4), ('U', 8)]

/-- The rest of a basic string, with what has been read of it in reverse.  `digits` holds the
    digits of an open escape in reverse, and how many are still missing. -/
def readText (done : List Char) (slash : Bool) (digits : Option (Nat × List Char)) :
    List Char → Except SettingsFault (String × List Char)
  | [] => .error .badValue
  | c :: cs =>
    match digits with
    | some (missing, read) =>
      if missing ≤ 1 then
        match hexChar? (c :: read).reverse with
        | some d => readText (d :: done) false none cs
        | none => .error .badValue
      else readText done false (some (missing - 1, c :: read)) cs
    | none =>
      if slash then
        match escaped? c, escapeDigits? c with
        | some d, _ => readText (d :: done) false none cs
        | none, some n => readText done false (some (n, [])) cs
        | none, none => .error .badValue
      else if c = '"' then .ok (String.ofList done.reverse, cs)
      else if c = '\\' then readText done true none cs
      else if isSettingsText c then readText (c :: done) false none cs
      else .error .badValue

/-- The digits of a number without the underscores between them; `needed` tells whether a digit has
    to come next. -/
def plainDigits? (needed : Bool) : List Char → Option (List Char)
  | [] => if needed then none else some []
  | c :: cs =>
    if c.isDigit then (plainDigits? false cs).map (c :: ·)
    else if c = '_' ∧ !needed then plainDigits? true cs
    else none

/-- A decimal number without superfluous zeros. -/
def readDigits (cs : List Char) : Except SettingsFault Nat :=
  match plainDigits? true cs with
  | some ('0' :: _ :: _) => .error .badValue
  | some digits => .ok (digits.foldl (fun n d => 10 * n + (d.toNat - '0'.toNat)) 0)
  | none => .error .badValue

/-- A number with its sign. -/
def readSigned : List Char → Except SettingsFault Int
  | '-' :: cs => (readDigits cs).map fun n => -(n : Int)
  | '+' :: cs => (readDigits cs).map fun n => (n : Int)
  | cs => (readDigits cs).map fun n => (n : Int)

/-- An integer of 64 bits. -/
def readInteger (cs : List Char) : Except SettingsFault Int := do
  let n ← readSigned cs
  if n < -9223372036854775808 ∨ 9223372036854775807 < n then .error .badValue else .ok n

/-- Characters of a value that is not a string. -/
def isValuePart (c : Char) : Bool := isKeyPart c || c == '+'

/-- A value and what follows it. -/
def readValue : List Char → Except SettingsFault (SettingsValue × List Char)
  | '"' :: cs => do
    let (s, rest) ← readText [] false none cs
    return (.text s, rest)
  | cs =>
    let word := cs.takeWhile isValuePart
    let rest := cs.dropWhile isValuePart
    if word = "true".toList then .ok (.truth true, rest)
    else if word = "false".toList then .ok (.truth false, rest)
    else (readInteger word).map fun n => (.number n, rest)

/-! ## Lines and entries -/

/-- What has been read of a settings text. -/
structure SettingsText where
  /-- The table that keys are read into. -/
  table : String
  /-- Tables whose header has been read. -/
  tables : List String
  entries : List SettingsEntry
deriving Inhabited, Repr

/-- Read the header of a table. -/
def SettingsText.readHeader (t : SettingsText) (cs : List Char) :
    Except SettingsFault SettingsText := do
  let (name, rest) ← readKey (skipSpaces cs)
  match skipSpaces rest with
  | ']' :: rest =>
    if !isLineDone rest then throw .textBehindValue
    if t.tables.contains name || t.entries.any fun e => e.table == "" && e.key == name then
      throw (.duplicateTable name)
    return { t with table := name, tables := name :: t.tables }
  | _ => throw .unclosedHeader

/-- Read a key and its value. -/
def SettingsText.readEntry (t : SettingsText) (cs : List Char) :
    Except SettingsFault SettingsText := do
  let (key, rest) ← readKey cs
  match skipSpaces rest with
  | '=' :: rest =>
    let (value, rest) ← readValue (skipSpaces rest)
    if !isLineDone rest then throw .textBehindValue
    if t.entries.any fun e => e.table == t.table && e.key == key then
      throw (.duplicateKey t.table key)
    return { t with entries := ⟨t.table, key, value⟩ :: t.entries }
  | _ => throw .missingEquals

/-- Read one line. -/
def SettingsText.readLine (t : SettingsText) (line : List Char) :
    Except SettingsFault SettingsText :=
  match skipSpaces line with
  | '[' :: cs => t.readHeader cs
  | cs => if isLineDone cs then .ok t else t.readEntry cs

/-- The lines of a settings text; a carriage return in front of a line feed belongs to it. -/
def settingsLines (current : List Char) : List Char → List (List Char)
  | [] => [current.reverse]
  | '\r' :: '\n' :: cs => current.reverse :: settingsLines [] cs
  | '\n' :: cs => current.reverse :: settingsLines [] cs
  | c :: cs => settingsLines (c :: current) cs

/-- The entries of a settings text. -/
def readEntries (text : String) : Except SettingsFault (List SettingsEntry) := do
  let t ← (settingsLines [] text.toList).foldlM SettingsText.readLine ⟨"", [], []⟩
  return t.entries.reverse

/-! ## Settings out of entries -/

/-- The value under a table and a key. -/
def valueUnder? (entries : List SettingsEntry) (table key : String) : Option SettingsValue :=
  (entries.find? fun e => e.table == table && e.key == key).map (·.value)

/-- A truth value, or its default when it is absent. -/
def truthUnder (entries : List SettingsEntry) (table key : String) (absent : Bool) :
    Except SettingsFault Bool :=
  match valueUnder? entries table key with
  | none => .ok absent
  | some (.truth b) => .ok b
  | some _ => .error (.wrongSort table key)

/-- A level, or its default when it is absent. -/
def levelUnder (entries : List SettingsEntry) (table key : String) (absent : EventLevel) :
    Except SettingsFault EventLevel :=
  match valueUnder? entries table key with
  | none => .ok absent
  | some (.text s) =>
    match EventLevel.ofName? s with
    | some level => .ok level
    | none => .error (.unknownLevel s)
  | some _ => .error (.wrongSort table key)

/-- A table must not be written as a plain value. -/
def requireTable (entries : List SettingsEntry) (table : String) : Except SettingsFault Unit :=
  if (valueUnder? entries "" table).isSome then .error (.wrongSort "" table) else .ok ()

/-- **Read settings from a text.** -/
def Settings.read (text : String) : Except SettingsFault Settings := do
  let entries ← readEntries text
  for table in ["lexical", "syntax", "logging"] do
    requireTable entries table
  let d := Settings.standard
  let lexical := truthUnder entries "lexical"
  let parsing := truthUnder entries "syntax"
  let journal := truthUnder entries "logging"
  return {
    lexical := {
      countKinds := ← lexical "collect_detailed_metrics" d.lexical.countKinds
      reportErrors := ← lexical "log_error_tokens" d.lexical.reportErrors }
    parsing := {
      reuse := ← parsing "enable_subtree_reuse" d.parsing.reuse
      reportConflicts := ← parsing "log_table_conflicts" d.parsing.reportConflicts
      reportRepairs := ← parsing "log_recovery_steps" d.parsing.reportRepairs }
    journal := {
      structured := ← journal "use_structured_logging" d.journal.structured
      console := ← journal "enable_console_logging" d.journal.console
      least := ← levelUnder entries "logging" "min_log_level" d.journal.least } }

end LayeredSyntax
