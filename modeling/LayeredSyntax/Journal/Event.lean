/-
  EVENTS — what the stages of the library tell about their work.

  An event has a level, a code, a message, perhaps the span it is about, and some named values.
  The values are kept in the order of their names, so the order in which they are added does not
  show.  Long texts are cut at a bound on their bytes, at the boundary of a character.

  An event is data: a stage returns its events beside its result, and whoever calls the stage
  decides what becomes of them.
-/
import LayeredSyntax.Journal.Code
import LayeredSyntax.Limits
import LayeredSyntax.Source.Position
import LayeredSyntax.Text.Quoted

namespace LayeredSyntax

/-! ## Levels -/

/-- How important an event is, the most important first. -/
inductive EventLevel where
  | error | warning | info | debug
deriving DecidableEq, Inhabited, Repr

namespace EventLevel

/-- The place of a level in the order. -/
def rank : EventLevel → Nat
  | error => 0
  | warning => 1
  | info => 2
  | debug => 3

/-- The name of a level in a journal. -/
def tag : EventLevel → String
  | error => "ERROR"
  | warning => "WARN"
  | info => "INFO"
  | debug => "DEBUG"

/-- The name of a level in a settings text. -/
def name : EventLevel → String
  | error => "Error"
  | warning => "Warning"
  | info => "Info"
  | debug => "Debug"

/-- Whether events of a level are kept where `least` is the least important level kept. -/
def isKept (l least : EventLevel) : Bool := l.rank ≤ least.rank

/-- The level of an exact name. -/
def ofName? (text : String) : Option EventLevel :=
  [error, warning, info, debug].find? (·.name == text)

/-- A word for a level in lower case, without the blanks around it. -/
def word (text : String) : String :=
  let cs := (text.toList.dropWhile isBlank).reverse.dropWhile isBlank
  (String.ofList cs.reverse).toLower

/-- The level that a word in any case or a number stands for; a word for none comes back. -/
def read (text : String) : Except String EventLevel :=
  let word := word text
  if ["error", "0"].contains word then .ok error
  else if ["warning", "warn", "1"].contains word then .ok warning
  else if ["info", "2"].contains word then .ok info
  else if ["debug", "3"].contains word then .ok debug
  else .error word

/-- What is said about a word that stands for no level. -/
def unknownMessage (word : String) : String := s!"Unknown log level '{word}'"

end EventLevel

/-! ## Events -/

/-- The characters of a run that fit into a number of bytes. -/
def fitting (bytes : Nat) : List Char → List Char
  | [] => []
  | c :: cs => if c.utf8Size ≤ bytes then c :: fitting (bytes - c.utf8Size) cs else []

variable [Limits]

/-- A text of a journal: one that is too long is cut and marked with dots. -/
def journalText (text : String) : String :=
  if text.utf8ByteSize ≤ Limits.journalText then text
  else String.ofList (fitting Limits.journalText text.toList) ++ "..."

/-- **Something that a stage tells.** -/
structure Event where
  level : EventLevel
  code : Code
  message : String
  span : Option Span
  /-- Named values, in the order of their names. -/
  context : List (String × String)
deriving DecidableEq, Inhabited, Repr

/-- The values with one more; an earlier value of the name is given up. -/
def insertNamed (name value : String) : List (String × String) → List (String × String)
  | [] => [(name, value)]
  | (n, v) :: rest =>
    if name < n then (name, value) :: (n, v) :: rest
    else if name = n then (name, value) :: rest
    else (n, v) :: insertNamed name value rest

namespace Event

/-- An event without span and values. -/
def of (level : EventLevel) (code : Code) (message : String) : Event :=
  ⟨level, code, journalText message, none, []⟩

/-- A fault. -/
def error (code : Code) (message : String) : Event := of .error code message

/-- A warning without a code of its own. -/
def warning (message : String) : Event := of .warning .plainWarning message

/-- A piece of information without a code of its own. -/
def info (message : String) : Event := of .info .plainInfo message

/-- Something that went well. -/
def success (code : Code) (message : String) : Event := of .info code message

/-- A detail of interest to whoever looks for a fault in the library. -/
def debug (message : String) : Event := of .debug .plainDebug message

/-- The event, about a span. -/
def about (e : Event) (span : Span) : Event := { e with span := some span }

/-- The event with a named value. -/
def withValue (e : Event) (name value : String) : Event :=
  { e with context := insertNamed name (journalText value) e.context }

/-- The event with a named number. -/
def withCount (e : Event) (name : String) (count : Nat) : Event := e.withValue name s!"{count}"

/-- The value of a name. -/
def value? (e : Event) (name : String) : Option String :=
  (e.context.find? (·.1 == name)).map (·.2)

/-- Whether the event is a fault. -/
def isError (e : Event) : Bool := e.level == .error

/-- The category of the event's code. -/
def category (e : Event) : String := e.code.category

/-! ## Writing events -/

/-- An event as a line that people read. -/
def text (e : Event) : String :=
  let place := match e.span with
    | some span => s!" at {span.text}"
    | none => ""
  let values := e.context.map fun p => s!"{p.1}={p.2}"
  let tail := if values.isEmpty then "" else " (" ++ ", ".intercalate values ++ ")"
  s!"[{e.level.tag}] {e.code.text} - {e.message}{place}{tail}"

/-- A JSON object of fields that are already written. -/
def jsonObject (fields : List (String × String)) : String :=
  let field := fun (p : String × String) => jsonString p.1 ++ ":" ++ p.2
  "\x7b" ++ ",".intercalate (fields.map field) ++ "\x7d"

/-- The word for a truth value. -/
def jsonBool (b : Bool) : String := if b then "true" else "false"

/-- A span as a JSON object. -/
def jsonSpan (s : Span) : String :=
  jsonObject [("start_byte", s!"{s.start.offset}"), ("end_byte", s!"{s.stop.offset}"),
    ("start_line", s!"{s.start.line}"), ("start_column", s!"{s.start.column}"),
    ("end_line", s!"{s.stop.line}"), ("end_column", s!"{s.stop.column}")]

/-- What the register knows about a fault, as a JSON object. -/
def jsonFault (i : FaultInfo) : String :=
  jsonObject [("severity", jsonString i.severity.name), ("recoverable", jsonBool i.recoverable),
    ("requires_halt", jsonBool i.halts), ("description", jsonString i.description),
    ("recommended_action", jsonString i.action)]

/-- An event as a line that programs read: one JSON object, without the fields that are absent. -/
def jsonLine (timestamp : String) (e : Event) : String :=
  let values := e.context.map fun p => (p.1, jsonString p.2)
  let fault := if e.isError then e.code.info? else none
  jsonObject <|
    [("timestamp", jsonString timestamp), ("level", jsonString e.level.tag),
      ("code", jsonString e.code.text), ("category", jsonString e.category),
      ("message", jsonString e.message)] ++
    (e.span.map fun s => ("span", jsonSpan s)).toList ++
    (if values.isEmpty then [] else [("context", jsonObject values)]) ++
    (fault.map fun i => ("error_metadata", jsonFault i)).toList

end Event

end LayeredSyntax
