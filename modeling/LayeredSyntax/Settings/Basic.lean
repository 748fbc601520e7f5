/-
  SETTINGS — the preferences of a parser and of its journal.

  Every preference has a default, so settings can be given in part.
-/
import LayeredSyntax.Journal.Event

namespace LayeredSyntax

/-- Preferences for reading tokens. -/
structure LexicalSettings where
  /-- Count the tokens of each kind. -/
  countKinds : Bool
  /-- Tell about each error token. -/
  reportErrors : Bool
deriving DecidableEq, Repr

/-- Preferences for parsing. -/
structure ParseSettings where
  /-- Reuse the subtrees of an earlier tree. -/
  reuse : Bool
  /-- Tell about the conflicts that a table keeps. -/
  reportConflicts : Bool
  /-- Tell about each repair. -/
  reportRepairs : Bool
deriving DecidableEq, Repr

/-- Preferences for the journal. -/
structure JournalSettings where
  /-- JSON lines instead of plain text. -/
  structured : Bool
  /-- Write to the console. -/
  console : Bool
  /-- The least important level that is kept. -/
  least : EventLevel
deriving DecidableEq, Repr

/-- All preferences. -/
structure Settings where
  lexical : LexicalSettings
  parsing : ParseSettings
  journal : JournalSettings
deriving DecidableEq, Repr

/-- The preferences when nothing is said about tokens. -/
def LexicalSettings.standard : LexicalSettings := ⟨true, false⟩

/-- The preferences when nothing is said about parsing. -/
def ParseSettings.standard : ParseSettings := ⟨true, false, true⟩

/-- The preferences when nothing is said about the journal. -/
def JournalSettings.standard : JournalSettings := ⟨false, false, .info⟩

/-- The preferences when nothing is said. -/
def Settings.standard : Settings := ⟨.standard, .standard, .standard⟩

instance : Inhabited LexicalSettings := ⟨.standard⟩
instance : Inhabited ParseSettings := ⟨.standard⟩
instance : Inhabited JournalSettings := ⟨.standard⟩
instance : Inhabited Settings := ⟨.standard⟩

/-- The state of the journal, as the diagnostics report it.  `installed` tells whether a journal
    of the whole program is in place. -/
def journalSummary [Limits] (installed : Bool) (s : JournalSettings) : String :=
  "Logging initialized: " ++ Event.jsonBool installed ++
    "\nLogging: level=" ++ s.least.tag ++ " console=" ++ Event.jsonBool s.console ++
    " structured=" ++ Event.jsonBool s.structured ++
    s!" buffer={Limits.journalEvents} max_message={Limits.journalText}"

end LayeredSyntax
