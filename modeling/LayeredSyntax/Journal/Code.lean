/-
  CODES — the short names under which events and diagnostics are reported.

  A code is a letter and a number.  The codes of faults are registered with their category, how
  severe they are and what to do about them; the first letter of any other code tells what it
  reports.  A code that is not registered counts as a fault of medium severity that a run survives.
-/
namespace LayeredSyntax

/-- The name of something that is reported. -/
structure Code where
  text : String
deriving DecidableEq, Inhabited, Repr

/-! ## The codes of the library -/

namespace Code

/-! **The system.** -/

def internalError : Code := ⟨"ERR001"⟩
def badSettings : Code := ⟨"ERR003"⟩

/-! **Reading tokens.** -/

def invalidCharacter : Code := ⟨"E020"⟩
def unterminatedString : Code := ⟨"E021"⟩
def unterminatedComment : Code := ⟨"E022"⟩
def nameTooLong : Code := ⟨"E023"⟩
def stringTooLarge : Code := ⟨"E024"⟩
def unterminatedRegion : Code := ⟨"E026"⟩
def tooManyTokens : Code := ⟨"E027"⟩

/-! **Parsing.** -/

def unexpectedEnd : Code := ⟨"E040"⟩
def missingSymbol : Code := ⟨"E042"⟩
def unexpectedToken : Code := ⟨"E050"⟩
def repairLimit : Code := ⟨"E051"⟩
def brokenInvariant : Code := ⟨"E086"⟩

/-! **Composing grammars.** -/

def undefinedNonterminal : Code := ⟨"E100"⟩
def unsatisfiedEmbedding : Code := ⟨"E101"⟩
def cyclicEmbedding : Code := ⟨"E102"⟩
def conflictingPrecedence : Code := ⟨"E103"⟩
def undefinedLevel : Code := ⟨"E104"⟩
def missingPrecedence : Code := ⟨"E105"⟩
def emptyRule : Code := ⟨"E106"⟩
def duplicateRule : Code := ⟨"E107"⟩
def unreachableRule : Code := ⟨"E108"⟩
def missingStart : Code := ⟨"E109"⟩
def emptyProduction : Code := ⟨"E110"⟩
def ambiguousEmbedding : Code := ⟨"E111"⟩
def unknownGrammar : Code := ⟨"E112"⟩

/-! **Editing.** -/

def invalidEdit : Code := ⟨"E120"⟩

/-! **What went well.** -/

def tokensRead : Code := ⟨"I020"⟩
def grammarsComposed : Code := ⟨"I030"⟩
def tableBuilt : Code := ⟨"I031"⟩
def parsed : Code := ⟨"I040"⟩
def reparsed : Code := ⟨"I041"⟩

/-! **Everything else.** -/

def plainWarning : Code := ⟨"W000"⟩
def plainInfo : Code := ⟨"I000"⟩
def plainDebug : Code := ⟨"D000"⟩

end Code

/-! ## The register -/

/-- How bad a fault is. -/
inductive Severity where
  | critical | high | medium | low
deriving DecidableEq, Inhabited, Repr

/-- The name of a severity. -/
def Severity.name : Severity → String
  | .critical => "Critical"
  | .high => "High"
  | .medium => "Medium"
  | .low => "Low"

/-- What is known about the code of a fault. -/
structure FaultInfo where
  code : String
  category : String
  severity : Severity
  /-- Whether a run goes on after the fault. -/
  recoverable : Bool
  /-- Whether a run has to stop at the fault. -/
  halts : Bool
  description : String
  /-- What to do about the fault. -/
  action : String
deriving DecidableEq, Inhabited, Repr

/-- The faults of the library, by category. -/
def registeredFaults : List FaultInfo := [
    ⟨"ERR001", "System", .critical, false, true,
      "Critical internal engine error",
      "File a bug report with the input that triggered it"⟩,
    ⟨"ERR002", "System", .critical, false, true,
      "Logging or engine initialization failure",
      "Check configuration and initialization order"⟩,
    ⟨"ERR003", "System", .high, false, true,
      "Invalid runtime configuration",
      "Fix the runtime preferences file or environment variables"⟩,
    ⟨"E020", "Lexical", .low, true, false,
      "Character not valid in the current lexical mode",
      "Remove or quote the character"⟩,
    ⟨"E021", "Lexical", .medium, true, false,
      "String literal not terminated before end of line",
      "Close the string with a double quote"⟩,
    ⟨"E022", "Lexical", .medium, true, false,
      "Block comment not terminated",
      "Close the comment with */"⟩,
    ⟨"E023", "Lexical", .low, true, false,
      "Identifier exceeds the configured length limit",
      "Shorten the identifier"⟩,
    ⟨"E024", "Lexical", .low, true, false,
      "String literal exceeds the configured size limit",
      "Split the literal"⟩,
    ⟨"E026", "Lexical", .medium, true, false,
      "Embedded region or raw body not terminated",
      "Add the closing delimiter of the embedded region"⟩,
    ⟨"E027", "Lexical", .high, true, false,
      "Token limit reached; remainder scanned as one error token",
      "Split the document or raise max_token_count"⟩,
    ⟨"E040", "Syntax", .medium, true, false,
      "Input ended before the construct was complete",
      "Complete the construct"⟩,
    ⟨"E042", "Syntax", .medium, true, false,
      "A required symbol is missing",
      "Insert the missing symbol"⟩,
    ⟨"E050", "Syntax", .medium, true, false,
      "Token not valid at this position",
      "Check the statement syntax near the token"⟩,
    ⟨"E051", "Syntax", .high, true, false,
      "Recovery limit reached; remainder wrapped in one error node",
      "Fix earlier errors first"⟩,
    ⟨"E086", "Syntax", .critical, false, false,
      "Internal parser invariant violated",
      "File a bug report with the input that triggered it"⟩,
    ⟨"E100", "Grammar", .critical, false, true,
      "Rule references an undefined non-terminal",
      "Define the rule or fix the reference"⟩,
    ⟨"E101", "Grammar", .critical, false, true,
      "Embedding point has no target grammar in the composition",
      "Include the target grammar or export the rule"⟩,
    ⟨"E102", "Grammar", .critical, false, true,
      "Embedding relation between grammars is cyclic",
      "Remove the back edge from the embedding graph"⟩,
    ⟨"E103", "Grammar", .critical, false, true,
      "Two grammars assign different precedence to one terminal",
      "Align the levels or make one of them local"⟩,
    ⟨"E104", "Grammar", .critical, false, true,
      "Production references an undeclared precedence level",
      "Declare the level in the precedence table"⟩,
    ⟨"E105", "Grammar", .critical, false, true,
      "Binary operator production has no precedence level",
      "Tag the production with a level"⟩,
    ⟨"E106", "Grammar", .critical, false, true,
      "Rule has no productions",
      "Add at least one alternative"⟩,
    ⟨"E107", "Grammar", .critical, false, true,
      "Rule defined twice in one grammar",
      "Merge the definitions"⟩,
    ⟨"E108", "Grammar", .high, false, true,
      "Rule is unreachable from the start or exported rules",
      "Remove the rule or reference it"⟩,
    ⟨"E109", "Grammar", .critical, false, true,
      "Start rule is not defined",
      "Define the start rule"⟩,
    ⟨"E110", "Grammar", .critical, false, true,
      "Production expands to an empty sequence",
      "Remove the empty alternative; optional parts belong to the parent"⟩,
    ⟨"E111", "Grammar", .critical, false, true,
      "Embedding point satisfied by more than one grammar",
      "Declare a single target grammar"⟩,
    ⟨"E112", "Grammar", .critical, false, true,
      "Grammar name is not known",
      "Use core, expr or udl"⟩,
    ⟨"E120", "Incremental", .low, true, false,
      "Edit does not match the previous source",
      "Parse from scratch"⟩]

namespace Code

/-- What the register says about a code. -/
def info? (c : Code) : Option FaultInfo := registeredFaults.find? (·.code == c.text)

/-- How bad the fault is. -/
def severity (c : Code) : Severity := (c.info?.map (·.severity)).getD .medium

/-- Whether a run goes on after the fault. -/
def isRecoverable (c : Code) : Bool := (c.info?.map (·.recoverable)).getD true

/-- Whether a run has to stop at the fault. -/
def halts (c : Code) : Bool := (c.info?.map (·.halts)).getD false

/-- What the fault is. -/
def description (c : Code) : String := (c.info?.map (·.description)).getD "Unknown error"

/-- What to do about the fault. -/
def action (c : Code) : String := (c.info?.map (·.action)).getD "No specific action available"

/-- The category of a code: the registered one, or what its first letter stands for. -/
def category (c : Code) : String :=
  match c.info? with
  | some info => info.category
  | none =>
    match c.text.toList with
    | 'I' :: _ => "Success"
    | 'W' :: _ => "Warning"
    | 'D' :: _ => "Debug"
    | _ => "Unknown"

end Code

/-! ## Running the program -/

example : Code.unexpectedToken.category = "Syntax" := by decide +kernel
example : (Code.mk "E999").severity = .medium ∧ (Code.mk "I9").category = "Success" := by
  decide +kernel

end LayeredSyntax
