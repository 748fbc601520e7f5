/-
  DIAGNOSTICS — what is wrong with a text, and where.

  Parsing never fails: what is wrong is read off the finished tree.  Every error region and every
  missing node gives one diagnostic, and so does every token that could not be read.  Nodes inside
  of an error region give none, as the region speaks for them.

  What is said about a region comes from the repair that left it behind, which is found by the byte
  at which the region begins.
-/
import LayeredSyntax.Parse.Run
import LayeredSyntax.Token.Fault

namespace LayeredSyntax

/-- What can be wrong. -/
inductive DiagnosticCause where
  /-- A token stands where something else is expected. -/
  | unexpectedToken (expected found : String)
  /-- The text ends where something is expected. -/
  | unexpectedEnd (expected : String)
  /-- A symbol is not there. -/
  | missingSymbol (symbol : String)
  /-- The parse gave up. -/
  | tooManyRepairs
  /-- The parse itself failed. -/
  | failure (message : String)
  /-- A token could not be read. -/
  | lexical (cause : LexicalCause)
deriving DecidableEq, Inhabited, Repr

/-- **Something that is wrong in a text.** -/
structure Diagnostic where
  cause : DiagnosticCause
  span : Span
deriving DecidableEq, Inhabited, Repr

namespace Diagnostic

/-- The code under which a diagnostic is reported. -/
def code (d : Diagnostic) : Code :=
  match d.cause with
  | .unexpectedToken .. => .unexpectedToken
  | .unexpectedEnd _ => .unexpectedEnd
  | .missingSymbol _ => .missingSymbol
  | .tooManyRepairs => .repairLimit
  | .failure _ => .brokenInvariant
  | .lexical cause => cause.code

/-- Whether the diagnostic is about a token that could not be read. -/
def isLexical (d : Diagnostic) : Bool :=
  match d.cause with
  | .lexical _ => true
  | _ => false

/-- What is said about it. -/
def message [Limits] (d : Diagnostic) : String :=
  match d.cause with
  | .unexpectedToken expected found =>
    s!"Unexpected token: expected {expected}, found '{found}' at {d.span.text}"
  | .unexpectedEnd expected => s!"Unexpected end of input: expected {expected} at {d.span.text}"
  | .missingSymbol symbol => s!"Missing {symbol} at {d.span.text}"
  | .tooManyRepairs =>
    s!"Recovery limit of {Limits.repairs} reached; remaining input not parsed at {d.span.text}"
  | .failure message => s!"Internal parser error: {message}"
  | .lexical cause => cause.message

/-- What is said about it, and what to do. -/
def advice [Limits] (d : Diagnostic) : String :=
  let action := d.code.action
  match d.cause with
  | .unexpectedToken expected found => s!"Expected {expected} but found '{found}'. {action}"
  | .unexpectedEnd expected => s!"Unexpected end of input while expecting {expected}. {action}"
  | _ => s!"{d.message} ({action})"

/-- Diagnostics come in the order in which they begin; of those that begin at one place the lexical
    ones come first, and then those that end first. -/
def before (a b : Diagnostic) : Bool :=
  let key := fun (d : Diagnostic) =>
    [d.span.start.offset, if d.isLexical then 0 else 1, d.span.stop.offset]
  !(key b).lex (key a)

/-- A diagnostic about a token that could not be read. -/
def ofLexical (f : LexicalFault) : Diagnostic := ⟨.lexical f.cause, f.span⟩

end Diagnostic

/-! ## Reading diagnostics off a tree -/

/-- The names of what is expected, as one phrase. -/
def describeExpected : List String → String
  | [] => "valid syntax"
  | [name] => name
  | names => "one of " ++ ", ".intercalate names

/-- The first word of a text. -/
def firstWord (text : String) : String :=
  String.ofList ((text.toList.dropWhile isBlank).takeWhile (!isBlank ·))

/-- What is wrong at a region, by the repair that left it behind. -/
def RepairCause.diagnose (expected : String) : RepairCause → DiagnosticCause
  | unexpected found => .unexpectedToken expected found
  | endOfText => .unexpectedEnd expected
  | tooMany => .tooManyRepairs

/-- What is wrong at a region over a span. -/
def regionCause (stream : TokenStream) (repairs : Repairs) (span : Span) : DiagnosticCause :=
  match repairs.lookup span.start.offset with
  | some r => r.cause.diagnose (describeExpected r.expected)
  | none => .unexpectedToken "valid syntax" (firstWord (span.slice stream.document.text))

/-- Where the last token ends that is no trivia. -/
def tokensEnd (stream : TokenStream) : Nat :=
  if stream.size = 0 then 0 else stream.stopByte (stream.size - 1)

/-- What is wrong where a node of a kind is missing. -/
def missingCause (stream : TokenStream) (kind : String) (start : Nat) : DiagnosticCause :=
  if tokensEnd stream ≤ start then .unexpectedEnd kind else .missingSymbol kind

namespace Node

mutual

/-- Put the diagnostics of a node that begins at `start` in front of a reversed list. -/
def diagnosticsOnto (stream : TokenStream) (repairs : Repairs) (start : Nat)
    (out : List Diagnostic) : Node → List Diagnostic
  | .missing kind _ _ =>
    ⟨missingCause stream kind start, stream.document.span start start⟩ :: out
  | n@(.error _) =>
    let span := stream.document.span start (start + n.size)
    ⟨regionCause stream repairs span, span⟩ :: out
  | n@(.rule _ _ _ _ _ cs) =>
    if n.hasError then diagnosticsAllOnto stream repairs start out cs else out
  | n@(.root _ cs) =>
    if n.hasError then diagnosticsAllOnto stream repairs start out cs else out
  | .leaf .. | .trivia .. | .skipped .. => out

/-- Put the diagnostics of some nodes, of which the first one begins at `start`, in front of a
    reversed list. -/
def diagnosticsAllOnto (stream : TokenStream) (repairs : Repairs) (start : Nat)
    (out : List Diagnostic) : List Node → List Diagnostic
  | [] => out
  | c :: cs =>
    diagnosticsAllOnto stream repairs (start + c.size)
      (diagnosticsOnto stream repairs start out c) cs

end

end Node

/-- **The diagnostics of a parse.** -/
def ParseRun.diagnostics [Limits] (r : ParseRun) (stream : TokenStream) : List Diagnostic :=
  let lexical := (lexicalFaults stream.tokens).map .ofLexical
  let found := (r.tree.diagnosticsOnto stream r.repairs 0 []).reverse
  let failures := r.failure.toList.map fun message =>
    ⟨.failure message, stream.document.span 0 stream.document.size⟩
  (lexical ++ found ++ failures).mergeSort Diagnostic.before

/-! ## Running the program -/

example : describeExpected ["a", "b"] = "one of a, b" := by cbv
example : firstWord "  set x" = "set" := by cbv

end LayeredSyntax
