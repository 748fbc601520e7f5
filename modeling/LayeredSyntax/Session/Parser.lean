/-
  PARSERS — parsing a text, and parsing it again after an edit.

  A parser goes by a language and by settings, and remembers the last diagnostics.  Parsing an
  edited text again starts from the outcome of an earlier parse: only the tokens around the edit are
  read again, and subtrees that cannot have changed are taken over.  They are only taken over from
  the same table, grammar and repairs, since **saved work must not change the answer**.

  An edit that does not fit the two texts is reported, and the new text is parsed as if there had
  been no earlier parse.
-/
import LayeredSyntax.Edit.Candidates
import LayeredSyntax.Session.Outcome

namespace LayeredSyntax

/-- **A parser.** -/
structure Parser where
  language : Language
  /-- Where a parse that went wrong can be taken up again. -/
  resync : ResyncSet
  parsing : ParseSettings
  lexical : LexicalSettings
  /-- The last diagnostics, the oldest first. -/
  history : List Diagnostic

/-- An outcome, the parser behind it and what was told. -/
structure ParseReport where
  outcome : ParseOutcome
  parser : Parser
  events : List Event

namespace Parser

/-- A parser of a language. -/
def ofLanguage (l : Language) : Parser := ⟨l, .ofTable l.table, .standard, .standard, []⟩

variable [Limits]

/-- What making a parser tells. -/
def creationEvent (l : Language) : Event :=
  (Event.debug "Creating parser").withValue "grammar" l.grammar.name

/-- The same parser with settings. -/
def withSettings (p : Parser) (s : Settings) : Parser :=
  { p with parsing := s.parsing, lexical := s.lexical }

/-- Diagnostics behind those remembered; the oldest ones are forgotten. -/
def remember (p : Parser) (ds : List Diagnostic) : Parser :=
  let all := p.history ++ ds
  { p with history := all.drop (all.length - Limits.history) }

/-- Forget all diagnostics. -/
def forget (p : Parser) : Parser := { p with history := [] }

/-- Parse tokens, with subtrees that can be taken over. -/
def runOn (p : Parser) (stream : TokenStream) (reuse : Option ReuseIndex) : ParseRun :=
  (ParseJob.prepare p.language.table p.language.grammar stream p.resync reuse
    p.parsing.reportRepairs).run

/-- **Parse a text.** -/
def parse (p : Parser) (source : String) : ParseReport :=
  let d := Document.ofText source
  let mode := p.language.mode
  let stream := TokenStream.read mode d
  let run := p.runOn stream none
  let outcome := ParseOutcome.ofRun p.language p.resync stream run
  let done := (Event.success .parsed "Parse completed")
    |>.withValue "grammar" p.language.grammar.name
    |>.withCount "tokens" outcome.counts.tokens
    |>.withCount "gss_nodes" outcome.counts.stackNodes
    |>.withCount "errors" outcome.diagnostics.length
  let read := tokenizeEvents p.lexical mode d.size stream.tokens ++ [stream.event]
  ⟨outcome, p.remember outcome.diagnostics, read ++ run.events ++ [done]⟩

/-- Whether subtrees of an earlier outcome can be taken over. -/
def canReuse (p : Parser) (previous : ParseOutcome) : Bool :=
  let l := previous.language
  p.parsing.reuse && l.composition == p.language.composition && l.table == p.language.table &&
    l.grammar == p.language.grammar && previous.resync == p.resync

/-- **Parse an edited text again**, if the edit fits the two texts. -/
def reparse? (p : Parser) (previous : ParseOutcome) (e : Edit) (source : String) :
    Except EditFault ParseReport := do
  e.check previous.source source
  let relexed := relex previous.stream e source p.language.mode
  let index :=
    if p.canReuse previous then
      ReuseIndex.build previous.tree previous.marks previous.stream relexed p.resync
    else .empty
  let run := p.runOn relexed.stream (some index)
  let saved := ReparseCounts.mk run.reused relexed.reread
  let outcome :=
    { ParseOutcome.ofRun p.language p.resync relexed.stream run with saved := some saved }
  let collected := (Event.debug "Reuse candidates collected")
    |>.withCount "candidates" index.size
    |>.withCount "relexed_tokens" saved.reread
  let done := (Event.success .reparsed "Reparse completed")
    |>.withValue "grammar" p.language.grammar.name
    |>.withCount "reused_subtrees" saved.reused
    |>.withCount "relexed_tokens" saved.reread
    |>.withCount "errors" outcome.diagnostics.length
  return ⟨outcome, p.remember outcome.diagnostics,
    relexed.events ++ [collected] ++ run.events ++ [done]⟩

/-- Parse an edited text again; when the edit does not fit, parse the new text from the beginning.
    -/
def reparse (p : Parser) (previous : ParseOutcome) (e : Edit) (source : String) : ParseReport :=
  match p.reparse? previous e source with
  | .ok r => r
  | .error fault =>
    let event := (Event.error fault.code "Invalid edit, parsing from scratch")
      |>.withValue "error" s!"Invalid edit: {fault.message}"
    let r := p.parse source
    { r with events := event :: r.events }

end Parser

/-- Parse a text in a language. -/
def parseText [Limits] (l : Language) (source : String) : ParseOutcome :=
  ((Parser.ofLanguage l).parse source).outcome

/-- Parse an edited text again in a language. -/
def reparseText [Limits] (l : Language) (previous : ParseOutcome) (e : Edit) (source : String) :
    ParseOutcome :=
  ((Parser.ofLanguage l).reparse previous e source).outcome

end LayeredSyntax
