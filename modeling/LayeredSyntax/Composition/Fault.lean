/-
  COMPOSITION FAULTS — why grammars do not go together.

  These are the only faults that stop the library: they arise while grammars are checked and
  composed, never while a text is parsed.  A fault is a cause with what it is about; its code, its
  message and the grammar that it belongs to are read off it.
-/
import LayeredSyntax.Grammar.Basic
import LayeredSyntax.Journal.Code

namespace LayeredSyntax

/-- Why a slot cannot be filled. -/
inductive SlotFault where
  /-- The grammar that should fill it is not among those composed. -/
  | missingGrammar (grammar : GrammarId)
  /-- The rule that should fill it is neither the start of its grammar nor exported. -/
  | privateRule (grammar : GrammarId) (rule : String)
  /-- The grammar uses the slot but does not declare it. -/
  | undeclared
  /-- The rule that should fill it does not exist. -/
  | missingRule
deriving DecidableEq, Inhabited, Repr

/-- What is said about a slot that cannot be filled. -/
def SlotFault.reason : SlotFault → String
  | missingGrammar g => s!"grammar '{g.name}' is not part of the composition"
  | privateRule g rule => s!"'{g.name}::{rule}' is not the start rule or an export"
  | undeclared => "slot is not declared"
  | missingRule => "target rule is not defined"

/-- How the levels of grammars can disagree. -/
inductive LevelFault where
  /-- A level groups in two ways. -/
  | associativity (level : String) (first second : Assoc)
  /-- Two levels stand in both orders. -/
  | order (level before : String)
  /-- An operator is on two levels. -/
  | operator (operator first second : String)
deriving DecidableEq, Inhabited, Repr

/-- What is said about levels that disagree. -/
def LevelFault.message : LevelFault → String
  | associativity level first second => say level s!"Some({first.name})" second.name
  | order level before => say level before level
  | operator op first second => say op first second
where
  /-- The common form of the messages. -/
  say (subject first second : String) : String :=
    s!"Operator '{subject}' has precedence '{first}' and '{second}' in different grammars"

/-- **Why grammars do not go together.** -/
inductive CompositionFault where
  | undefinedNonterminal (grammar : GrammarId) (rule symbol : String)
  | unsatisfiedEmbedding (grammar : GrammarId) (slot : String) (cause : SlotFault)
  | ambiguousEmbedding (grammar : GrammarId) (slot : String)
  | unknownGrammar (name : String)
  /-- Grammars that embed each other, from one of them back to it. -/
  | cyclicEmbedding (path : List GrammarId)
  | conflictingPrecedence (cause : LevelFault)
  | undefinedLevel (grammar : GrammarId) (level : String)
  | missingPrecedence (grammar : GrammarId) (rule : String)
  | emptyRule (grammar : GrammarId) (rule : String)
  | emptyProduction (grammar : GrammarId) (rule : String)
  | duplicateRule (grammar : GrammarId) (rule : String)
  | missingStart (grammar : GrammarId) (rule : String)
  | unreachableRule (grammar : GrammarId) (rule : String)
deriving DecidableEq, Inhabited, Repr

namespace CompositionFault

/-- What is said about a fault. -/
def message : CompositionFault → String
  | undefinedNonterminal g rule symbol =>
    s!"Rule '{g.name}::{rule}' references undefined non-terminal '{symbol}'"
  | unsatisfiedEmbedding g slot cause =>
    s!"Embedding point '{slot}' in grammar '{g.name}' is not satisfied: {cause.reason}"
  | ambiguousEmbedding g slot =>
    s!"Embedding point '{slot}' in grammar '{g.name}' is declared more than once"
  | unknownGrammar name => s!"Unknown grammar '{name}'"
  | cyclicEmbedding path => "Cyclic embedding: " ++ " -> ".intercalate (path.map (·.name))
  | conflictingPrecedence cause => cause.message
  | undefinedLevel g level =>
    s!"Precedence level '{level}' used by grammar '{g.name}' is not defined"
  | missingPrecedence g rule =>
    s!"Binary production of '{g.name}::{rule}' has no precedence level"
  | emptyRule g rule => s!"Rule '{g.name}::{rule}' has no alternatives"
  | emptyProduction g rule => s!"Rule '{g.name}::{rule}' has an empty production"
  | duplicateRule g rule => s!"Rule '{g.name}::{rule}' is defined more than once"
  | missingStart g rule => s!"Start rule '{rule}' of grammar '{g.name}' is not defined"
  | unreachableRule g rule =>
    s!"Rule '{g.name}::{rule}' is unreachable from the start rule and exports"

/-- The code under which a fault is reported. -/
def code : CompositionFault → Code
  | undefinedNonterminal .. => .undefinedNonterminal
  | unsatisfiedEmbedding .. => .unsatisfiedEmbedding
  | ambiguousEmbedding .. => .ambiguousEmbedding
  | unknownGrammar .. => .unknownGrammar
  | cyclicEmbedding .. => .cyclicEmbedding
  | conflictingPrecedence .. => .conflictingPrecedence
  | undefinedLevel .. => .undefinedLevel
  | missingPrecedence .. => .missingPrecedence
  | emptyRule .. => .emptyRule
  | emptyProduction .. => .emptyProduction
  | duplicateRule .. => .duplicateRule
  | missingStart .. => .missingStart
  | unreachableRule .. => .unreachableRule

/-- The grammar that a fault belongs to, if it belongs to one. -/
def grammar? : CompositionFault → Option GrammarId
  | undefinedNonterminal g .. | unsatisfiedEmbedding g .. | ambiguousEmbedding g ..
  | undefinedLevel g .. | missingPrecedence g .. | emptyRule g .. | emptyProduction g ..
  | duplicateRule g .. | missingStart g .. | unreachableRule g .. => some g
  | cyclicEmbedding path => path.head?
  | unknownGrammar .. | conflictingPrecedence .. => none

end CompositionFault

end LayeredSyntax
