/-
  COMPOSITES — several grammars as one, on common numbers.

  A parse table does not work with names.  In a composite every terminal, rule and production of
  every grammar has a number, and a slot has become a plain reference to the rule that fills it:

  1. Terminals are numbered from 1 on, in the order of their first use; 0 stands for the end of the
     text.
  2. Nonterminals are the rules in order, grammar by grammar, and behind them one ROOT per grammar,
     which stands for a whole text of that grammar.
  3. Productions are the alternatives in the same order, and behind them one production per root.
-/
import LayeredSyntax.Composition.LevelMerge

namespace LayeredSyntax

/-- The number of the end of the text among the terminals. -/
def endOfText : Nat := 0

/-- A symbol by its number.  Terminals come before nonterminals. -/
inductive Sym where
  | t (terminal : Nat)
  | n (nonterminal : Nat)
deriving DecidableEq, Inhabited, Repr, Hashable

/-- A rule of a composite. -/
structure Nonterminal where
  /-- Its name behind the name of its grammar. -/
  qualified : String
  /-- The name of its nodes in a tree. -/
  name : String
  grammar : GrammarId
  /-- Whether it leaves no node in a tree. -/
  hidden : Bool
  /-- Whether it stands for a whole text. -/
  isRoot : Bool
deriving DecidableEq, Inhabited, Repr

/-- An alternative of a composite. -/
structure Production where
  lhs : Nat
  rhs : List Sym
  grammar : GrammarId
  precedence : Option Precedence
  directive : Option ConflictDirective
  binary : Bool
deriving DecidableEq, Inhabited, Repr

/-- Where the texts of a grammar begin. -/
structure Root where
  grammar : GrammarId
  /-- The production of the root. -/
  production : Nat
  /-- The start of the grammar. -/
  start : Nat
deriving DecidableEq, Inhabited, Repr

/-- **Several grammars on common numbers.** -/
structure Composite where
  grammars : List GrammarId
  /-- The terminal of number `i + 1` stands at place `i`. -/
  terminals : Array Terminal
  nonterminals : Array Nonterminal
  productions : Array Production
  roots : List Root
  /-- Where a parse that went wrong can be taken up again, by grammar. -/
  resync : List (GrammarId × List Terminal)
  levels : MergedLevels
deriving DecidableEq, Repr

instance : Inhabited Composite := ⟨⟨[], #[], #[], #[], [], [], .empty⟩⟩

namespace Composite

/-- No grammars. -/
def empty : Composite := default

/-- How many terminals there are, with the end of the text. -/
def terminalCount (c : Composite) : Nat := c.terminals.size + 1

/-- The terminal of a number; nothing for the end of the text. -/
def terminal? (c : Composite) (id : Nat) : Option Terminal :=
  if id = endOfText then none else c.terminals[id - 1]?

/-- The name of a terminal in messages. -/
def terminalName (c : Composite) (id : Nat) : String :=
  match c.terminal? id with
  | some t => t.text
  | none => "end of input"

/-- The nonterminal of a number. -/
def nonterminal (c : Composite) (id : Nat) : Nonterminal := c.nonterminals[id]?.getD default

/-- The nonterminal of a qualified name. -/
def nonterminalNamed? (c : Composite) (qualified : String) : Option Nat :=
  c.nonterminals.findIdx? (·.qualified == qualified)

/-- The production of a number. -/
def production (c : Composite) (id : Nat) : Production := c.productions[id]?.getD default

/-- Whether a symbol is a nonterminal that leaves no node in a tree. -/
def isHidden (c : Composite) : Sym → Bool
  | .t _ => false
  | .n id => (c.nonterminal id).hidden

/-- The name of a symbol in messages. -/
def symbolName (c : Composite) : Sym → String
  | .t id => c.terminalName id
  | .n id => String.ofList ((c.nonterminal id).name.toList.dropWhile (· == '_'))

/-- The terminals at which a parse of a grammar can be taken up again. -/
def resyncOf (c : Composite) (g : GrammarId) : List Terminal := (c.resync.lookup g).getD []

/-- The precedence of a terminal as an operator, seen from a production. -/
def precedenceAhead? (c : Composite) (p : Production) (terminal : Nat) : Option Precedence := do
  let t ← c.terminal? terminal
  c.levels.ofOperator? p.grammar (← t.operator?)

end Composite

end LayeredSyntax
