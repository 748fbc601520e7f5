/-
  PARSE TABLES — what a parse can do in each of its states.

  A state stands for what has been read so far.  For each terminal ahead it has a CELL of actions:
  read the terminal and go to another state, finish a production, or accept the text.  A cell with
  more than one action is a conflict that was left open, and the parse follows all of its actions.
  For each nonterminal it says which state follows once the nonterminal has been made.

  One table serves several grammars.  Each has an ENTRY, the state in which its texts begin.
-/
import LayeredSyntax.Composition.Composite
import LayeredSyntax.Table.Matching

namespace LayeredSyntax

/-- What can be done in a state.  Within a cell reading on comes first, and productions come in
    their order. -/
inductive Action where
  /-- Read the terminal and go to a state. -/
  | shift (state : Nat)
  /-- Finish a production. -/
  | reduce (production : Nat)
  /-- Accept the text. -/
  | accept
deriving DecidableEq, Inhabited, Repr

/-- A production with a place in it.  Places are numbers of 16 bits. -/
structure Item where
  production : Nat
  /-- Symbols in front of the place. -/
  dot : UInt16
deriving DecidableEq, Inhabited, Repr, Hashable

/-- Items are ordered by production and place. -/
def Item.before (a b : Item) : Bool :=
  a.production < b.production || (a.production == b.production && a.dot < b.dot)

/-- A state of a parse. -/
structure TableState where
  /-- The items that the state stands for, in order. -/
  kernel : List Item
  /-- The cells by terminal. -/
  actions : Array (List Action)
  /-- The next states by nonterminal. -/
  gotos : Array (Option Nat)
deriving DecidableEq, Inhabited, Repr

/-- Where the texts of a grammar begin. -/
structure Entry where
  grammar : GrammarId
  state : Nat
  /-- The start of the grammar. -/
  start : Nat
deriving DecidableEq, Inhabited, Repr

/-- **A parse table.** -/
structure Table extends Composite where
  states : Array TableState
  entries : List Entry
  /-- Numbers of terminals by what they match. -/
  matching : Matching
  /-- Cells left with more than one action. -/
  conflictsKept : Nat
  /-- Pairs of actions of which at least one was taken out. -/
  conflictsPruned : Nat
deriving DecidableEq, Repr

end LayeredSyntax
