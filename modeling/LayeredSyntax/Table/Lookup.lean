/-
  LOOKING THINGS UP in a parse table.
-/
import LayeredSyntax.Journal.Event
import LayeredSyntax.Table.Build

namespace LayeredSyntax

namespace Table

/-- How many states there are. -/
def stateCount (t : Table) : Nat := t.states.size

/-- The cell of a state and a terminal. -/
def actionsAt (t : Table) (state terminal : Nat) : List Action :=
  match t.states[state]? with
  | some s => s.actions[terminal]?.getD []
  | none => []

/-- The state behind a nonterminal. -/
def goto? (t : Table) (state nonterminal : Nat) : Option Nat := do
  let s ← t.states[state]?
  (s.gotos[nonterminal]?).join

/-- Where the texts of a grammar begin. -/
def entry? (t : Table) (g : GrammarId) : Option Entry := t.entries.find? (·.grammar == g)

/-- Whether a grammar is one of those composed. -/
def contains (t : Table) (g : GrammarId) : Bool := t.grammars.contains g

/-- The terminals that a token can be taken for. -/
def terminalsFor (t : Table) (k : TokenKind) (text : String) : List Nat :=
  t.matching.terminalsFor k text

/-- The symbols that can come next in a state, by the items that it stands for. -/
def expected (t : Table) (state : Nat) : List String :=
  match t.states[state]? with
  | some s => (s.kernel.filterMap fun item =>
      (t.nextSymbol? item).map t.symbolName).foldl Grammar.addNew []
  | none => []

/-- A short description of the table. -/
def text (t : Table) : String :=
  let names := "+".intercalate (t.grammars.map (·.name))
  s!"MergedTable[{names}]: {t.terminalCount} terminals, {t.nonterminals.size} non-terminals, " ++
    s!"{t.productions.size} productions, {t.stateCount} states"

/-! ## What building a table tells -/

/-- The event of one conflict that was kept. -/
def conflictEvent [Limits] (t : Table) (state terminal actions : Nat) : Event :=
  (Event.debug "Conflict kept for GLR")
    |>.withCount "state" state
    |>.withValue "terminal" (t.terminalName terminal)
    |>.withCount "actions" actions

/-- The events of the conflicts that were kept. -/
def conflictEvents [Limits] (t : Table) : List Event :=
  t.states.toList.zipIdx.flatMap fun p =>
    p.1.conflicts.map fun c => t.conflictEvent p.2 c.1 c.2

/-- The events of building the table. -/
def events [Limits] (t : Table) (reportConflicts : Bool) : List Event :=
  let built := (Event.success .tableBuilt "Parse table constructed")
    |>.withCount "states" t.stateCount
    |>.withCount "productions" t.productions.size
    |>.withCount "conflicts_kept" t.conflictsKept
    |>.withCount "conflicts_pruned" t.conflictsPruned
  (if reportConflicts then t.conflictEvents else []) ++ [built]

end Table

end LayeredSyntax
