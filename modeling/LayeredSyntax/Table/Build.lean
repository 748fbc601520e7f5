/-
  BUILDING TABLES — from the automaton to cells of actions.

  In a state a terminal can be read where the automaton follows it, and a production that is
  complete can be finished in front of what can stand behind its nonterminal.  Where both are
  possible, precedence settles the pair, and a directive does where precedence says nothing; what
  neither settles is kept, for the parse to follow both ways.  **Nothing is taken out without such a
  reason.**
-/
import LayeredSyntax.Table.Automaton

namespace LayeredSyntax

/-! ## Conflicts -/

/-- How a pair of reading a terminal and finishing a production is settled, if it is. -/
def Composite.settle? (c : Composite) (terminal : Nat) (p : Production) : Option Resolution :=
  match p.precedence, c.precedenceAhead? p terminal with
  | some finished, some ahead => some (resolve finished ahead)
  | _, _ =>
    match p.directive with
    | some .preferShift => some .shift
    | some .preferReduce => some .reduce
    | none => none

/-- A cell after its conflicts have been settled. -/
structure Pruned where
  cell : List Action
  /-- How many pairs were settled. -/
  settled : Nat
deriving DecidableEq, Inhabited, Repr

/-- Whether a production loses its pair. -/
def Resolution.dropsReduce : Resolution → Bool
  | .shift | .neither => true
  | .reduce => false

/-- Whether reading on loses its pair. -/
def Resolution.dropsShift : Resolution → Bool
  | .reduce | .neither => true
  | .shift => false

/-- **Settle what can be settled** between reading a terminal and finishing some productions.  Each
    production is compared with the terminal alone. -/
def Composite.prune (c : Composite) (terminal : Nat) (shift : Option Nat) (reduces : List Nat)
    (accepts : Bool) : Pruned :=
  let tail := if accepts then [.accept] else []
  match shift with
  | none => ⟨reduces.map .reduce ++ tail, 0⟩
  | some state =>
    let settled := reduces.map fun p => (p, c.settle? terminal (c.production p))
    let kept := (settled.filter fun p => !(p.2.any Resolution.dropsReduce)).map (·.1)
    let reads := !(settled.any fun p => p.2.any Resolution.dropsShift)
    ⟨(if reads then [.shift state] else []) ++ kept.map .reduce ++ tail,
      (settled.filter (·.2.isSome)).length⟩

/-! ## States -/

/-- The productions that are complete in a state; as none is empty, the kernel has them all. -/
def ItemGraph.complete (g : ItemGraph) (kernel : List Item) : List Nat :=
  (kernel.filter fun item => (g.nextSymbol? item).isNone).map (·.production)

/-- The next state behind a symbol. -/
def nextState? (moves : List (Sym × Nat)) (s : Sym) : Option Nat := moves.lookup s

/-- The cells of a state, with what was settled in them. -/
def Composite.cells (c : Composite) (follow : Array Nat) (complete : List Nat)
    (moves : List (Sym × Nat)) : Array Pruned :=
  let isRoot := fun p => (c.nonterminal (c.production p).lhs).isRoot
  let accepts := complete.any isRoot
  let finished := (complete.filter fun p => !isRoot p).map fun p =>
    (p, follow[(c.production p).lhs]?.getD 0)
  (Array.range c.terminalCount).map fun t =>
    let reduces := (finished.filter fun p => p.2.testBit t).map (·.1)
    c.prune t (nextState? moves (.t t)) reduces (accepts && t == endOfText)

/-- A state of the table and how many pairs were settled in it. -/
def ItemGraph.tableState (g : ItemGraph) (follow : Array Nat) (kernel : List Item)
    (moves : List (Sym × Nat)) : TableState × Nat :=
  let cells := g.composite.cells follow (g.complete kernel) moves
  let gotos := (Array.range g.composite.nonterminals.size).map fun n => nextState? moves (.n n)
  (⟨kernel, cells.map (·.cell), gotos⟩, cells.foldl (fun n p => n + p.settled) 0)

/-- The cells of a state that are conflicts: their terminals and how many actions they have. -/
def TableState.conflicts (s : TableState) : List (Nat × Nat) :=
  s.actions.toList.zipIdx.filterMap fun p =>
    if 1 < p.1.length then some (p.2, p.1.length) else none

/-! ## Tables -/

/-- **The table of a composite.** -/
def Table.ofComposite (c : Composite) : Table :=
  let graph := ItemGraph.of c
  let automaton := Automaton.of graph
  let follow := c.followSets
  let rows := (automaton.kernels.zip automaton.moves).map fun p => graph.tableState follow p.1 p.2
  let states := rows.map (·.1)
  { c with
    states
    entries := c.roots.zipIdx.map fun p => ⟨p.1.grammar, p.2, p.1.start⟩
    matching := .ofTerminals c.terminals.toList
    conflictsKept := states.foldl (fun n s => n + s.conflicts.length) 0
    conflictsPruned := rows.foldl (fun n r => n + r.2) 0 }

/-- The table of no grammars: every parse with it ends at once. -/
def Table.empty : Table := .ofComposite .empty

instance : Inhabited Table := ⟨.empty⟩

end LayeredSyntax
