/-
  LOOKAHEAD — what can stand at the beginning of a nonterminal and right behind it.

  Sets of terminals are numbers, read in binary: terminal `t` is in the set when bit `t` is set.
  As no production is empty, both questions are reachability in a graph:

  1. FIRST.  What a nonterminal can begin with is what the productions of those nonterminals begin
     with that it can begin with.
  2. FOLLOW.  Behind a nonterminal stands what comes next in a production that uses it, and where it
     ends a production, what stands behind the nonterminal of that production.
-/
import LayeredSyntax.Composition.Composite
import LayeredSyntax.Table.Reach

namespace LayeredSyntax

/-- The set of one terminal. -/
def terminalSet (t : Nat) : Nat := 1 <<< t

namespace Composite

/-- The productions of each nonterminal. -/
def productionsByLhs (c : Composite) : Array (List Nat) :=
  let empty := Array.replicate c.nonterminals.size []
  c.productions.toList.zipIdx.foldr
    (fun p table => table.modify p.1.lhs (p.2 :: ·)) empty

/-! ## First -/

/-- The nonterminals with which the productions of each nonterminal begin. -/
def leadingNonterminals (c : Composite) : Array (List Nat) :=
  let empty := Array.replicate c.nonterminals.size []
  c.productions.toList.foldr (fun p table =>
    match p.rhs with
    | .n id :: _ => table.modify p.lhs (id :: ·)
    | _ => table) empty

/-- The terminals with which the productions of each nonterminal begin. -/
def leadingTerminals (c : Composite) : Array Nat :=
  let empty := Array.replicate c.nonterminals.size 0
  c.productions.toList.foldl (fun table p =>
    match p.rhs with
    | .t id :: _ => table.modify p.lhs (· ||| terminalSet id)
    | _ => table) empty

/-- The union of the sets of some nodes. -/
def unionOf (sets : Array Nat) (nodes : List Nat) : Nat :=
  nodes.foldl (fun u i => u ||| sets[i]?.getD 0) 0

/-- For each nonterminal, the union of sets over the nonterminals that it reaches in a graph. -/
def unionOverReached (graph : Array (List Nat)) (sets : Array Nat) : Array Nat :=
  (Array.range sets.size).map fun i =>
    unionOf sets (marked (reach sets.size (fun j => graph[j]?.getD []) [i]))

/-- **What each nonterminal can begin with.** -/
def firstSets (c : Composite) : Array Nat :=
  unionOverReached c.leadingNonterminals c.leadingTerminals

/-! ## Follow -/

/-- Add to the sets of nonterminals what comes directly behind them in a sequence. -/
def addNeighbours (first : Array Nat) (sets : Array Nat) : List Sym → Array Nat
  | .n a :: .t t :: rest =>
    addNeighbours first (sets.modify a (· ||| terminalSet t)) (.t t :: rest)
  | .n a :: .n b :: rest =>
    addNeighbours first (sets.modify a (· ||| first[b]?.getD 0)) (.n b :: rest)
  | _ :: rest => addNeighbours first sets rest
  | [] => sets

/-- What comes behind each nonterminal inside a production; the end of the text comes behind a
    root. -/
def neighbourSets (c : Composite) (first : Array Nat) : Array Nat :=
  let ends := c.nonterminals.map fun n => if n.isRoot then terminalSet endOfText else 0
  c.productions.toList.foldl (fun sets p => addNeighbours first sets p.rhs) ends

/-- The nonterminals whose productions end with each nonterminal. -/
def trailedBy (c : Composite) : Array (List Nat) :=
  let empty := Array.replicate c.nonterminals.size []
  c.productions.toList.foldr (fun p table =>
    match p.rhs.getLast? with
    | some (.n id) => table.modify id (p.lhs :: ·)
    | _ => table) empty

/-- **What can stand right behind each nonterminal.** -/
def followSets (c : Composite) : Array Nat :=
  unionOverReached c.trailedBy (c.neighbourSets c.firstSets)

end Composite

end LayeredSyntax
