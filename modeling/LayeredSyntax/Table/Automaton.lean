/-
  THE AUTOMATON — the states of a parse, and how they follow each other.

  A state stands for a set of items: the productions that may be under way, each with the place that
  has been reached.  Its KERNEL holds the items that brought it about; the rest follows, because in
  front of a nonterminal all productions of it begin.  From a state every symbol behind a place
  leads to the state whose kernel holds those items with the place moved over the symbol.

  States are numbered in the order in which they are found, beginning with one state per grammar;
  from each state terminals are followed before nonterminals, in their order.  **Two states never
  have the same kernel**: a kernel that is known leads to the state that has it.
-/
import LayeredSyntax.Table.Basic
import LayeredSyntax.Table.Lookahead
import Std.Data.HashMap

namespace LayeredSyntax

/-! ## Items -/

/-- Put an item into an ordered list, unless it is there. -/
def insertItem (item : Item) : List Item → List Item
  | [] => [item]
  | x :: rest =>
    if x = item then x :: rest
    else if item.before x then item :: x :: rest
    else x :: insertItem item rest

/-- The symbol behind the place of an item. -/
def Composite.nextSymbol? (c : Composite) (item : Item) : Option Sym :=
  (c.production item.production).rhs[item.dot.toNat]?

/-- The item with its place moved over a symbol.  Behind the last place there is the first one
    again. -/
def Item.advance (item : Item) : Item := { item with dot := item.dot + 1 }

/-- What the construction of states looks up in a composite. -/
structure ItemGraph where
  composite : Composite
  byLhs : Array (List Nat)
  /-- The symbols of each production. -/
  rows : Array (Array Sym)
  rows_eq : rows = composite.productions.map (·.rhs.toArray)

namespace ItemGraph

/-- Prepare the construction of states. -/
def of (c : Composite) : ItemGraph := ⟨c, c.productionsByLhs, _, rfl⟩

/-- The symbol behind the place of an item. -/
def nextSymbol? (g : ItemGraph) (item : Item) : Option Sym :=
  (g.rows[item.production]?).bind (·[item.dot.toNat]?)

theorem nextSymbol?_eq (g : ItemGraph) (item : Item) :
    g.nextSymbol? item = g.composite.nextSymbol? item := by
  unfold nextSymbol? Composite.nextSymbol? Composite.production
  rw [g.rows_eq, Array.getElem?_map]
  cases g.composite.productions[item.production]? with
  | none => rfl
  | some p => exact List.getElem?_toArray

/-- Go over items from the `i`-th one on.  In front of a nonterminal that has not been met its
    productions begin, as items behind the others. -/
def closureFrom (g : ItemGraph) (met : Array Bool) (items : Array Item) (i : Nat) : Array Item :=
  if h : i < items.size then
    match g.nextSymbol? items[i] with
    | some (.n a) =>
      match _h : met[a]? with
      | some false =>
        closureFrom g (met.setIfInBounds a true)
          (items ++ ((g.byLhs[a]?.getD []).map (Item.mk · 0)).toArray) (i + 1)
      | _ => closureFrom g met items (i + 1)
    | _ => closureFrom g met items (i + 1)
  else items
termination_by (met.count false, items.size - i)
decreasing_by
  · exact Prod.Lex.left _ _ (count_set_lt _h)
  · exact Prod.Lex.right _ (by omega)
  · exact Prod.Lex.right _ (by omega)

/-- **All items of a state**: the kernel, and the productions that begin in it. -/
def closure (g : ItemGraph) (kernel : List Item) : List Item :=
  (g.closureFrom (Array.replicate g.composite.nonterminals.size false) kernel.toArray 0).toList

/-- Where a symbol stands among all symbols: terminals first. -/
def place (g : ItemGraph) : Sym → Nat
  | .t id => id
  | .n id => g.composite.terminalCount + id

/-- The symbol at a place. -/
def symbolAt (g : ItemGraph) (place : Nat) : Sym :=
  if place < g.composite.terminalCount then .t place else .n (place - g.composite.terminalCount)

/-- How many symbols there are. -/
def symbolCount (g : ItemGraph) : Nat := g.composite.terminalCount + g.composite.nonterminals.size

/-- Add an item, with its place moved on, to the kernel behind its next symbol. -/
def addMove (g : ItemGraph) (kernels : Array (List Item)) (item : Item) : Array (List Item) :=
  match g.nextSymbol? item with
  | some s => kernels.modify (g.place s) (insertItem item.advance)
  | none => kernels

/-- The kernels to which the symbols lead from a state, in the order of the symbols. -/
def moves (g : ItemGraph) (kernel : List Item) : List (Sym × List Item) :=
  let kernels := (g.closure kernel).foldl g.addMove (Array.replicate g.symbolCount [])
  kernels.toList.zipIdx.filterMap fun p =>
    if p.1.isEmpty then none else some (g.symbolAt p.2, p.1)

/-- How many items there are. -/
def itemCount (g : ItemGraph) : Nat :=
  g.composite.productions.foldl (fun n p => n + p.rhs.length + 1) 0

end ItemGraph

/-! ## States -/

/-- The states found so far. -/
structure Automaton where
  /-- The kernels of the states, by number. -/
  kernels : Array (List Item)
  /-- The number of each kernel. -/
  numbers : Std.HashMap (List Item) Nat
  /-- The next states of the states that have been seen to, by number. -/
  moves : Array (List (Sym × Nat))
deriving Inhabited

namespace Automaton

/-- No states. -/
def empty : Automaton := ⟨#[], ∅, #[]⟩

/-- The state of a kernel, which is given one if it has none. -/
def number (a : Automaton) (kernel : List Item) : Nat × Automaton :=
  match a.numbers[kernel]? with
  | some n => (n, a)
  | none =>
    let n := a.kernels.size
    (n, { a with kernels := a.kernels.push kernel, numbers := a.numbers.insert kernel n })

/-- The states of several kernels, each behind a symbol; `done` holds the first ones in reverse. -/
def numberAll (a : Automaton) (done : List (Sym × Nat)) :
    List (Sym × List Item) → List (Sym × Nat) × Automaton
  | [] => (done.reverse, a)
  | (s, kernel) :: rest =>
    let (n, a) := a.number kernel
    a.numberAll ((s, n) :: done) rest

/-- See to the first state that has not been seen to, until there is none.  There are no more states
    than sets of items, which is what `fuel` has to cover. -/
def explore (g : ItemGraph) (a : Automaton) : Nat → Automaton
  | 0 => a
  | fuel + 1 =>
    match a.kernels[a.moves.size]? with
    | none => a
    | some kernel =>
      let (moves, a) := a.numberAll [] (g.moves kernel)
      explore g { a with moves := a.moves.push moves } fuel

/-- **The automaton of a composite**: all states that can be reached from the roots. -/
def of (g : ItemGraph) : Automaton :=
  let start := g.composite.roots.foldl (fun a r => (a.number [⟨r.production, 0⟩]).2) empty
  explore g start ((1 <<< g.itemCount) + 1)

end Automaton

end LayeredSyntax
