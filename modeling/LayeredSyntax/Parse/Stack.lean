/-
  STACKS THAT SHARE — where a parse stands.

  A parse that follows several ways at once keeps their stacks in one graph.  A node of it stands
  for a state at a position; an EDGE leads from a node to one below it and carries the subtree that
  was made in between.  Where ways part, several nodes share what is below them, and where they meet
  again in the same state at the same position, they share one node from there on.

  The HEADS are the nodes on top.  **There is at most one head of a state**, so what two ways have
  in common is parsed once.

  A node knows how far the text below it is COVERED by subtrees.  It falls behind the position when
  tokens were skipped, and the gap is filled when the tree is put together.
-/
import LayeredSyntax.Tree.Node

namespace LayeredSyntax

/-- A subtree over the positions from `first` up to before `stop`. -/
structure Label where
  node : Node
  first : Nat
  stop : Nat
deriving Inhabited

/-- A subtree with the stack node below it. -/
structure Edge where
  below : Nat
  label : Label
deriving Inhabited

/-- A node of the stack. -/
structure StackNode where
  state : Nat
  position : Nat
  /-- How far the text below is covered by subtrees. -/
  covered : Nat
  /-- The ways down, the first one found first; no two of them lead to the same node. -/
  edges : List Edge
deriving Inhabited

/-- **The stacks of a parse.** -/
structure Stack where
  /-- All nodes ever made, by number. -/
  nodes : Array StackNode
  /-- The nodes on top, the first one found first. -/
  heads : List Nat
  /-- The heads by their states, the last one found first. -/
  byState : List (Nat × Nat)
deriving Inhabited

namespace Stack

/-- No nodes. -/
def empty : Stack := ⟨#[], [], []⟩

/-- The node of a number. -/
def node (s : Stack) (i : Nat) : StackNode := s.nodes[i]?.getD default

/-- The state of a node. -/
def state (s : Stack) (i : Nat) : Nat := (s.node i).state

/-- The head in a state. -/
def headIn? (s : Stack) (state : Nat) : Option Nat := s.byState.lookup state

/-- Put a node on top, beside the other heads. -/
def push (s : Stack) (n : StackNode) : Stack :=
  let number := s.nodes.size
  ⟨s.nodes.push n, s.heads ++ [number], (n.state, number) :: s.byState⟩

/-- Put a node on top as the only head. -/
def pushOnly (s : Stack) (n : StackNode) : Stack :=
  let number := s.nodes.size
  ⟨s.nodes.push n, [number], [(n.state, number)]⟩

/-- The edge from a node to one below it. -/
def edge? (s : Stack) (i below : Nat) : Option Edge := (s.node i).edges.find? (·.below == below)

/-- Add an edge to a node, behind those that it has. -/
def addEdge (s : Stack) (i : Nat) (e : Edge) : Stack :=
  { s with nodes := s.nodes.modify i fun n => { n with edges := n.edges ++ [e] } }

/-- Put another subtree on an edge. -/
def relabel (s : Stack) (i below : Nat) (label : Label) : Stack :=
  { s with nodes := s.nodes.modify i fun n =>
      { n with edges := n.edges.map fun e => if e.below = below then { e with label } else e } }

/-- The ways of some length down from a node: where they end, and the subtrees on them in the order
    of the text, followed by `above`. -/
def ways (s : Stack) (above : List Label) (i : Nat) : Nat → List (Nat × List Label)
  | 0 => [(i, above)]
  | length + 1 =>
    (s.node i).edges.flatMap fun e => s.ways (e.label :: above) e.below length

/-- The ways of some length down from a node that begin with a given edge. -/
def waysVia (s : Stack) (i below : Nat) : Nat → List (Nat × List Label)
  | 0 => [(i, [])]
  | length + 1 =>
    match s.edge? i below with
    | some e => s.ways [e.label] e.below length
    | none => []

/-- The nodes on the first way down from a node, itself first; `fuel` is the number of nodes. -/
def chainFrom (s : Stack) (i : Nat) : Nat → List Nat
  | 0 => []
  | fuel + 1 =>
    match (s.node i).edges.head? with
    | some e => i :: s.chainFrom e.below fuel
    | none => [i]

/-- **The nodes on the first way down from the first head**, the head first. -/
def chain (s : Stack) : List Nat :=
  match s.heads with
  | [] => []
  | i :: _ => s.chainFrom i s.nodes.size

end Stack

end LayeredSyntax
