/-
  NODES — the tree of a text.

  A tree keeps every byte of the text: its childless nodes are the tokens in order, trivia included,
  with MISSING nodes of no width in between where something had to be made up.  A node knows how
  long it is but not where it stands, so that a subtree can be taken over unchanged into the tree of
  an edited text (where it stands is said by a `Place`).

  1. A LEAF is a token that was read as a terminal, and a RULE is what a production was finished to.
  2. TRIVIA are the tokens that no grammar sees.
  3. An ERROR region holds what no production could use: tokens that were SKIPPED, and what had been
     finished before.
  4. The ROOT holds everything.

  **What is asked of a node most often is computed once**, when the node is made: its bytes, its
  tokens and whether there is an error in it (`Node.measure`).
-/
import LayeredSyntax.Composition.Composite

namespace LayeredSyntax

/-! ## Measures -/

/-- What is known of a stretch of nodes without looking into them. -/
structure Measure where
  /-- How many bytes it covers. -/
  size : Nat
  /-- How many tokens it covers, without trivia. -/
  tokens : Nat
  /-- Whether there is an error in it. -/
  hasError : Bool
deriving DecidableEq, Inhabited, Repr

namespace Measure

/-- The measure of nothing. -/
def zero : Measure := ⟨0, 0, false⟩

/-- The measure of one stretch behind another. -/
def add (a b : Measure) : Measure :=
  ⟨a.size + b.size, a.tokens + b.tokens, a.hasError || b.hasError⟩

/-- The measure of several stretches. -/
def sum (ms : List Measure) : Measure := ms.foldl add zero

end Measure

/-! ## Nodes -/

/-- **A node of a tree.** -/
inductive Node where
  /-- A token that was read as a terminal.  The grammar is the one that the token was read for. -/
  | leaf (kind : String) (named : Bool) (grammar : Option GrammarId) (terminal size : Nat)
  /-- A token that no grammar sees. -/
  | trivia (kind : TokenKind) (size : Nat)
  /-- A token that was passed over. -/
  | skipped (kind : TokenKind) (size : Nat)
  /-- A symbol that should have been there. -/
  | missing (kind : String) (grammar : GrammarId) (symbol : Sym)
  /-- A finished production, with the state in which it was begun. -/
  | rule (kind : String) (grammar : GrammarId) (nonterminal production before : Nat)
      (children : List Node)
  /-- A stretch that no production could use. -/
  | error (children : List Node)
  /-- A whole text. -/
  | root (grammar : GrammarId) (children : List Node)
with
  /-- What is known of the node without looking into it. -/
  @[computed_field] measure : Node → Measure
    | .leaf _ _ _ _ size => ⟨size, 1, false⟩
    | .trivia _ size => ⟨size, 0, false⟩
    | .skipped kind size => ⟨size, 1, kind == .error⟩
    | .missing _ _ _ => ⟨0, 0, true⟩
    | .rule _ _ _ _ _ children => .sum (children.attach.map fun ⟨c, _⟩ => c.measure)
    | .error children =>
      (Measure.sum (children.attach.map fun ⟨c, _⟩ => c.measure)).add ⟨0, 0, true⟩
    | .root _ children => .sum (children.attach.map fun ⟨c, _⟩ => c.measure)

instance : Inhabited Node := ⟨.error []⟩

namespace Node

/-- The nodes directly below. -/
def children : Node → List Node
  | leaf .. | trivia .. | skipped .. | missing .. => []
  | rule _ _ _ _ _ cs | error cs | root _ cs => cs

/-- A child is smaller than its parent. -/
theorem sizeOf_lt_of_mem_children {n c : Node} (h : c ∈ n.children) : sizeOf c < sizeOf n := by
  cases n with
  | rule | error | root =>
    have := List.sizeOf_lt_of_mem h
    simp only [children] at this
    simp only [rule.sizeOf_spec, error.sizeOf_spec, root.sizeOf_spec]
    omega
  | leaf | trivia | skipped | missing => simp [children] at h

/-- How many bytes the node covers. -/
def size (n : Node) : Nat := n.measure.size

/-- How many tokens the node covers, without trivia. -/
def tokenCount (n : Node) : Nat := n.measure.tokens

/-- Whether the node is an error or holds one. -/
def hasError (n : Node) : Bool := n.measure.hasError

/-- The kind of the root. -/
def rootKind : String := "source_file"

/-- The kind of error regions. -/
def errorKind : String := "ERROR"

/-- What the node stands for. -/
def kind : Node → String
  | leaf kind .. | missing kind .. | rule kind .. => kind
  | trivia k _ | skipped k _ => k.name
  | error _ => errorKind
  | root .. => rootKind

/-- The grammar that the node belongs to. -/
def grammar? : Node → Option GrammarId
  | leaf _ _ g _ _ => g
  | missing _ g _ | rule _ g .. | root g _ => some g
  | trivia .. | skipped .. | error _ => none

/-- The production that was finished to the node. -/
def production? : Node → Option Nat
  | rule _ _ _ p _ _ => some p
  | _ => none

/-- The state in which the production of the node was begun. -/
def before? : Node → Option Nat
  | rule _ _ _ _ s _ => some s
  | _ => none

/-- Whether the node is of interest by itself. -/
def isNamed : Node → Bool
  | leaf _ named .. => named
  | trivia k _ => !(k == .whitespace || k == .newline)
  | skipped k _ => k == .error
  | missing .. | rule .. | error _ | root .. => true

/-- Whether the node itself is an error. -/
def isError : Node → Bool
  | skipped k _ => k == .error
  | missing .. | error _ => true
  | leaf .. | trivia .. | rule .. | root .. => false

/-- Whether the node should have been there. -/
def isMissing : Node → Bool
  | missing .. => true
  | _ => false

/-- Whether the node is a token that no grammar sees. -/
def isTrivia : Node → Bool
  | trivia .. => true
  | _ => false

/-- Whether two nodes look the same by themselves. -/
def sameFace (a b : Node) : Bool :=
  a.kind == b.kind && a.size == b.size && a.isNamed == b.isNamed && a.isError == b.isError &&
    a.isMissing == b.isMissing && a.isTrivia == b.isTrivia && a.hasError == b.hasError

mutual

/-- **Whether two trees look the same**: node for node the same kinds, sizes and errors. -/
def same : Node → Node → Bool
  | a@(.rule _ _ _ _ _ cs), b => a.sameFace b && sameAll cs b.children
  | a@(.error cs), b => a.sameFace b && sameAll cs b.children
  | a@(.root _ cs), b => a.sameFace b && sameAll cs b.children
  | a, b => a.sameFace b && b.children.isEmpty

/-- Whether two rows of trees look the same. -/
def sameAll : List Node → List Node → Bool
  | [], [] => true
  | a :: as, b :: bs => same a b && sameAll as bs
  | _, _ => false

end

/-- How many bytes several nodes cover. -/
def sizeOfAll (ns : List Node) : Nat := ns.foldl (fun n c => n + c.size) 0

end Node

/-! ## Running the program -/

example : (Node.skipped .error 2).same (.skipped .error 3) = false := by
  simp [Node.same, Node.sameFace, Node.size, Node.measure]
example :
    (Node.rule "sum" .expr 0 0 0 [.leaf "number" true none 1 2, .trivia .whitespace 1]).measure =
      ⟨3, 1, false⟩ := by simp [Node.measure, Measure.sum, Measure.add, Measure.zero]

end LayeredSyntax
