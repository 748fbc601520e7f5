/-
  OUTLINES — a tree as nested parentheses.

  An outline shows the nodes that are of interest by themselves, each in parentheses behind its
  kind, with those below it; a node that had to be made up is marked MISSING.  With ranges, the
  bytes that a node covers stand behind its kind.
-/
import LayeredSyntax.Tree.Place

namespace LayeredSyntax

namespace Node

/-- What stands in front of the children in an outline, for a node that begins at `start`. -/
def outlineHead (ranges : Bool) (start : Nat) (n : Node) : String :=
  (if n.isMissing then "(MISSING " else "(") ++ n.kind ++
    if ranges then s!" [{start}, {start + n.size}]" else ""

mutual

/-- Write the outline of a node that begins at `start` behind a text. -/
def outlineFrom (ranges : Bool) (start : Nat) (out : String) : Node → String
  | n@(.rule _ _ _ _ _ cs) => outlineAllFrom ranges start (out ++ n.outlineHead ranges start) cs ++ ")"
  | n@(.error cs) => outlineAllFrom ranges start (out ++ n.outlineHead ranges start) cs ++ ")"
  | n@(.root _ cs) => outlineAllFrom ranges start (out ++ n.outlineHead ranges start) cs ++ ")"
  | n => out ++ n.outlineHead ranges start ++ ")"

/-- Write the outlines of those of some nodes that are of interest behind a text; the first node
    begins at `start`. -/
def outlineAllFrom (ranges : Bool) (start : Nat) (out : String) : List Node → String
  | [] => out
  | c :: cs =>
    let out := if c.isNamed then outlineFrom ranges start (out ++ " ") c else out
    outlineAllFrom ranges (start + c.size) out cs

end

end Node

namespace Place

/-- **The outline of a node.** -/
def outline (p : Place) : String := p.node.outlineFrom false p.start ""

/-- The outline of a node, with the ranges of all nodes in it. -/
def outlineWithRanges (p : Place) : String := p.node.outlineFrom true p.start ""

end Place

/-! ## Running the program -/

example : (Place.ofRoot (.error [.leaf "number" true none 1 2, .skipped .operator 1])).outline =
    "(ERROR (number))" := by
  simp [Place.outline, Place.ofRoot, Node.outlineFrom, Node.outlineAllFrom, Node.outlineHead,
    Node.isMissing, Node.isNamed, Node.kind, Node.errorKind]

end LayeredSyntax
