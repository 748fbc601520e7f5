/-
  CURSORS — walking through a tree step by step.

  A cursor stands on a node and never leaves the subtree in which it started: it counts how deep
  below its start it is, and at depth 0 it moves neither up nor to the side.  A move that is not
  possible leaves it where it is.

  `Cursor.next` walks over everything, each node before its children: down if there is a child, else
  to the side, else up until there is something at the side.  When there is nothing left **the
  cursor is back at its start**.
-/
import LayeredSyntax.Tree.Place

namespace LayeredSyntax

/-- A node that a walk has come to. -/
structure Cursor where
  place : Place
  /-- How many nodes it is below the start of the walk. -/
  depth : Nat
deriving Inhabited

namespace Cursor

/-- Begin a walk at a node. -/
def start (p : Place) : Cursor := ⟨p, 0⟩

/-- Go down to the first child. -/
def firstChild? (c : Cursor) : Option Cursor := (c.place.child? 0).map (⟨·, c.depth + 1⟩)

/-- Go to the next child of the same parent. -/
def nextSibling? (c : Cursor) : Option Cursor :=
  if c.depth = 0 then none
  else do
    let parent ← c.place.parent?
    let index ← c.place.index?
    let sibling ← parent.child? (index + 1)
    return ⟨sibling, c.depth⟩

/-- Go up to the parent. -/
def parent? (c : Cursor) : Option Cursor :=
  if c.depth = 0 then none else c.place.parent?.map (⟨·, c.depth - 1⟩)

/-- Go to the side, or up as often as it takes to go to the side; `fuel` is the depth. -/
def leave (c : Cursor) (fuel : Nat) : Bool × Cursor :=
  match c.nextSibling? with
  | some sibling => (true, sibling)
  | none =>
    match c.parent?, fuel with
    | some parent, fuel + 1 => parent.leave fuel
    | _, _ => (false, c)

/-- **Go to the next node of the walk**, and say whether there was one. -/
def next (c : Cursor) : Bool × Cursor :=
  match c.firstChild? with
  | some child => (true, child)
  | none => c.leave c.depth

end Cursor

/-! ## Running the program -/

section Examples

/-- One leaf in an error region. -/
private def sampleTree : Node := .error [.leaf "a" true none 1 1]

example : ((Cursor.start (.ofRoot sampleTree)).next.2).place.node.kind = "a" := by rfl
example : (Cursor.start (.ofRoot sampleTree)).next.2.next.1 = false := by rfl

end Examples

end LayeredSyntax
