/-
  JSON NESTING — which JSON literals a place in an expression is inside of.

  Inside a literal the scanner must know whether the innermost bracket is an array or an object.
  A nesting is a stack of such answers, kept as a depth and one bit a level that is set for arrays.
  **Pushing clears or sets its bit and popping clears it**, so a nesting that was built from the
  empty one has no bit set at or above its depth, and two such nestings are equal exactly when their
  stacks are.
-/
namespace LayeredSyntax

/-- The brackets of the JSON literals around a place. -/
structure JsonNesting where
  /-- How many brackets are open. -/
  depth : Nat
  /-- Bit `i` is set when the bracket at depth `i` opened an array. -/
  arrays : Nat
deriving DecidableEq, Inhabited, Repr

namespace JsonNesting

/-- Literals nested deeper than this are not followed. -/
def maxDepth : Nat := 32

/-- Outside every literal. -/
def empty : JsonNesting := ⟨0, 0⟩

/-- Whether no literal is open. -/
def isEmpty (j : JsonNesting) : Bool := j.depth == 0

/-- Whether the innermost bracket opened an array. -/
def topIsArray (j : JsonNesting) : Bool := j.depth != 0 && j.arrays.testBit (j.depth - 1)

/-- Whether the innermost bracket opened an object. -/
def topIsObject (j : JsonNesting) : Bool := j.depth != 0 && !j.topIsArray

/-- The bits with bit `i` taken out. -/
def clearBit (bits i : Nat) : Nat := if bits.testBit i then bits - (1 <<< i) else bits

/-- Open a bracket; nothing when the nesting is too deep to follow. -/
def push? (j : JsonNesting) (array : Bool) : Option JsonNesting :=
  if maxDepth ≤ j.depth then none
  else
    let rest := clearBit j.arrays j.depth
    some ⟨j.depth + 1, if array then rest + (1 <<< j.depth) else rest⟩

/-- Open a bracket, or leave a full nesting as it is. -/
def push (j : JsonNesting) (array : Bool) : JsonNesting := (j.push? array).getD j

/-- Close the innermost bracket, if one is open. -/
def pop (j : JsonNesting) : JsonNesting :=
  if j.depth = 0 then j else ⟨j.depth - 1, clearBit j.arrays (j.depth - 1)⟩

end JsonNesting

/-! ## Running the program -/

example : ((JsonNesting.empty.push true).push false).topIsObject = true := by decide
example : ((JsonNesting.empty.push true).push false).pop = ⟨1, 1⟩ := by decide
example : JsonNesting.push? ⟨32, 0⟩ true = none := by decide

end LayeredSyntax
