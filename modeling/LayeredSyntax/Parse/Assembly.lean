/-
  PUTTING TREES TOGETHER — from subtrees on a stack to the children of a node.

  Trivia never get onto the stack.  They are put back when the children of a node are assembled: in
  front of every subtree that holds a token, except at the very beginning of the node, so that
  **trivia at the edges of a node belong to a node above it**.

  Where subtrees leave positions out, tokens were skipped; the gap is filled with the error region
  that the repair left behind, or else with a new one.

  A hidden rule leaves no node: what is in it goes to the node above.  While a hidden rule is itself
  part of a hidden rule it stays whole, and **it is opened once, by the first visible node above**,
  so that a long repetition is not copied again and again.
-/
import LayeredSyntax.Parse.Job
import LayeredSyntax.Parse.Stack

namespace LayeredSyntax

/-- An error region that a repair left behind. -/
structure Region where
  first : Nat
  stop : Nat
  node : Node
deriving Inhabited

/-- Regions, the last one left behind first; an earlier one that begins at the same position is
    given up. -/
abbrev Regions := List Region

/-- The region that begins at a position. -/
def Regions.at? (rs : Regions) (p : Nat) : Option Region := rs.find? (·.first == p)

/-- Children that were assembled. -/
structure Assembled where
  /-- The children, the last one first. -/
  reversed : List Node
  /-- How many nodes were put into place, those inside of new regions included. -/
  work : Nat
deriving Inhabited

/-- The children in the order of the text. -/
def Assembled.children (a : Assembled) : List Node := a.reversed.reverse

/-! ## Hidden rules -/

/-- Whether a node was made by a hidden rule. -/
def Composite.hides (c : Composite) : Node → Bool
  | .rule _ _ nonterminal .. => (c.nonterminal nonterminal).hidden
  | _ => false

/-- Nodes one behind the other are not larger than the node that holds them. -/
private theorem sizeOf_open_lt (n : Node) (rest : List Node) :
    sizeOf (n.children ++ rest) < sizeOf (n :: rest) := by
  have h : ∀ xs ys : List Node, sizeOf (xs ++ ys) + 1 = sizeOf xs + sizeOf ys := by
    intro xs ys
    induction xs with
    | nil => simp; omega
    | cons x xs ih => simp; omega
  have := h n.children rest
  cases n <;> simp [Node.children] at this ⊢ <;> omega

/-- Put nodes in front of a reversed list, with what is in them where they are hidden. -/
def Composite.showOnto (c : Composite) (out : List Node) : List Node → List Node
  | [] => out
  | n :: rest =>
    if c.hides n then c.showOnto out (n.children ++ rest) else c.showOnto (n :: out) rest
termination_by ns => sizeOf ns
decreasing_by
  · exact sizeOf_open_lt n rest
  · rw [List.cons.sizeOf_spec]; omega

namespace ParseJob

/-! ## Pieces -/

/-- Put the trivia of a position in front of a reversed list. -/
def triviaOnto (j : ParseJob) (p : Nat) (out : List Node) : List Node :=
  (j.tokens.triviaBefore p).foldl (fun out t => .trivia t.kind t.size :: out) out

/-- The token of a position as one that was skipped. -/
def skippedNode (j : ParseJob) (p : Nat) : Node :=
  match j.tokens.get? p with
  | some t => .skipped t.kind t.size
  | none => .error []

/-- The token of a position as a skipped piece. -/
def skippedPiece (j : ParseJob) (p : Nat) : Label := ⟨j.skippedNode p, p, p + 1⟩

/-- The tokens of some positions as skipped pieces. -/
def skippedPieces (j : ParseJob) (first stop : Nat) : List Label :=
  (List.range' first (stop - first)).map j.skippedPiece

/-! ## Gaps -/

/-- Put the content of a new region in front of a reversed list: from `p` on the regions left behind
    that fit, and skipped tokens where there are none.  The region begins at `first`. -/
def contentOnto (j : ParseJob) (regions : Regions) (first stop p : Nat) (out : List Node) :
    List Node :=
  if p < stop then
    let out := if first < p then j.triviaOnto p out else out
    match regions.at? p with
    | some r =>
      if p < r.stop ∧ r.stop ≤ stop then j.contentOnto regions first stop r.stop (r.node :: out)
      else j.contentOnto regions first stop (p + 1) (j.skippedNode p :: out)
    | none => j.contentOnto regions first stop (p + 1) (j.skippedNode p :: out)
  else out
termination_by stop - p
decreasing_by all_goals omega

/-- **Fill the gap** from `first` up to before `stop` inside a node that begins at `low`: with the
    region that was left behind there, or with a new one. -/
def fillGap (j : ParseJob) (regions : Regions) (low first stop : Nat) (a : Assembled) :
    Assembled :=
  let out := if low < first then j.triviaOnto first a.reversed else a.reversed
  match (regions.at? first).filter (·.stop == stop) with
  | some r => ⟨r.node :: out, a.work⟩
  | none =>
    let content := j.contentOnto regions first stop first []
    ⟨.error content.reverse :: out, a.work + content.length⟩

/-! ## Children -/

/-- Assemble pieces from position `p` on inside a node over the positions from `low` up to before
    `high`. -/
def assembleFrom (j : ParseJob) (regions : Regions) (opens : Bool) (low high p : Nat)
    (a : Assembled) : List Label → Assembled
  | [] => if p < high then j.fillGap regions low p high a else a
  | piece :: rest =>
    let a := if p < piece.first then j.fillGap regions low p piece.first a else a
    let out := if piece.first < piece.stop && low < piece.first then
        j.triviaOnto piece.first a.reversed
      else a.reversed
    let out := if opens then j.table.showOnto out [piece.node] else piece.node :: out
    j.assembleFrom regions opens low high (max (max p piece.first) piece.stop) ⟨out, a.work⟩ rest

/-- **Assemble the children of a node** over the positions from `low` up to before `high`.  Hidden
    rules are opened unless the node is one itself. -/
def assemble (j : ParseJob) (regions : Regions) (opens : Bool) (low high : Nat)
    (pieces : List Label) : Assembled :=
  let a := j.assembleFrom regions opens low high low ⟨[], 0⟩ pieces
  ⟨a.reversed, a.work + a.reversed.length⟩

/-- The root of a text: the trivia at the beginning, the pieces, and the trivia at the end. -/
def assembleRoot (j : ParseJob) (regions : Regions) (pieces : List Label) : Node × Nat :=
  let front := j.triviaOnto 0 []
  if j.finish = 0 then (.root j.grammar front.reverse, 0)
  else
    let inner := j.assemble regions true 0 j.finish pieces
    let out := j.triviaOnto j.finish (inner.reversed ++ front)
    (.root j.grammar out.reverse, inner.work)

end ParseJob

end LayeredSyntax
