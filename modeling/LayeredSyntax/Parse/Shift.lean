/-
  READING TOKENS — from the heads at one position to those at the next.

  Every head that can read the token goes to its next state, for each terminal that the token can be
  taken for; heads that come to the same state become one.  A token that is taken for one terminal
  gives one leaf, however many heads read it.
-/
import LayeredSyntax.Parse.Progress

namespace LayeredSyntax

/-- The heads at the next position, as far as they have been found. -/
structure Shifting where
  /-- The stacks; their heads are those at the next position. -/
  stack : Stack
  /-- The leaves of the token by terminal, the last one made first. -/
  leaves : List (Nat × Node)
deriving Inhabited

namespace ParseJob

/-- The leaf of the token of a position, taken for a terminal on the way to a state. -/
def leaf (j : ParseJob) (p terminal target : Nat) : Node :=
  let grammar := do
    let s ← j.table.states[target]?
    let item ← s.kernel.head?
    return (j.table.production item.production).grammar
  match j.tokens.get? p, j.table.terminal? terminal with
  | some token, some t =>
    let (kind, named) := t.leafName token.kind token.text
    .leaf kind named grammar terminal token.size
  | token, _ => .leaf "end" false grammar terminal ((token.map Token.size).getD 0)

/-- Read the token of a position at a head, as a terminal that leads to a state. -/
def shiftTo (j : ParseJob) (p head : Nat) (s : Shifting) (step : Nat × Nat) : Shifting :=
  let (terminal, target) := step
  let node := (s.leaves.lookup terminal).getD (j.leaf p terminal target)
  let edge := Edge.mk head ⟨node, p, p + 1⟩
  let stack := match s.stack.headIn? target with
    | none => s.stack.push ⟨target, p + 1, p + 1, [edge]⟩
    | some next =>
      if (s.stack.edge? next head).isSome then s.stack else s.stack.addEdge next edge
  ⟨stack, if (s.leaves.lookup terminal).isSome then s.leaves else (terminal, node) :: s.leaves⟩

/-- Whether more than one thing can be done with the token of a position: a head has a choice, or
    several ways of reading it on. -/
def isAmbiguous (j : ParseJob) (stack : Stack) (p : Nat) : Bool :=
  let states := stack.heads.map stack.state
  states.any (fun state => 1 < (j.actions state p).length) ||
    1 < (states.flatMap (j.shifts · p)).length

end ParseJob

/-- **Read the token at the position**, if a head can: the parse behind it, or else the parse in
    front of it.  Either way the position is marked when there was a choice. -/
def Progress.shift (j : ParseJob) (s : Progress) : Bool × Progress :=
  let p := s.position
  let steps := s.stack.heads.flatMap fun head =>
    (j.shifts (s.stack.state head) p).map (head, ·)
  let s := if j.isAmbiguous s.stack p then s.mark p else s
  if steps.isEmpty then (false, s)
  else
    let r := steps.foldl (fun r step => j.shiftTo p step.1 r step.2) ⟨⟨s.stack.nodes, [], []⟩, []⟩
    (true, { s with stack := r.stack, position := p + 1, settled := false, checkpoint := none })

end LayeredSyntax
