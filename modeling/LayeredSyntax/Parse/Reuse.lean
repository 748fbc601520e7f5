/-
  TAKING SUBTREES OVER — one step instead of many.

  Where the parse has no choice, a subtree of an earlier parse can be put on the stack as a whole:
  if it was made on top of the very state that would read its first token, reading its tokens one by
  one would make it again.

  The token behind the subtree has the last word.  If it cannot be read, a parse that had read the
  tokens one by one would have more heads to try, so **the stacks are put back as they were before**
  and the tokens are read one by one after all.
-/
import LayeredSyntax.Parse.Progress

namespace LayeredSyntax

namespace ParseJob

/-- Whether an action reads a token. -/
def reads : Action → Bool
  | .shift _ => true
  | _ => false

/-- The only head that can read the token of a position, if reading it is all that head can do. -/
def soleReader? (j : ParseJob) (stack : Stack) (p : Nat) : Option Nat :=
  match j.terminalsAt p with
  | [terminal] =>
    match stack.heads.filter fun head =>
        (j.table.actionsAt (stack.state head) terminal).any reads with
    | [head] =>
      if (j.table.actionsAt (stack.state head) terminal).length = 1 then some head else none
    | _ => none
  | _ => none

/-- The state behind a subtree and the position behind it, when it is put on a state at a
    position. -/
def behind? (j : ParseJob) (state p : Nat) : Node → Option (Nat × Nat)
  | n@(.rule _ _ nonterminal _ before _) =>
    if before = state then
      (j.table.goto? state nonterminal).bind fun target =>
        let stop := p + n.tokenCount
        if j.finish < stop || stop == p then none else some (target, stop)
    else none
  | _ => none

end ParseJob

variable [Limits]

/-- What is told of a subtree that was taken over. -/
def reuseEvent (n : Node) (p : Nat) : Event :=
  (Event.debug "Reused subtree")
    |>.withValue "kind" n.kind
    |>.withCount "position" p
    |>.withCount "tokens" n.tokenCount

/-- What is told of a subtree that was given back. -/
def abandonEvent (first stop : Nat) : Event :=
  (Event.debug "Abandoned reused subtree")
    |>.withCount "position" first
    |>.withCount "lookahead" stop

namespace Progress

/-- Take over a subtree that begins at the position, if one can be. -/
def takeOver? (j : ParseJob) (s : Progress) : Option Progress := do
  let index ← j.reuse
  let p := s.position
  guard (s.reuseFrom ≤ p)
  let candidates := index.candidatesAt p
  guard !candidates.isEmpty
  let head ← j.soleReader? s.stack p
  let state := s.stack.state head
  let (node, target, stop) ← candidates.findSome? fun n =>
    (j.behind? state p n).map fun b => (n, b.1, b.2)
  return { s with
    stack := s.stack.pushOnly ⟨target, stop, stop, [⟨head, ⟨node, p, stop⟩⟩]⟩
    position := stop
    settled := false
    reused := s.reused + 1
    checkpoint := some ⟨p, stop, s.stack.heads, s.stack.byState⟩
    events := reuseEvent node p :: s.events }

/-- Give back the subtree that ends at the position, if one was just taken over. -/
def giveBack? (s : Progress) : Option Progress := do
  let c ← s.checkpoint
  guard (c.stop = s.position)
  return { s with
    stack := { s.stack with heads := c.heads, byState := c.byState }
    position := c.first
    settled := true
    reused := s.reused - 1
    checkpoint := none
    reuseFrom := c.stop
    events := abandonEvent c.first c.stop :: s.events }

end Progress

end LayeredSyntax
