/-
  PARSING — from tokens to a tree.

  A parse goes on turn by turn.  In a turn everything that can be finished is finished; at the end
  of the text the parse is then accepted if it can be.  Else a subtree is taken over, or the token
  is read, or a subtree that was taken over is given back, or the parse is repaired — whichever is
  possible first.

  **Every text gets a tree**: what does not fit is in error regions.  A parse of `n` tokens takes at
  most `4 * n + 2` turns and those in which a symbol is made up at the end, as every turn reads on,
  gives back, or makes a repair, and each of these is limited; the turns counted out as `fuel` are
  never used up.
-/
import LayeredSyntax.Parse.Reduce
import LayeredSyntax.Parse.Repair
import LayeredSyntax.Parse.Reuse
import LayeredSyntax.Parse.Shift

namespace LayeredSyntax

/-- **What a parse comes to.** -/
structure ParseRun where
  tree : Node
  /-- For each position, the end included, whether more than one thing was possible there. -/
  marks : Array Bool
  counts : WorkCounts
  repairs : Repairs
  /-- What went wrong inside of the parse, apart from the text. -/
  failure : Option String
  /-- How many subtrees were taken over. -/
  reused : Nat
  /-- What was told, in order. -/
  events : List Event

namespace Progress

/-- End a parse with some pieces under the root. -/
def close (j : ParseJob) (s : Progress) (pieces : List Label) : ParseRun :=
  let (tree, work) := j.assembleRoot s.regions pieces
  let s := { s with assembled := s.assembled + work }
  ⟨tree, s.marks, s.counts j, s.repairs, none, s.reused, s.events.reverse⟩

/-- The subtree over the whole text, where a head accepts: of the edges of the first such head the
    one that begins first. -/
def accepted? (j : ParseJob) (s : Progress) : Option Label :=
  s.stack.heads.findSome? fun head =>
    if (j.table.actionsAt (s.stack.state head) endOfText).contains .accept then
      match (s.stack.node head).edges with
      | [] => none
      | e :: es => some (es.foldl (fun best e =>
          if e.label.first < best.first then e.label else best) e.label)
    else none

/-- How a turn ends. -/
inductive Turn where
  /-- The parse goes on. -/
  | goOn (s : Progress)
  /-- The parse is over. -/
  | over (run : ParseRun)

/-- Go on where no token can be read and the text is not accepted. -/
def stuck [Limits] (j : ParseJob) (s : Progress) : Turn :=
  match s.giveBack? with
  | some s => .goOn s
  | none =>
    -- A checkpoint that was looked at is used up, whether it fits or not.
    match { s with checkpoint := none }.repair j with
    | (true, s) => .goOn s
    | (false, s) => .over (s.close j [])

/-- **One turn of a parse.** -/
def turn [Limits] (j : ParseJob) (s : Progress) : Turn :=
  let s := if s.settled then s else s.reduceAll j
  if s.position = j.finish then
    match s.accepted? j with
    | some label => .over (s.close j [label])
    | none => s.stuck j
  else
    match s.takeOver? j with
    | some s => .goOn s
    | none =>
      match s.shift j with
      | (true, s) => .goOn s
      | (false, s) => s.stuck j

/-- Turn after turn, until the parse is over. -/
def run [Limits] (j : ParseJob) (s : Progress) : Nat → ParseRun
  | 0 => s.close j []
  | fuel + 1 =>
    match s.turn j with
    | .over r => r
    | .goOn s => s.run j fuel

end Progress

namespace ParseJob

/-- Turns that are more than enough. -/
def turnBound [Limits] (j : ParseJob) : Nat := 8 * j.finish + 2 * Limits.insertionsAtEnd

/-- What a parse comes to whose table does not know the grammar: everything is one error region. -/
def withoutEntry [Limits] (j : ParseJob) : ParseRun :=
  let s := Progress.start j
  let front := j.triviaOnto 0 []
  let a : Assembled :=
    if j.finish = 0 then ⟨front, 0⟩
    else
      let a := j.fillGap [] 0 0 j.finish ⟨front, 0⟩
      ⟨j.triviaOnto j.finish a.reversed, a.work⟩
  let s := { s with assembled := a.work }
  let event := (Event.error .brokenInvariant "Parse table has no entry for grammar")
    |>.withValue "grammar" j.grammar.name
  ⟨.root j.grammar a.children, s.marks, s.counts j, [],
    some s!"no entry state for grammar '{j.grammar.name}'", 0, [event]⟩

/-- **Parse.** -/
def run [Limits] (j : ParseJob) : ParseRun :=
  match j.table.entry? j.grammar with
  | none => j.withoutEntry
  | some entry =>
    let s := Progress.start j
    if j.finish = 0 then s.close j []
    else
      { s with stack := Stack.empty.push ⟨entry.state, 0, 0, []⟩ }.run j j.turnBound

end ParseJob

end LayeredSyntax
