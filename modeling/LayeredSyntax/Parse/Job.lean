/-
  PARSE JOBS — what a parse is given, and never changes.

  A parse works on the positions of a token stream; the position behind the last token stands for
  the end of the text.  For each position the terminals that its token can be taken for are found
  once, beforehand.

  A job may bring along subtrees of an earlier parse that can be taken over as they are, filed under
  the positions at which they begin (`ReuseIndex`).
-/
import LayeredSyntax.Parse.Resync
import LayeredSyntax.Table.Lookup
import LayeredSyntax.Token.Stream
import LayeredSyntax.Tree.Node

namespace LayeredSyntax

/-- Subtrees that can be taken over, by the positions at which they begin; the larger ones first. -/
structure ReuseIndex where
  byPosition : Array (List Node)
deriving Inhabited

namespace ReuseIndex

/-- The subtrees that begin at a position. -/
def candidatesAt (x : ReuseIndex) (p : Nat) : List Node := x.byPosition[p]?.getD []

/-- How many subtrees there are. -/
def size (x : ReuseIndex) : Nat := x.byPosition.foldl (fun n c => n + c.length) 0

end ReuseIndex

/-- **What a parse is given.** -/
structure ParseJob where
  table : Table
  /-- The grammar that the text is in. -/
  grammar : GrammarId
  tokens : TokenStream
  /-- Where a parse that went wrong can be taken up again. -/
  resync : ResyncSet
  /-- What can be taken over from an earlier parse. -/
  reuse : Option ReuseIndex
  /-- Whether repairs are told. -/
  reportRepairs : Bool
  /-- The terminals of each position; at the end, the end of the text. -/
  ahead : Array (List Nat)

namespace ParseJob

/-- Prepare a parse. -/
def prepare (table : Table) (grammar : GrammarId) (tokens : TokenStream) (resync : ResyncSet)
    (reuse : Option ReuseIndex) (reportRepairs : Bool) : ParseJob :=
  let terminals := tokens.significantTokens.map fun t => table.terminalsFor t.kind t.text
  ⟨table, grammar, tokens, resync, reuse, reportRepairs, terminals.toArray.push [endOfText]⟩

/-- The position of the end of the text. -/
def finish (j : ParseJob) : Nat := j.tokens.size

/-- The terminals that the token of a position can be taken for. -/
def terminalsAt (j : ParseJob) (p : Nat) : List Nat := j.ahead[p]?.getD []

/-- What a state can do at a position. -/
def actions (j : ParseJob) (state p : Nat) : List Action :=
  (j.terminalsAt p).flatMap (j.table.actionsAt state)

/-- Whether a state can do anything at a position. -/
def actsAt (j : ParseJob) (state p : Nat) : Bool := !(j.actions state p).isEmpty

/-- The productions that a state can finish at a position, each once. -/
def reductions (j : ParseJob) (state p : Nat) : List Nat :=
  ((j.actions state p).filterMap fun
    | .reduce production => some production
    | _ => none).foldl Grammar.addNew []

/-- The states that a state can go to by reading the token of a position, each with the terminal
    that the token is taken for. -/
def shifts (j : ParseJob) (state p : Nat) : List (Nat × Nat) :=
  (j.terminalsAt p).flatMap fun terminal =>
    (j.table.actionsAt state terminal).filterMap fun
      | .shift target => some (terminal, target)
      | _ => none

end ParseJob

end LayeredSyntax
