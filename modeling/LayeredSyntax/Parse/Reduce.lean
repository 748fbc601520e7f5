/-
  FINISHING PRODUCTIONS — everything that can be finished in front of a token.

  A production is finished along every way down that is as long as it.  Its subtree is put on the
  state that lies at the bottom of the way:

  1. If no head is in the state that follows, a new head is made, with all that it can finish.
  2. If there is such a head, the two ways meet in it.  **Only the ways through the new edge are
     gone again**, for those productions of the head that were finished before.
  3. If the edge is there already, the two subtrees stand for the same text.  **The production that
     is declared first wins**, and of equal ones the first that was built.

  What is still to be finished waits in a queue.  A production waits at most once for each head, and
  once more for each edge of it, so the queue runs out: that many tasks are the `fuel`.
-/
import LayeredSyntax.Parse.Progress

namespace LayeredSyntax

/-- A production that can be finished at a head. -/
structure ReduceTask where
  head : Nat
  production : Nat
  /-- Finish it only through the edge to this node. -/
  via : Option Nat
deriving DecidableEq, Inhabited, Repr

/-- The work at one position. -/
structure Reducing where
  stack : Stack
  /-- All tasks there have been, in order. -/
  tasks : Array ReduceTask
  /-- How many tasks have been begun. -/
  begun : Nat
  /-- The heads and productions that have been seen to along all ways. -/
  done : List (Nat × Nat)
  /-- Whether two ways have met. -/
  met : Bool
  assembled : Nat
deriving Inhabited

namespace ParseJob

/-- The subtree of a production over some pieces, on top of a state. -/
def reduceLabel (j : ParseJob) (regions : Regions) (production before : Nat)
    (pieces : List Label) : Label × Nat :=
  let lhs := (j.table.production production).lhs
  let n := j.table.nonterminal lhs
  let first := (pieces.head?.map (·.first)).getD 0
  let stop := (pieces.getLast?.map (·.stop)).getD first
  let a := j.assemble regions (!n.hidden) first stop pieces
  (⟨.rule n.name n.grammar lhs production before a.children, first, stop⟩, a.work)

/-- Queue the productions that a head can finish along all ways. -/
def queueAll (j : ParseJob) (p : Nat) (r : Reducing) (head : Nat) : Reducing :=
  (j.reductions (r.stack.state head) p).foldl
    (fun r production => { r with tasks := r.tasks.push ⟨head, production, none⟩ }) r

/-- Queue those productions that a head has finished before, through a new edge. -/
def queueVia (j : ParseJob) (p : Nat) (r : Reducing) (head below : Nat) : Reducing :=
  ((j.reductions (r.stack.state head) p).filter fun production =>
      r.done.contains (head, production)).foldl
    (fun r production => { r with tasks := r.tasks.push ⟨head, production, some below⟩ }) r

/-- Whether a subtree takes the place of another one over the same text. -/
def winsOver (new old : Label) : Bool :=
  match new.node.production?, old.node.production? with
  | some a, some b => a < b
  | _, _ => false

/-- Put a finished subtree on the node at the bottom of its way; `target` is the state that
    follows. -/
def place (j : ParseJob) (p : Nat) (r : Reducing) (bottom target : Nat) (label : Label) :
    Reducing :=
  match r.stack.headIn? target with
  | none =>
    let head := r.stack.nodes.size
    let stack := r.stack.push ⟨target, p, label.stop, [⟨bottom, label⟩]⟩
    j.queueAll p { r with stack } head
  | some head =>
    match r.stack.edge? head bottom with
    | some e =>
      let stack := if winsOver label e.label then r.stack.relabel head bottom label else r.stack
      { r with stack, met := true }
    | none =>
      let stack := r.stack.addEdge head ⟨bottom, label⟩
      j.queueVia p { r with stack, met := true } head bottom

/-- Finish a production along one way. -/
def reduceAlong (j : ParseJob) (regions : Regions) (p production : Nat) (r : Reducing)
    (way : Nat × List Label) : Reducing :=
  let below := r.stack.state way.1
  match j.table.goto? below (j.table.production production).lhs with
  | none => r
  | some target =>
    let (label, work) := j.reduceLabel regions production below way.2
    j.place p { r with assembled := r.assembled + work } way.1 target label

/-- See to a task. -/
def perform (j : ParseJob) (regions : Regions) (p : Nat) (r : Reducing) (t : ReduceTask) :
    Reducing :=
  let length := (j.table.production t.production).rhs.length
  let ways := match t.via with
    | none => r.stack.ways [] t.head length
    | some below => r.stack.waysVia t.head below length
  let done := if t.via.isNone then (t.head, t.production) :: r.done else r.done
  ways.foldl (j.reduceAlong regions p t.production) { r with done }

/-- See to the tasks one after the other until there are none left. -/
def performAll (j : ParseJob) (regions : Regions) (p : Nat) (r : Reducing) : Nat → Reducing
  | 0 => r
  | fuel + 1 =>
    match r.tasks[r.begun]? with
    | none => r
    | some t => j.performAll regions p (j.perform regions p { r with begun := r.begun + 1 } t) fuel

/-- More tasks than there can be at a position: productions at heads, of which there is one for each
    state, along all ways and through each edge. -/
def taskBound (j : ParseJob) (s : Stack) : Nat :=
  let heads := j.table.stateCount + s.heads.length
  heads * j.table.productions.size * (s.nodes.size + heads + 1) + 1

end ParseJob

/-- **Finish everything that can be finished at the position.** -/
def Progress.reduceAll (j : ParseJob) (s : Progress) : Progress :=
  let bound := j.taskBound s.stack
  let p := s.position
  let start := s.stack.heads.foldl (j.queueAll p) ⟨s.stack, #[], 0, [], false, s.assembled⟩
  let r := j.performAll s.regions p start bound
  { s with
    stack := r.stack
    settled := true
    assembled := r.assembled
    marks := if r.met then s.marks.setIfInBounds p true else s.marks
    mostHeads := max s.mostHeads r.stack.heads.length }

end LayeredSyntax
