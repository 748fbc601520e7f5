/-
  PROGRESS — everything that changes while a parse goes on.

  Besides the stacks a parse keeps what its repairs left behind, marks the positions at which more
  than one thing was possible, and counts its work.  It also remembers the stacks as they were
  before a subtree was taken over, until the token behind the subtree has been read.
-/
import LayeredSyntax.Journal.Event
import LayeredSyntax.Parse.Assembly

namespace LayeredSyntax

/-- Why a parse had to be repaired. -/
inductive RepairCause where
  /-- A token did not fit; the parse was taken up behind it. -/
  | unexpected (found : String)
  /-- The text ended too early. -/
  | endOfText
  /-- There had been too many repairs already. -/
  | tooMany
deriving DecidableEq, Inhabited, Repr

/-- What is remembered of a repair. -/
structure Repair where
  cause : RepairCause
  /-- What could have come instead, by name. -/
  expected : List String
deriving DecidableEq, Inhabited, Repr

/-- Repairs by the bytes at which their regions begin, the last one first; an earlier one at the
    same byte is given up. -/
abbrev Repairs := List (Nat × Repair)

/-- The stacks as they were before a subtree was taken over. -/
structure Checkpoint where
  /-- Where the subtree begins. -/
  first : Nat
  /-- The position behind the subtree. -/
  stop : Nat
  heads : List Nat
  byState : List (Nat × Nat)
deriving Inhabited

/-- How much work a parse has done. -/
structure WorkCounts where
  /-- Tokens of the text, without trivia. -/
  tokens : Nat
  /-- Nodes of the stacks. -/
  stackNodes : Nat
  /-- The most heads that there were at once. -/
  mostHeads : Nat
  repairs : Nat
  /-- Nodes put into place while children were assembled. -/
  assembled : Nat
deriving DecidableEq, Inhabited, Repr

/-- **How far a parse has come.** -/
structure Progress where
  stack : Stack
  position : Nat
  /-- Whether everything that can be finished at the position has been finished. -/
  settled : Bool
  regions : Regions
  repairs : Repairs
  /-- For each position, whether more than one thing was possible there. -/
  marks : Array Bool
  /-- How many repairs there were. -/
  repairCount : Nat
  /-- Where a symbol was made up last. -/
  lastInsertion : Option Nat
  /-- How many symbols were made up at the end of the text. -/
  insertionsAtEnd : Nat
  mostHeads : Nat
  assembled : Nat
  /-- How many subtrees were taken over. -/
  reused : Nat
  checkpoint : Option Checkpoint
  /-- No subtree is taken over in front of this position. -/
  reuseFrom : Nat
  /-- What was told, the last event first. -/
  events : List Event
deriving Inhabited

namespace Progress

/-- Before anything has been read. -/
def start (j : ParseJob) : Progress :=
  { (default : Progress) with marks := Array.replicate (j.finish + 1) false }

/-- Mark a position. -/
def mark (s : Progress) (p : Nat) : Progress := { s with marks := s.marks.setIfInBounds p true }

/-- Mark all positions from `first` up to `last`. -/
def markAll (s : Progress) (first last : Nat) : Progress :=
  (List.range' first (last + 1 - first)).foldl mark s

/-- Tell something. -/
def tell (s : Progress) (e : Event) : Progress := { s with events := e :: s.events }

/-- How much work has been done. -/
def counts (j : ParseJob) (s : Progress) : WorkCounts :=
  ⟨j.finish, s.stack.nodes.size, s.mostHeads, s.repairCount, s.assembled⟩

end Progress

end LayeredSyntax
