/-
  REPAIRS — going on where no head can.

  Three things are tried, in this order:

  1. INSERT one symbol that a head waits for, if the state behind it can do something with the token
     ahead.  This is done at most once in a row for a token, and a limited number of times at the
     end.
  2. SKIP to the next token at which it is worth a try and at which some state on the stack can do
     something.  What is above that state and the tokens skipped go into an error region.
  3. WRAP everything that is left into one error region, which ends the parse.

  **Each repair reads on, uses up an insertion or ends the parse**, so repairing comes to an end.
-/
import LayeredSyntax.Parse.Progress

namespace LayeredSyntax

/-! ## Insertions -/

/-- A symbol that could be made up at a head. -/
structure Insertion where
  head : Nat
  symbol : Sym
  /-- The state behind the symbol. -/
  target : Nat
  grammar : GrammarId
deriving DecidableEq, Inhabited, Repr

/-- Whether an insertion may stand for several tokens. -/
def Insertion.isNonterminal (i : Insertion) : Bool :=
  match i.symbol with
  | .n _ => true
  | .t _ => false

/-- The kind of a node for a terminal that had to be made up. -/
def missingKind : Option Terminal → String
  | some (.sym text) | some (.keyword text) => text
  | some (.kind k) => k.name
  | some (.command name) => "keyword_" ++ name
  | some (.directive text) => "#" ++ text
  | none => "end"

namespace ParseJob

/-- The state behind a symbol that a state waits for. -/
def stateBehind? (j : ParseJob) (state : Nat) : Sym → Option Nat
  | .n nonterminal => j.table.goto? state nonterminal
  | .t terminal =>
    if terminal = endOfText then none
    else (j.table.actionsAt state terminal).findSome? fun
      | .shift target => some target
      | _ => none

/-- The symbols that a head waits for, each once. -/
def insertionsAt (j : ParseJob) (stack : Stack) (head : Nat) : List Insertion :=
  let state := stack.state head
  let kernel := ((j.table.states[state]?).map (·.kernel)).getD []
  let all := kernel.filterMap fun item => do
    let symbol ← j.table.nextSymbol? item
    let target ← j.stateBehind? state symbol
    return Insertion.mk head symbol target (j.table.production item.production).grammar
  all.foldl (fun kept i => if kept.any (·.symbol == i.symbol) then kept else kept ++ [i]) []

/-- **The symbols that could be made up**, nonterminals first; of a limited number of them those
    behind which something can be done with the token ahead. -/
def insertions [Limits] (j : ParseJob) (stack : Stack) (p : Nat) : List Insertion :=
  let all := stack.heads.flatMap (j.insertionsAt stack)
  let (nonterminals, terminals) := all.partition Insertion.isNonterminal
  ((nonterminals ++ terminals).take Limits.insertionCandidates).filter fun i => j.actsAt i.target p

/-- The name of a made-up symbol. -/
def insertedKind (j : ParseJob) (s : Sym) : String :=
  match s with
  | .n _ => j.table.symbolName s
  | .t terminal => missingKind (j.table.terminal? terminal)

/-- What could come next, by name. -/
def expectedAt (j : ParseJob) (stack : Stack) : List String :=
  let names := (stack.heads.flatMap fun head => j.table.expected (stack.state head)).foldl
    Grammar.addNew []
  names.mergeSort fun a b => a ≤ b

end ParseJob

namespace Progress

variable [Limits]

/-- Whether a symbol may be made up at the position. -/
def mayInsert (j : ParseJob) (s : Progress) : Bool :=
  if s.position = j.finish then s.insertionsAtEnd < Limits.insertionsAtEnd
  else s.lastInsertion != some s.position

/-- Make a symbol up. -/
def insert (j : ParseJob) (s : Progress) (i : Insertion) : Progress :=
  let p := s.position
  let kind := j.insertedKind i.symbol
  let label := ⟨.missing kind i.grammar i.symbol, p, p⟩
  let s := if j.reportRepairs then
      s.tell ((Event.debug "Inserted missing symbol")
        |>.withValue "symbol" kind
        |>.withCount "position" p)
    else s
  { s.mark p with
    stack := s.stack.pushOnly ⟨i.target, p, p, [⟨i.head, label⟩]⟩
    settled := false
    lastInsertion := if p = j.finish then s.lastInsertion else some p
    insertionsAtEnd := if p = j.finish then s.insertionsAtEnd + 1 else s.insertionsAtEnd }

/-! ## Error regions -/

/-- The subtrees on the first ways down from some nodes, given from the top, in the order of the
    text. -/
def poppedPieces (stack : Stack) (nodes : List Nat) : List Label :=
  (nodes.filterMap fun i => (stack.node i).edges.head?.map (·.label)).reverse

/-- Leave an error region behind: what is popped, and the skipped tokens from the position up to
    before `stop`. -/
def leaveRegion (j : ParseJob) (s : Progress) (first stop : Nat) (popped : List Nat)
    (cause : RepairCause) : Progress :=
  let pieces := poppedPieces s.stack popped ++ j.skippedPieces s.position stop
  let a := j.assemble s.regions true first stop pieces
  { s with
    regions := ⟨first, stop, .error a.children⟩ :: s.regions
    repairs := (j.tokens.startByte first, ⟨cause, j.expectedAt s.stack⟩) :: s.repairs
    assembled := s.assembled + a.work }

/-- Whether it is worth a try at a position. -/
def isLanding (j : ParseJob) (q : Nat) : Bool :=
  match j.tokens.get? q with
  | some t => j.resync.isMatch t.kind t.text
  | none => true

/-- The first position from `q` on at which it is worth a try and a node of the chain can do
    something, with the nodes above it and the node itself. -/
def landing? (j : ParseJob) (stack : Stack) (chain : List Nat) (q : Nat) :
    Option (Nat × List Nat × Nat) :=
  if q ≤ j.finish then
    let fits := fun i => j.actsAt (stack.state i) q
    match if isLanding j q then chain.find? fits else none with
    | some i => some (q, chain.takeWhile (!fits ·), i)
    | none => landing? j stack chain (q + 1)
  else none
termination_by j.finish + 1 - q

/-- Skip to the next token at which the parse can be taken up. -/
def skip? (j : ParseJob) (s : Progress) : Option Progress := do
  let p := s.position
  let (q, popped, survivor) ← landing? j s.stack s.stack.chain (p + 1)
  let node := s.stack.node survivor
  let s := s.leaveRegion j node.covered q popped (.unexpected (j.tokens.text p))
  let s := { s with
    stack := s.stack.pushOnly ⟨node.state, q, node.covered, node.edges⟩
    position := q
    settled := false }
  let s := s.markAll node.covered q
  return if j.reportRepairs then
      s.tell ((Event.debug "Skipped to resynchronization token")
        |>.withCount "from" p
        |>.withCount "to" q)
    else s

/-- Wrap the whole stack and the rest of the text into one error region. -/
def wrap (j : ParseJob) (s : Progress) (cause : RepairCause) : Progress :=
  match s.stack.chain.getLast? with
  | none => s
  | some bottom =>
    let first := (s.stack.node bottom).covered
    let s := s.leaveRegion j first j.finish s.stack.chain.dropLast cause
    s.markAll (min first s.position) j.finish

/-- **Repair the parse at the position.**  Says whether it can go on. -/
def repair (j : ParseJob) (s : Progress) : Bool × Progress :=
  let p := s.position
  let s := { s with repairCount := s.repairCount + 1 }
  if Limits.repairs < s.repairCount then
    let s := s.tell ((Event.of .warning .repairLimit "Recovery limit reached")
      |>.withCount "limit" Limits.repairs
      |>.withCount "position" p)
    (false, s.wrap j .tooMany)
  else
    match if s.mayInsert j then (j.insertions s.stack p).head? else none with
    | some i => (true, s.insert j i)
    | none =>
      match if p < j.finish then s.skip? j else none with
      | some s => (true, s)
      | none =>
        let cause := if p < j.finish then .unexpected (j.tokens.text p) else .endOfText
        (false, s.wrap j cause)

end Progress

end LayeredSyntax
