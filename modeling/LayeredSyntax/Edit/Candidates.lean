/-
  CANDIDATES — subtrees of an old tree that an edit cannot have changed.

  A subtree can be taken over if the parse would come to it again: if its tokens and the token
  behind it are unchanged, nothing in it went wrong, and **more than one thing was possible at none
  of its positions**, the one behind it included.

  In front of the edit the token behind the subtree has to lie before the first position that may
  differ.  Behind the edit, subtrees are taken only from the first token on at which a parse could
  be taken up again, as what comes before may still belong to what was edited.
-/
import LayeredSyntax.Edit.Relex
import LayeredSyntax.Parse.Job

namespace LayeredSyntax

/-- Where the old and the new positions agree. -/
structure AgreeingRange where
  /-- Before this position they are the same. -/
  frontStop : Nat
  /-- From this old position on subtrees may be taken over. -/
  backStart : Nat
  oldResume : Nat
  newResume : Nat
  /-- How many old positions there are. -/
  oldSize : Nat
deriving DecidableEq, Inhabited, Repr

namespace AgreeingRange

/-- Where the positions agree after an edit. -/
def of (old : TokenStream) (r : Relexed) (resync : ResyncSet) : AgreeingRange :=
  let later := (old.significantTokens.zipIdx.drop r.oldResume).find? fun p =>
    resync.isMatch p.1.kind p.1.text
  ⟨r.firstChanged, (later.map (·.2)).getD old.size, r.oldResume, r.newResume, old.size⟩

/-- The new position of a subtree that begins at an old one and has its lookahead at another one. -/
def newPosition? (a : AgreeingRange) (first ahead : Nat) : Option Nat :=
  if ahead < a.frontStop then some first
  else if a.backStart ≤ first ∧ ahead ≤ a.oldSize then some (first - a.oldResume + a.newResume)
  else none

end AgreeingRange

/-- Whether no mark stands at `count` positions from `first` on. -/
def isClear (marks : Array Bool) (first : Nat) : Nat → Bool
  | 0 => true
  | count + 1 => marks[first]? == some false && isClear marks (first + 1) count

namespace Node

/-- The new position at which a node can be taken over. -/
def reusableAt? (a : AgreeingRange) (marks : Array Bool) (first : Nat) (n : Node) : Option Nat :=
  if n.before?.isSome && !n.hasError && n.tokenCount != 0 &&
      isClear marks first (n.tokenCount + 1) then
    a.newPosition? first (first + n.tokenCount)
  else none

mutual

/-- Put the candidates among a node at position `first` and the nodes below it in front of a
    reversed list.  Nothing is taken out of an error region. -/
def candidatesOnto (a : AgreeingRange) (marks : Array Bool) (first : Nat)
    (out : List (Nat × Node)) : Node → List (Nat × Node)
  | n@(.rule _ _ _ _ _ cs) =>
    let out := match n.reusableAt? a marks first with
      | some p => (p, n) :: out
      | none => out
    candidatesAllOnto a marks first out cs
  | _ => out

/-- Put the candidates among some nodes, of which the first one is at position `first`, and the
    nodes below them in front of a reversed list. -/
def candidatesAllOnto (a : AgreeingRange) (marks : Array Bool) (first : Nat)
    (out : List (Nat × Node)) : List Node → List (Nat × Node)
  | [] => out
  | c :: cs =>
    candidatesAllOnto a marks (first + c.tokenCount) (candidatesOnto a marks first out c) cs

end

end Node

namespace ReuseIndex

/-- No subtrees. -/
def empty : ReuseIndex := ⟨#[]⟩

/-- File subtrees under their positions, of which there are `size`; the larger ones first, of equal
    ones the outer one, and not too many. -/
def ofCandidates [Limits] (size : Nat) (found : List (Nat × Node)) : ReuseIndex :=
  let filed := found.foldl (fun (rows : Array (List Node)) p => rows.modify p.1 (p.2 :: ·))
    (Array.replicate size [])
  ⟨filed.map fun row =>
    (row.mergeSort fun a b => b.tokenCount ≤ a.tokenCount).take Limits.reuseCandidates⟩

/-- **The subtrees of an old tree that can be taken over** after an edit. -/
def build [Limits] (tree : Node) (marks : Array Bool) (old : TokenStream) (r : Relexed)
    (resync : ResyncSet) : ReuseIndex :=
  ofCandidates (r.stream.size + 1)
    (Node.candidatesAllOnto (.of old r resync) marks 0 [] tree.children)

end ReuseIndex

end LayeredSyntax
