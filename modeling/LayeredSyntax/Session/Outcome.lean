/-
  OUTCOMES — everything that is known after a text was parsed.

  An outcome keeps what a later parse of an edited text needs: the tokens with their modes, the
  tree, and the positions at which more than one thing was possible.
-/
import LayeredSyntax.Language
import LayeredSyntax.Session.Diagnostic
import LayeredSyntax.Tree.Outline

namespace LayeredSyntax

/-- How much work an earlier parse has saved. -/
structure ReparseCounts where
  /-- Subtrees that were taken over. -/
  reused : Nat
  /-- Tokens that were read again. -/
  reread : Nat
deriving DecidableEq, Inhabited, Repr

/-- **What is known after a parse.** -/
structure ParseOutcome where
  language : Language
  /-- Where the parse could be taken up again. -/
  resync : ResyncSet
  stream : TokenStream
  tree : Node
  /-- For each position, whether more than one thing was possible there. -/
  marks : Array Bool
  counts : WorkCounts
  /-- What is wrong with the text, in order. -/
  diagnostics : List Diagnostic
  /-- What an earlier parse has saved, if there was one. -/
  saved : Option ReparseCounts

namespace ParseOutcome

/-- The outcome of a parse. -/
def ofRun [Limits] (language : Language) (resync : ResyncSet) (stream : TokenStream)
    (r : ParseRun) : ParseOutcome :=
  ⟨language, resync, stream, r.tree, r.marks, r.counts, r.diagnostics stream, none⟩

/-- The text that was parsed. -/
def source (o : ParseOutcome) : String := o.stream.document.text

/-- The root of the tree. -/
def root (o : ParseOutcome) : Place := .ofRoot o.tree

/-- Whether more than one thing was possible at a position. -/
def isAmbiguousAt (o : ParseOutcome) (p : Nat) : Bool := o.marks[p]?.getD false

/-- Whether two outcomes have trees that look the same. -/
def sameTree (a b : ParseOutcome) : Bool := a.tree.same b.tree

/-- The bytes that the diagnostics are about. -/
def faultyRanges (o : ParseOutcome) : List (Nat × Nat) :=
  o.diagnostics.map fun d => (d.span.start.offset, d.span.stop.offset)

/-- All diagnostics with the lines they are about. -/
def rendered [Limits] (o : ParseOutcome) : String :=
  "\n".intercalate <| o.diagnostics.map fun d =>
    o.stream.document.render d.span s!"[{d.code.text}] {d.message}"

end ParseOutcome

end LayeredSyntax
