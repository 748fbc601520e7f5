/-
  COMPOSING GRAMMARS — from a list of grammars to the table that parses all of them.

  The steps are made in a fixed order, and the first fault ends them: grammars of one name are taken
  once, embeddings must have no cycle, every grammar is checked, levels are merged, and everything
  is put on common numbers.  A composite that has come so far always has a table.
-/
import LayeredSyntax.Composition.Lowering
import LayeredSyntax.Composition.Validation
import LayeredSyntax.Table.Lookup

namespace LayeredSyntax

/-- Check some grammars and put them on common numbers. -/
def compositeOf (grammars : List Grammar) : Except CompositionFault Composite := do
  let grammars := distinctGrammars grammars
  if let some cycle := embeddingCycle? grammars then throw (.cyclicEmbedding cycle)
  grammars.forM (Grammar.check grammars)
  let levels ← mergeLevels grammars
  Composite.lower grammars levels

/-- **Compose grammars.** -/
def compose (grammars : List Grammar) : Except CompositionFault Table :=
  (compositeOf grammars).map Table.ofComposite

/-- The events of composing some grammars with an outcome. -/
def composeEvents [Limits] (reportConflicts : Bool) (grammars : List Grammar)
    (outcome : Except CompositionFault Table) : List Event :=
  let names := ",".intercalate (grammars.map (·.id.name))
  let start := (Event.debug "Composing grammars").withValue "grammars" names
  match outcome with
  | .ok t =>
    start :: t.events reportConflicts ++
      [(Event.success .grammarsComposed "Grammars composed")
        |>.withValue "grammars" names
        |>.withCount "states" t.stateCount]
  | .error fault =>
    [start, (Event.error fault.code "Grammar composition failed").withValue "error" fault.message]

end LayeredSyntax
