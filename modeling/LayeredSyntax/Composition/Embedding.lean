/-
  EMBEDDINGS — which grammars fill the slots of which.

  Grammars are layers, so no grammar may reach itself through its slots.  The check walks along the
  slots in depth: a grammar that turns up again on the way to itself closes a cycle, which is
  reported from that grammar back to it.  A grammar that is not among those composed is not followed
  here; leaving it out is a fault of its own.
-/
import LayeredSyntax.Composition.Fault

namespace LayeredSyntax

/-- The first grammar of each name. -/
def distinctGrammars (grammars : List Grammar) : List Grammar :=
  grammars.foldl (fun done g => if done.any (·.id == g.id) then done else done ++ [g]) []

/-- The grammar of a name. -/
def findGrammar? (grammars : List Grammar) (id : GrammarId) : Option Grammar :=
  grammars.find? (·.id == id)

/-- Walk on from a grammar: `path` leads to it, `done` holds the grammars from which no cycle can be
    reached.  A path holds no grammar twice, so `fuel` needs to cover only the number of grammars.
    The answer is `done` with what has been found, or the cycle. -/
def walkEmbeddings (grammars : List Grammar) (path : List GrammarId) (done : List GrammarId)
    (id : GrammarId) : Nat → Except (List GrammarId) (List GrammarId)
  | 0 => .ok done
  | fuel + 1 =>
    if id ∈ done then .ok done
    else if id ∈ path then .error (path.dropWhile (· != id) ++ [id])
    else
      match findGrammar? grammars id with
      | none => .ok done
      | some g => do
        let done ← g.embedded.foldlM
          (fun done target => walkEmbeddings grammars (path ++ [id]) done target fuel) done
        return id :: done

/-- **The first cycle of embeddings**, if there is one. -/
def embeddingCycle? (grammars : List Grammar) : Option (List GrammarId) :=
  let walk := fun done (g : Grammar) =>
    walkEmbeddings grammars [] done g.id (grammars.length + 1)
  match grammars.foldlM walk [] with
  | .ok _ => none
  | .error cycle => some cycle

end LayeredSyntax
