/-
  THE BUILT-IN GRAMMARS — expressions, commands and class definitions.

  Each grammar embeds those before it, so together they make three layers.
-/
import LayeredSyntax.Grammar.ClassDefinition
import LayeredSyntax.Grammar.Command
import LayeredSyntax.Grammar.Expression

namespace LayeredSyntax

/-- The grammar of expressions. -/
def expressionGrammar : Grammar := ExpressionGrammar.draft.finish

/-- The grammar of commands. -/
def commandGrammar : Grammar := CommandGrammar.draft.finish

/-- The grammar of class definitions. -/
def classGrammar : Grammar := ClassGrammar.draft.finish

/-- The built-in grammars. -/
def builtinGrammars : List Grammar := [expressionGrammar, commandGrammar, classGrammar]

/-- The built-in grammar of a name. -/
def builtinGrammar? (id : GrammarId) : Option Grammar := builtinGrammars.find? (·.id == id)

/-- Follow the embeddings of built-in grammars, with `todo` as a stack: the grammars found so far,
    in order.  No grammar is taken twice, so `fuel` needs to cover only the names on the stack. -/
def closureFrom (done : List Grammar) (todo : List GrammarId) : Nat → List Grammar
  | 0 => done
  | fuel + 1 =>
    match todo with
    | [] => done
    | id :: rest =>
      if done.any (·.id == id) then closureFrom done rest fuel
      else
        match builtinGrammar? id with
        | none => closureFrom done rest fuel
        | some g => closureFrom (done ++ [g]) (g.embedded.reverse ++ rest) fuel

/-- **A built-in grammar and all grammars that it embeds**, itself first. -/
def builtinClosure (id : GrammarId) : List Grammar :=
  let names := builtinGrammars.foldl (fun n g => n + g.slots.length) 0
  closureFrom [] [id] (names + 2)

end LayeredSyntax
