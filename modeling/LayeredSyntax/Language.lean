/-
  LANGUAGES — a table together with the grammar and the mode in which texts begin.

  One table serves several grammars, so a text needs to be told which of them it is in, and in which
  mode its first character is read.  The built-in languages are expressions, commands and class
  definitions; others come from grammars of the user.

  Every composition has a number, and a table is known by the number of the composition that made
  it.  Composing the same grammars again gives a table that looks the same and still is another one,
  so **what was remembered about one table is never taken for another**.
-/
import LayeredSyntax.Composition.Compose
import LayeredSyntax.Grammar.Builtin
import LayeredSyntax.Lexicon.Mode

namespace LayeredSyntax

/-- **A language.** -/
structure Language where
  /-- The grammar that a text is in. -/
  grammar : GrammarId
  table : Table
  /-- The mode in which a text begins. -/
  mode : Mode
  /-- The number of the composition that made the table; 0 for the built-in ones. -/
  composition : Nat
deriving DecidableEq

namespace Language

/-- The mode in which texts of a grammar begin. -/
def modeOf (g : GrammarId) : Mode :=
  if g = .core then .core else if g = .udl then .udl else .expr

/-- The language of a grammar among several grammars. -/
def ofGrammars (composition : Nat) (entry : GrammarId) (grammars : List Grammar) (mode : Mode) :
    Except CompositionFault Language :=
  if grammars.any (·.id == entry) then
    (compose grammars).map fun table => ⟨entry, table, mode, composition⟩
  else .error (.unknownGrammar entry.name)

/-- What is told while the language of a grammar among several grammars is made; `outcome` is what
    composing them comes to. -/
def events [Limits] (entry : GrammarId) (grammars : List Grammar)
    (outcome : Except CompositionFault Table) : List Event :=
  if grammars.any (·.id == entry) then composeEvents false grammars outcome else []

/-- The language of some built-in grammars and no others; a text is in the first one. -/
def ofBuiltins (composition : Nat) (ids : List GrammarId) : Except CompositionFault Language :=
  match ids with
  | [] => .error (.unknownGrammar "")
  | entry :: _ => do
    let grammars ← ids.mapM fun id =>
      match builtinGrammar? id with
      | some g => .ok g
      | none => .error (.unknownGrammar id.name)
    ofGrammars composition entry grammars (modeOf entry)

/-- A built-in grammar with all that it embeds. -/
def ofBuiltin (id : GrammarId) : Language :=
  match ofGrammars 0 id (builtinClosure id) (modeOf id) with
  | .ok l => l
  | .error _ => ⟨id, .empty, modeOf id, 0⟩

/-- Expressions by themselves. -/
def expr : Language := ofBuiltin .expr

/-- Commands, as routines have them. -/
def core : Language := ofBuiltin .core

/-- Class definitions. -/
def udl : Language := ofBuiltin .udl

/-- The built-in language of a name in any case. -/
def builtin? (name : String) : Option Language :=
  (GrammarId.builtin? name).bind fun id => [expr, core, udl].find? (·.grammar == id)

/-- A short description of the language. -/
def text (l : Language) : String := l.grammar.name ++ s!" ({l.table.stateCount} states)"

end Language

instance : Inhabited Language := ⟨⟨.expr, .empty, .expr, 0⟩⟩

end LayeredSyntax
