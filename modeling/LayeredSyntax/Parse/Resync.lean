/-
  TAKING A PARSE UP AGAIN — the tokens at which it is worth a try.

  A parse that cannot go on skips tokens up to one that usually begins something new: a command, a
  closing brace, the next member of a class.  Each grammar names such terminals, and a parse goes by
  those of all grammars together, unless it is told others.
-/
import LayeredSyntax.Table.Basic

namespace LayeredSyntax

/-- The terminals at which a parse that went wrong can be taken up again. -/
structure ResyncSet where
  terminals : List Terminal
deriving DecidableEq, Inhabited, Repr

namespace ResyncSet

/-- Add a terminal, unless it is there. -/
def insert (s : ResyncSet) (t : Terminal) : ResyncSet := ⟨Grammar.addNew s.terminals t⟩

/-- The terminals that the grammars of a table name. -/
def ofTable (t : Table) : ResyncSet :=
  ⟨(t.grammars.flatMap t.resyncOf).foldl Grammar.addNew []⟩

/-- **Whether a parse can be taken up at a token.** -/
def isMatch (s : ResyncSet) (k : TokenKind) (text : String) : Bool :=
  s.terminals.any (·.isMatch k text text.toLower)

end ResyncSet

/-! ## Running the program -/

example : (ResyncSet.mk [.sym ";"]).insert (.sym ";") = ⟨[.sym ";"]⟩ := by decide

end LayeredSyntax
