/-
  MATCHING — which terminals a token can be taken for.

  A token is tested against the terminals by class: its kind, and then its text among the symbols,
  keywords, commands or directives, as its kind asks for.  Texts are compared in lower case.  Of two
  symbols that differ only in case the later one is taken.
-/
import LayeredSyntax.Grammar.Symbol

namespace LayeredSyntax

/-- The numbers of terminals, by class. -/
structure Matching where
  kinds : List (TokenKind × Nat)
  /-- Symbols in lower case, the last one first. -/
  symbols : List (String × Nat)
  keywords : List (String × Nat)
  commands : List (String × Nat)
  directives : List (String × Nat)
deriving DecidableEq, Inhabited, Repr

namespace Matching

/-- No terminals. -/
def empty : Matching := ⟨[], [], [], [], []⟩

/-- Add a terminal and its number. -/
def add (m : Matching) (id : Nat) : Terminal → Matching
  | .kind k => { m with kinds := m.kinds ++ [(k, id)] }
  | .sym s => { m with symbols := (s.toLower, id) :: m.symbols }
  | .keyword w => { m with keywords := m.keywords ++ [(w, id)] }
  | .command c => { m with commands := m.commands ++ [(c, id)] }
  | .directive d => { m with directives := m.directives ++ [(d, id)] }

/-- The terminals of a list, numbered from 1 on. -/
def ofTerminals (terminals : List Terminal) : Matching :=
  terminals.zipIdx.foldl (fun m p => m.add (p.2 + 1) p.1) empty

/-- The terminals for the text of a token, given in lower case. -/
def byText (m : Matching) (k : TokenKind) (lower : String) : List Nat :=
  match k with
  | .operator | .punctuation | .embedOpen => (m.symbols.lookup lower).toList
  | .identifier => (m.keywords.lookup lower).toList
  | .command => (m.commands.filter fun p => spellsCommand p.1 lower).map (·.2)
  | .directive => (m.directives.lookup lower).toList
  | _ => []

/-- **The terminals that a token can be taken for**: the one of its kind, then those of its text. -/
def terminalsFor (m : Matching) (k : TokenKind) (text : String) : List Nat :=
  (m.kinds.lookup k).toList ++ m.byText k text.toLower

end Matching

end LayeredSyntax
