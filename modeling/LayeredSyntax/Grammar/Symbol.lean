/-
  SYMBOLS — what a production of a grammar is made of.

  A grammar does not name tokens one by one.  A TERMINAL stands for a class of tokens: all of a
  kind, a symbol by its text, a keyword, a command in any spelling, a directive.  Classes overlap,
  so one token can be taken for several terminals, and it is up to the parse which of them fits.

  Besides terminals a production refers to rules of its own grammar and to SLOTS, which stand for a
  rule of another grammar.
-/
import LayeredSyntax.Lexicon.Kind
import LayeredSyntax.Lexicon.Words
import LayeredSyntax.Text.Classes

namespace LayeredSyntax

/-! ## Grammars -/

/-- The name of a grammar. -/
structure GrammarId where
  name : String
deriving DecidableEq, Inhabited, Repr, Hashable

namespace GrammarId

/-- The grammar of expressions. -/
def expr : GrammarId := ⟨"expr"⟩

/-- The grammar of commands. -/
def core : GrammarId := ⟨"core"⟩

/-- The grammar of class definitions. -/
def udl : GrammarId := ⟨"udl"⟩

/-- The grammars that the library brings along. -/
def builtins : List GrammarId := [expr, core, udl]

/-- The built-in grammar of a name in any case. -/
def builtin? (name : String) : Option GrammarId := builtins.find? (sameNoCase ·.name name)

end GrammarId

/-! ## Terminals -/

/-- A class of tokens. -/
inductive Terminal where
  /-- Every token of a kind. -/
  | kind (k : TokenKind)
  /-- A symbol of a text, in any case. -/
  | sym (text : String)
  /-- An identifier that spells a word. -/
  | keyword (word : String)
  /-- A command in any of its spellings. -/
  | command (name : String)
  /-- A directive of a text, with its number sign. -/
  | directive (text : String)
deriving DecidableEq, Inhabited, Repr

namespace Terminal

/-- Whether a token belongs to the class; `lower` is its text in lower case. -/
def isMatch (t : Terminal) (k : TokenKind) (text lower : String) : Bool :=
  match t with
  | kind k' => k' == k
  | sym s => k.isSymbolic && sameNoCase text s
  | keyword w => k == .identifier && lower == w
  | command c => k == .command && spellsCommand c lower
  | directive d => k == .directive && lower == d

/-- The name of a tree node for a token that was taken for the terminal, and whether the node is of
    interest by itself. -/
def leafName (t : Terminal) (k : TokenKind) (text : String) : String × Bool :=
  match t with
  | kind .newline => (TokenKind.newline.name, false)
  | kind k' => (k'.name, true)
  | sym _ => (text, false)
  | keyword w => (w, false)
  | command c => ("keyword_" ++ c, true)
  | directive _ => (k.name, true)

/-- The text under which the terminal can be an operator. -/
def operator? : Terminal → Option String
  | sym s => some s
  | _ => none

/-- The terminal as messages show it. -/
def text : Terminal → String
  | kind k => k.name
  | sym s => "'" ++ s ++ "'"
  | keyword w => "'" ++ w ++ "'"
  | command c => "command " ++ c
  | directive d => d

end Terminal

/-! ## Symbols -/

/-- A part of a production. -/
inductive Symbol where
  /-- A token. -/
  | terminal (t : Terminal)
  /-- A rule of the same grammar. -/
  | rule (name : String)
  /-- A slot that another grammar fills. -/
  | slot (name : String)
deriving DecidableEq, Inhabited, Repr

/-- The symbol as dumps show it. -/
def Symbol.text : Symbol → String
  | .terminal t => t.text
  | .rule name => name
  | .slot name => "<" ++ name ++ ">"

/-! ## Running the program -/

example : (Terminal.command "halt").isMatch .command "H" "h" = true := by decide +kernel
example : (Terminal.keyword "as").isMatch .command "as" "as" = false := by decide +kernel

end LayeredSyntax
