/-
  TOKEN KINDS — what sort of thing a token is.

  The kinds are coarse on purpose.  Keywords are no kind of their own: a grammar matches them by
  their text on identifiers, and command words by their spellings on commands, so that reading a
  text does not depend on the grammar that the tokens are for.
-/
namespace LayeredSyntax

/-- The sorts of tokens. -/
inductive TokenKind where
  -- Between the words.
  | whitespace | lineComment | blockComment | docComment
  -- The structure of a line of commands.
  | newline | label | command | directive
  -- Names.
  | identifier | instanceVariable | systemVariable | systemFunction | macroWord | sqlField
  -- Literals.
  | number | string | pattern
  -- Symbols, told apart by their text.
  | operator | punctuation
  -- Embedded regions.
  | embedOpen | rawText
  -- What could not be read.
  | error
deriving DecidableEq, Inhabited, Repr

namespace TokenKind

/-- Trivia stands between the tokens that a grammar sees. -/
def isTrivia : TokenKind → Bool
  | whitespace | lineComment | blockComment | docComment => true
  | _ => false

/-- Symbols are told apart by their text alone. -/
def isSymbolic : TokenKind → Bool
  | operator | punctuation | embedOpen => true
  | _ => false

/-- All kinds, in order. -/
def all : List TokenKind :=
  [whitespace, lineComment, blockComment, docComment, newline, label, command, directive,
    identifier, instanceVariable, systemVariable, systemFunction, macroWord, sqlField, number,
    string, pattern, operator, punctuation, embedOpen, rawText, error]

/-- The name of a tree node for a token of this kind. -/
def name : TokenKind → String
  | whitespace => "whitespace"
  | lineComment => "line_comment"
  | blockComment => "block_comment"
  | docComment => "documatic_line"
  | newline => "newline"
  | label => "label"
  | command => "command"
  | directive => "directive"
  | identifier => "identifier"
  | instanceVariable => "instance_variable"
  | systemVariable => "system_variable"
  | systemFunction => "system_function_name"
  | macroWord => "macro_name"
  | sqlField => "sql_field_reference"
  | number => "number"
  | string => "string"
  | pattern => "pattern"
  | operator => "operator"
  | punctuation => "punctuation"
  | embedOpen => "embed_open"
  | rawText => "raw_text"
  | error => "ERROR"

end TokenKind

end LayeredSyntax
