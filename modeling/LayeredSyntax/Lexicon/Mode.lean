/-
  LEXER MODES — everything that must be known at a place to read on from there.

  A text is read in layers: class definitions, commands inside method bodies, expressions inside
  commands, and raw regions of other languages.  What a character means depends on the layer and on
  the place inside a line.  A mode holds all of it, and every token remembers the mode that it was
  read in; so **reading can be taken up again at any token**, which is what reading a text again
  after an edit rests on.
-/
import LayeredSyntax.Lexicon.Nesting

namespace LayeredSyntax

/-- The language that is being read. -/
inductive Layer where
  /-- Class definitions. -/
  | udl
  /-- Commands. -/
  | core
  /-- A single expression. -/
  | expr
  /-- Anything up to the closer of a fence. -/
  | raw
deriving DecidableEq, Inhabited, Repr

/-- Where in a line of commands the reading stands. -/
inductive LinePosition where
  /-- At the first character of a line, where a word is a label. -/
  | columnZero
  /-- Where a word can be a command. -/
  | commandStart
  /-- Right after a command word. -/
  | afterCommand
  /-- Where an operand is expected. -/
  | operand
  /-- Right after an operand. -/
  | afterOperand
  /-- After an operand and a space, where a word starts another command. -/
  | afterOperandSpace
  /-- After the question mark of a pattern match. -/
  | pattern
  /-- After a directive that names a macro. -/
  | macroName
  /-- Between the parentheses of a macro's parameters. -/
  | macroParams
  /-- After a macro's name: the rest of the line is its value. -/
  | macroValue
deriving DecidableEq, Inhabited, Repr

/-- The brackets that can hold a raw region. -/
inductive FenceKind where
  /-- Embedded SQL, between parentheses. -/
  | paren
  /-- Embedded markup, between angle brackets. -/
  | angle
  /-- The body of a class member, between braces. -/
  | brace
deriving DecidableEq, Inhabited, Repr

namespace FenceKind

/-- The bracket that opens one more level. -/
def opener : FenceKind → Char
  | paren => '('
  | angle => '<'
  | brace => '{'

/-- The bracket that ends the region. -/
def closer : FenceKind → Char
  | paren => ')'
  | angle => '>'
  | brace => '}'

end FenceKind

/-- What ends a raw region, and the layer that goes on behind it. -/
structure Fence where
  kind : FenceKind
  resume : Layer
deriving DecidableEq, Inhabited, Repr

/-- What the next brace of a class member opens. -/
inductive BodyKind where
  /-- Nothing in particular. -/
  | absent
  /-- Commands. -/
  | code
  /-- An expression. -/
  | expr
  /-- Another language. -/
  | raw
deriving DecidableEq, Inhabited, Repr

/-- The keyword of a class member whose value decides how the member goes on. -/
inductive Awaited where
  /-- None. -/
  | nothing
  /-- The language of a method. -/
  | language
  /-- The sort of a method's body. -/
  | codeMode
  /-- A brace opens an expression. -/
  | expression
  /-- A brace opens commands. -/
  | code
deriving DecidableEq, Inhabited, Repr

/-- What the class layer knows about the member that is being read. -/
structure ClassContext where
  /-- What a brace opens. -/
  pending : BodyKind
  /-- Open square brackets. -/
  brackets : Nat
  /-- Open parentheses. -/
  parens : Nat
  /-- The keyword whose value comes next. -/
  awaiting : Awaited
  /-- Whether the next name can be the keyword of a member. -/
  memberStart : Bool
  /-- Whether a braced value or the default of an argument is being read. -/
  inValue : Bool
deriving DecidableEq, Inhabited, Repr

/-- Outside every member. -/
def ClassContext.empty : ClassContext := ⟨.absent, 0, 0, .nothing, false, false⟩

/-- **The state of reading between two tokens.** -/
structure Mode where
  layer : Layer
  position : LinePosition
  /-- Whether the condition behind a command word is being read. -/
  postcond : Bool
  /-- Whether the last command takes a block after one space. -/
  blockCommand : Bool
  /-- Open braces of commands within the current body. -/
  braceDepth : Nat
  json : JsonNesting
  fence : Option Fence
  member : ClassContext
deriving DecidableEq, Inhabited, Repr

namespace Mode

/-- Where a routine begins: commands, at the start of a line. -/
def core : Mode where
  layer := .core
  position := .columnZero
  postcond := false
  blockCommand := false
  braceDepth := 0
  json := .empty
  fence := none
  member := .empty

/-- Where a single expression begins. -/
def expr : Mode := { core with layer := .expr, position := .operand }

/-- Where a class definition begins. -/
def udl : Mode :=
  { core with
    layer := .udl
    position := .commandStart
    member := { ClassContext.empty with memberStart := true } }

/-- Line ends are tokens in the command layer, outside JSON literals. -/
def newlineIsSignificant (m : Mode) : Bool := m.layer == .core && m.json.isEmpty

/-- Whether the body of a class member is being read. -/
def inMemberBody (m : Mode) : Bool := m.member.pending != .absent && m.layer != .udl

end Mode

end LayeredSyntax
