/-
  LOWERING — grammars that have been checked, put on common numbers.

  Every rule has its number before the first production is lowered, so references can go forwards
  and across grammars.  The levels of productions are settled here as well: a production is on the
  level that is named for it, or else on the level of its last operator that has one.  **Checked
  grammars can fail here only for their levels.**
-/
import LayeredSyntax.Composition.Composite

namespace LayeredSyntax

namespace Composite

/-- The nonterminals of a grammar's rules. -/
def nonterminalsOf (g : Grammar) : List Nonterminal :=
  g.rules.map fun r => ⟨s!"{g.id.name}::{r.name}", r.name, g.id, r.isHidden, false⟩

/-- The root of a grammar. -/
def rootOf (g : Grammar) : Nonterminal :=
  ⟨s!"{g.id.name}::{g.start}'", "source_file", g.id, false, true⟩

/-- The number of a rule of a grammar. -/
def ruleNumber? (c : Composite) (g : GrammarId) (rule : String) : Option Nat :=
  c.nonterminals.findIdx? fun n => n.grammar == g && n.name == rule && !n.isRoot

/-- The number of a terminal, which is given one if it has none. -/
def number (c : Composite) (t : Terminal) : Nat × Composite :=
  match c.terminals.findIdx? (· == t) with
  | some index => (index + 1, c)
  | none => (c.terminals.size + 1, { c with terminals := c.terminals.push t })

/-- The number of the rule that fills a slot. -/
def slotNumber (grammars : List Grammar) (c : Composite) (g : Grammar) (name : String) :
    Except CompositionFault Nat :=
  match g.slot? name with
  | none => .error (.unsatisfiedEmbedding g.id name .undeclared)
  | some slot =>
    match grammars.find? (·.id == slot.grammar) with
    | none => .error (.unknownGrammar slot.grammar.name)
    | some target =>
      match c.ruleNumber? target.id (slot.rule.getD target.start) with
      | some number => .ok number
      | none => .error (.unsatisfiedEmbedding g.id name .missingRule)

/-- Lower a symbol of a rule. -/
def lowerSymbol (grammars : List Grammar) (g : Grammar) (rule : String) (c : Composite) :
    Symbol → Except CompositionFault (Sym × Composite)
  | .terminal t =>
    let (id, c) := c.number t
    .ok (.t id, c)
  | .rule name =>
    match c.ruleNumber? g.id name with
    | some id => .ok (.n id, c)
    | none => .error (.undefinedNonterminal g.id rule name)
  | .slot name => (slotNumber grammars c g name).map fun id => (.n id, c)

/-- Lower some symbols of a rule, behind those already lowered, which are given in reverse. -/
def lowerSymbols (grammars : List Grammar) (g : Grammar) (rule : String) (c : Composite)
    (done : List Sym) : List Symbol → Except CompositionFault (List Sym × Composite)
  | [] => .ok (done.reverse, c)
  | s :: rest => do
    let (sym, c) ← lowerSymbol grammars g rule c s
    lowerSymbols grammars g rule c (sym :: done) rest

/-- The precedence of the last operator that has one. -/
def lastOperator? (m : MergedLevels) (g : GrammarId) (symbols : List Symbol) : Option Precedence :=
  symbols.reverse.findSome? fun s =>
    match s with
    | .terminal t => t.operator?.bind (m.ofOperator? g)
    | _ => none

/-- The precedence of an alternative. -/
def precedenceOf (m : MergedLevels) (g : GrammarId) (a : Alternative) :
    Except CompositionFault (Option Precedence) :=
  match a.level with
  | none => .ok (lastOperator? m g a.symbols)
  | some level =>
    match m.table.indexOf? level with
    | some index => .ok (m.table.ofLevel? index)
    | none => .error (.undefinedLevel g level)

/-- Lower an alternative of a rule. -/
def lowerAlternative (grammars : List Grammar) (g : Grammar) (rule : String) (lhs : Nat)
    (c : Composite) (a : Alternative) : Except CompositionFault Composite := do
  let (rhs, c) ← lowerSymbols grammars g rule c [] a.symbols
  let precedence ← precedenceOf c.levels g.id a
  if a.binary && precedence.isNone then throw (.missingPrecedence g.id rule)
  let p : Production := ⟨lhs, rhs, g.id, precedence, a.directive, a.binary⟩
  return { c with productions := c.productions.push p }

/-- Lower a rule. -/
def lowerRule (grammars : List Grammar) (g : Grammar) (c : Composite) (r : Rule) :
    Except CompositionFault Composite :=
  match c.ruleNumber? g.id r.name with
  | some lhs => r.alternatives.foldlM (lowerAlternative grammars g r.name lhs) c
  | none => .error (.undefinedNonterminal g.id r.name r.name)

/-- Lower the rules of a grammar. -/
def lowerGrammar (grammars : List Grammar) (c : Composite) (g : Grammar) :
    Except CompositionFault Composite :=
  g.rules.foldlM (lowerRule grammars g) c

/-- Add the root of a grammar. -/
def addRoot (c : Composite) (g : Grammar) : Except CompositionFault Composite :=
  match c.ruleNumber? g.id g.start with
  | none => .error (.missingStart g.id g.start)
  | some start =>
    let lhs := c.nonterminals.size
    let p : Production := ⟨lhs, [.n start], g.id, none, none, false⟩
    .ok { c with
      nonterminals := c.nonterminals.push (rootOf g)
      productions := c.productions.push p
      roots := c.roots ++ [⟨g.id, c.productions.size, start⟩]
      resync := c.resync ++ [(g.id, g.resync)] }

/-- **Put grammars on common numbers.** -/
def lower (grammars : List Grammar) (levels : MergedLevels) :
    Except CompositionFault Composite := do
  let bare : Composite := { Composite.empty with
    grammars := grammars.map (·.id)
    nonterminals := (grammars.flatMap nonterminalsOf).toArray
    levels := levels }
  let c ← grammars.foldlM (lowerGrammar grammars) bare
  grammars.foldlM addRoot c

end Composite

end LayeredSyntax
