/-
  VALIDATION — what each grammar of a composition must satisfy by itself.

  The checks are made in a fixed order, and the first one that fails is reported: every rule is
  defined once; the start exists; every slot is declared once and can be filled; no rule and no
  production is empty; every reference is to a rule or slot that exists; every export exists; and
  every rule is of use.  **No empty production passes**, which everything behind relies on.
-/
import LayeredSyntax.Composition.Embedding
import LayeredSyntax.Table.Reach

namespace LayeredSyntax

/-- The rules that a rule refers to. -/
def Rule.references (r : Rule) : List String :=
  r.alternatives.flatMap fun a => a.symbols.filterMap fun s =>
    match s with
    | .rule name => some name
    | _ => none

namespace Grammar

/-! ## Names -/

/-- The first name that occurs twice, at its second place. -/
def repeated? (seen : List String) : List String → Option String
  | [] => none
  | name :: rest => if name ∈ seen then some name else repeated? (name :: seen) rest

/-- Whether the grammar has a rule of a name. -/
def hasRule (g : Grammar) (name : String) : Bool := (g.rule? name).isSome

/-- Whether other grammars may use a rule. -/
def offers (g : Grammar) (rule : String) : Bool :=
  g.hasRule rule && (rule == g.start || g.exports.contains rule)

/-! ## The checks -/

/-- Every rule is defined once. -/
def checkNames (g : Grammar) : Except CompositionFault Unit :=
  match repeated? [] (g.rules.map (·.name)) with
  | some rule => .error (.duplicateRule g.id rule)
  | none => .ok ()

/-- The start exists. -/
def checkStart (g : Grammar) : Except CompositionFault Unit :=
  if g.hasRule g.start then .ok () else .error (.missingStart g.id g.start)

/-- A slot can be filled by one of the grammars. -/
def checkSlot (grammars : List Grammar) (g : Grammar) (slot : Slot) :
    Except CompositionFault Unit :=
  match findGrammar? grammars slot.grammar, slot.rule with
  | none, _ => .error (.unsatisfiedEmbedding g.id slot.name (.missingGrammar slot.grammar))
  | some _, none => .ok ()
  | some target, some rule =>
    if target.offers rule then .ok ()
    else .error (.unsatisfiedEmbedding g.id slot.name (.privateRule slot.grammar rule))

/-- Every slot is declared once and can be filled; `seen` holds the slots already checked. -/
def checkSlots (grammars : List Grammar) (g : Grammar) (seen : List String) :
    List Slot → Except CompositionFault Unit
  | [] => .ok ()
  | slot :: rest => do
    if slot.name ∈ seen then throw (.ambiguousEmbedding g.id slot.name)
    g.checkSlot grammars slot
    checkSlots grammars g (slot.name :: seen) rest

/-- A symbol refers to something that exists. -/
def checkSymbol (g : Grammar) (rule : String) : Symbol → Except CompositionFault Unit
  | .terminal _ => .ok ()
  | .rule name =>
    if g.hasRule name then .ok () else .error (.undefinedNonterminal g.id rule name)
  | .slot name =>
    if (g.slot? name).isSome then .ok ()
    else .error (.unsatisfiedEmbedding g.id name .undeclared)

/-- An alternative is not empty, and its symbols refer to something that exists. -/
def checkAlternative (g : Grammar) (rule : String) (a : Alternative) :
    Except CompositionFault Unit := do
  if a.symbols.isEmpty then throw (.emptyProduction g.id rule)
  a.symbols.forM (g.checkSymbol rule)

/-- A rule is not empty, and its alternatives are in order. -/
def checkRule (g : Grammar) (r : Rule) : Except CompositionFault Unit := do
  if r.alternatives.isEmpty then throw (.emptyRule g.id r.name)
  r.alternatives.forM (g.checkAlternative r.name)

/-- An export exists. -/
def checkExport (g : Grammar) (name : String) : Except CompositionFault Unit :=
  if g.hasRule name then .ok () else .error (.undefinedNonterminal g.id g.start name)

/-! ## Rules that are of use -/

/-- The places of some rules among the rules. -/
def rulePlaces (g : Grammar) (names : List String) : List Nat :=
  names.filterMap fun name => g.rules.findIdx? (·.name == name)

/-- The first rule that cannot be reached from the start and the exports. -/
def unreachable? (g : Grammar) : Option Rule :=
  let next := g.rules.toArray.map fun r => g.rulePlaces r.references
  let roots := g.rulePlaces (g.start :: g.exports)
  let marks := reach g.rules.length (fun i => next[i]?.getD []) roots
  (g.rules.zip marks.toList).findSome? fun p => if p.2 then none else some p.1

/-- Every rule is of use. -/
def checkReachable (g : Grammar) : Except CompositionFault Unit :=
  match g.unreachable? with
  | some r => .error (.unreachableRule g.id r.name)
  | none => .ok ()

/-- **Check a grammar** that is composed with others. -/
def check (grammars : List Grammar) (g : Grammar) : Except CompositionFault Unit := do
  g.checkNames
  g.checkStart
  checkSlots grammars g [] g.slots
  g.rules.forM g.checkRule
  g.exports.forM g.checkExport
  g.checkReachable

end Grammar

end LayeredSyntax
