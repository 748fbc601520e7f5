/-
  GRAMMARS — rules in their finished form.

  A grammar is plain data: rules with their alternatives, slots for other grammars, precedence
  levels, and the terminals at which a parse that went wrong can be taken up again.  A finished
  alternative is a plain sequence of symbols.  Whether a grammar makes sense is not decided here but
  when grammars are composed.
-/
import LayeredSyntax.Grammar.Levels
import LayeredSyntax.Grammar.Symbol

namespace LayeredSyntax

/-- What to do where an alternative could be finished or read on. -/
inductive ConflictDirective where
  | preferShift | preferReduce
deriving DecidableEq, Inhabited, Repr

/-- One way to make what a rule stands for. -/
structure Alternative where
  symbols : List Symbol
  /-- The level that is named for the alternative. -/
  level : Option String
  /-- Whether it joins two operands by an operator, and so has to have a level. -/
  binary : Bool
  directive : Option ConflictDirective
deriving DecidableEq, Inhabited, Repr

/-- An alternative without anything special. -/
def Alternative.plain (symbols : List Symbol) : Alternative := ⟨symbols, none, false, none⟩

/-- What a name stands for. -/
structure Rule where
  name : String
  alternatives : List Alternative
deriving DecidableEq, Inhabited, Repr

/-- Rules whose name begins with an underscore leave no node in a tree. -/
def isHiddenName (name : String) : Bool := startsWith "_" name.toList

/-- Whether the rule leaves no node in a tree. -/
def Rule.isHidden (r : Rule) : Bool := isHiddenName r.name

/-- A place that another grammar fills. -/
structure Slot where
  name : String
  grammar : GrammarId
  /-- The rule that fills it; without one, the start of the grammar. -/
  rule : Option String
deriving DecidableEq, Inhabited, Repr

/-- **A grammar.** -/
structure Grammar where
  id : GrammarId
  start : String
  rules : List Rule
  /-- Rules that other grammars may use. -/
  exports : List String
  slots : List Slot
  /-- Levels, the loosest first. -/
  levels : List Level
  /-- Levels of operators inside this grammar only, by the operators' texts. -/
  localLevels : List (String × String)
  /-- Where a parse that went wrong can be taken up again. -/
  resync : List Terminal
deriving DecidableEq, Inhabited, Repr

namespace Grammar

/-- The rule of a name. -/
def rule? (g : Grammar) (name : String) : Option Rule := g.rules.find? (·.name == name)

/-- The slot of a name. -/
def slot? (g : Grammar) (name : String) : Option Slot := g.slots.find? (·.name == name)

/-- Add an element at the end unless it is there. -/
def addNew {α : Type} [DecidableEq α] (xs : List α) (x : α) : List α :=
  if x ∈ xs then xs else xs ++ [x]

/-- The grammars that fill the slots, each once, in the order of the slots. -/
def embedded (g : Grammar) : List GrammarId :=
  (g.slots.map (·.grammar)).foldl addNew []

/-- How many alternatives there are over all rules. -/
def productionCount (g : Grammar) : Nat :=
  g.rules.foldl (fun n r => n + r.alternatives.length) 0

end Grammar

/-! ## Lists without repetitions -/

theorem mem_foldl_addNew {α : Type} [DecidableEq α] {xs acc : List α} {x : α} :
    x ∈ xs.foldl Grammar.addNew acc ↔ x ∈ acc ∨ x ∈ xs := by
  induction xs generalizing acc with
  | nil => simp
  | cons a xs ih =>
    rw [List.foldl_cons, ih]
    unfold Grammar.addNew
    split
    · next ha =>
      simp only [List.mem_cons]
      constructor
      · rintro (h | h)
        · exact .inl h
        · exact .inr (.inr h)
      · rintro (h | rfl | h)
        · exact .inl h
        · exact .inl ha
        · exact .inr h
    · simp [or_assoc]

theorem nodup_foldl_addNew {α : Type} [DecidableEq α] {xs acc : List α} (h : acc.Nodup) :
    (xs.foldl Grammar.addNew acc).Nodup := by
  induction xs generalizing acc with
  | nil => exact h
  | cons a xs ih =>
    rw [List.foldl_cons]
    refine ih ?_
    unfold Grammar.addNew
    split
    · exact h
    · next ha =>
      have hone : [a].Nodup := List.nodup_cons.mpr ⟨List.not_mem_nil, List.nodup_nil⟩
      refine List.nodup_append.mpr ⟨h, hone, fun x hx y hy => ?_⟩
      obtain rfl := List.mem_singleton.mp hy
      rintro rfl
      exact ha hx

end LayeredSyntax
