/-
  MERGING LEVELS — one row of precedence levels for several grammars.

  The levels of the grammars are put into one row, in the order in which they are first declared.
  Grammars may share levels by name, as long as they agree: a level groups in one way, two levels
  stand in one order, and an operator is on one level.  So **comparing two operators in the merged
  row gives what each grammar says that declares both**.

  A grammar may also put an operator on another level for its own productions; such LOCAL levels are
  kept apart.
-/
import LayeredSyntax.Composition.Fault

namespace LayeredSyntax

namespace LevelTable

/-- Put an operator on a level of the row, unless it is on another one. -/
def place (level : String) (index : Nat) (t : LevelTable) (operator : String) :
    Except CompositionFault LevelTable :=
  match t.operatorLevel? operator with
  | some existing =>
    if existing = index then .ok (t.assign operator index)
    else
      let first := (t.levels[existing]?.map (·.1)).getD ""
      .error (.conflictingPrecedence (.operator operator first level))
  | none => .ok (t.assign operator index)

/-- The place of a level in the row, behind the level at `previous`.  A new level is put at the
    end; one that is there must group in the same way and not stand in front. -/
def join (t : LevelTable) (previous : Option Nat) (level : Level) :
    Except CompositionFault (LevelTable × Nat) :=
  match t.indexOf? level.name with
  | none => .ok (t.push level.name level.assoc, t.levels.length)
  | some index =>
    match t.levels[index]? with
    | none => .ok (t, index)
    | some (_, assoc) =>
      if assoc ≠ level.assoc then
        .error (.conflictingPrecedence (.associativity level.name assoc level.assoc))
      else
        match previous with
        | some before =>
          if index < before then
            let name := (t.levels[before]?.map (·.1)).getD ""
            .error (.conflictingPrecedence (.order level.name name))
          else .ok (t, index)
        | none => .ok (t, index)

/-- Merge the levels of one grammar into the row, behind the level at `previous`. -/
def mergeFrom (t : LevelTable) (previous : Option Nat) :
    List Level → Except CompositionFault LevelTable
  | [] => .ok t
  | level :: rest => do
    let (t, index) ← t.join previous level
    let t ← level.operators.foldlM (place level.name index) t
    t.mergeFrom (some index) rest

end LevelTable

/-- The levels of a composition. -/
structure MergedLevels where
  /-- The common row. -/
  table : LevelTable
  /-- Operators with the places of their levels inside single grammars, the last one first. -/
  locals : List (GrammarId × List (String × Nat))
deriving DecidableEq, Inhabited, Repr

namespace MergedLevels

/-- No levels. -/
def empty : MergedLevels := ⟨.empty, []⟩

/-- The level that a grammar puts an operator on by itself. -/
def localLevel? (m : MergedLevels) (g : GrammarId) (operator : String) : Option Nat :=
  (m.locals.lookup g).bind fun levels => levels.lookup operator.toLower

/-- **The precedence of an operator inside a grammar**: its own level first, then the common one. -/
def ofOperator? (m : MergedLevels) (g : GrammarId) (operator : String) : Option Precedence :=
  match m.localLevel? g operator with
  | some index => m.table.ofLevel? index
  | none => m.table.ofOperator? operator

end MergedLevels

/-- The local levels of a grammar. -/
def localLevels (t : LevelTable) (g : Grammar) :
    Except CompositionFault (GrammarId × List (String × Nat)) := do
  let levels ← g.localLevels.mapM fun p =>
    match t.indexOf? p.2 with
    | some index => .ok (p.1.toLower, index)
    | none => .error (.undefinedLevel g.id p.2)
  return (g.id, levels.reverse)

/-- **Merge the levels of some grammars.** -/
def mergeLevels (grammars : List Grammar) : Except CompositionFault MergedLevels := do
  let table ← grammars.foldlM (fun t g => t.mergeFrom none g.levels) LevelTable.empty
  return ⟨table, ← grammars.mapM (localLevels table)⟩

end LayeredSyntax
