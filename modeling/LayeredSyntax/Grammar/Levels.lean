/-
  PRECEDENCE LEVELS — which of two operators binds tighter.

  Operators are put on levels, and the levels stand in a row from the loosest to the tightest.  The
  place of a level in the row is its RANK.  Where a parse could either finish a production or read
  on with an operator, the ranks decide; between equal ranks the associativity of the production's
  level does (`resolve`).
-/
import LayeredSyntax.Text.Classes

namespace LayeredSyntax

/-- How operators of one level group. -/
inductive Assoc where
  | left | right | nonAssoc
deriving DecidableEq, Inhabited, Repr

/-- The name of an associativity. -/
def Assoc.name : Assoc → String
  | .left => "Left"
  | .right => "Right"
  | .nonAssoc => "NonAssoc"

/-- A level as a grammar declares it.  A level without operators is there to be named. -/
structure Level where
  name : String
  assoc : Assoc
  operators : List String
deriving DecidableEq, Inhabited, Repr

/-- What is known of a production or an operator when two of them are compared. -/
structure Precedence where
  /-- The place of the level; the higher one binds tighter. -/
  rank : Nat
  assoc : Assoc
deriving DecidableEq, Inhabited, Repr

/-- The outcome of a comparison. -/
inductive Resolution where
  /-- Read on. -/
  | shift
  /-- Finish the production. -/
  | reduce
  /-- Neither is allowed: equal operators that do not group. -/
  | neither
deriving DecidableEq, Inhabited, Repr

/-- **Compare a production that could be finished with the operator ahead.** -/
def resolve (production ahead : Precedence) : Resolution :=
  if ahead.rank < production.rank then .reduce
  else if production.rank < ahead.rank then .shift
  else
    match production.assoc with
    | .left => .reduce
    | .right => .shift
    | .nonAssoc => .neither

/-! ## Rows of levels -/

/-- Levels in a row, and the operators on them. -/
structure LevelTable where
  /-- The levels, the loosest first. -/
  levels : List (String × Assoc)
  /-- Operators in lower case with the places of their levels, the last one assigned first. -/
  operators : List (String × Nat)
deriving DecidableEq, Inhabited, Repr

namespace LevelTable

/-- No levels. -/
def empty : LevelTable := ⟨[], []⟩

/-- The place of a level. -/
def indexOf? (t : LevelTable) (name : String) : Option Nat :=
  t.levels.findIdx? (·.1 == name)

/-- Put a level behind the others, unless there is one of its name. -/
def push (t : LevelTable) (name : String) (assoc : Assoc) : LevelTable :=
  if (t.indexOf? name).isSome then t else { t with levels := t.levels ++ [(name, assoc)] }

/-- Put an operator on a level. -/
def assign (t : LevelTable) (operator : String) (index : Nat) : LevelTable :=
  { t with operators := (operator.toLower, index) :: t.operators }

/-- The place of an operator's level. -/
def operatorLevel? (t : LevelTable) (operator : String) : Option Nat :=
  t.operators.lookup operator.toLower

/-- Ranks are counted up to this number and then begin again. -/
def rankLimit : Nat := 65536

/-- The precedence of the level at a place. -/
def ofLevel? (t : LevelTable) (index : Nat) : Option Precedence :=
  t.levels[index]?.map fun l => ⟨index % rankLimit, l.2⟩

/-- The precedence of an operator. -/
def ofOperator? (t : LevelTable) (operator : String) : Option Precedence :=
  (t.operatorLevel? operator).bind t.ofLevel?

/-- An operator with its level put into its place; an earlier level of it is given up. -/
def insertOperator (p : String × Nat) : List (String × Nat) → List (String × Nat)
  | [] => [p]
  | q :: rest =>
    if p.1 < q.1 then p :: q :: rest
    else if p.1 = q.1 then p :: rest
    else q :: insertOperator p rest

/-- The operators with their levels, by their texts. -/
def operatorsByText (t : LevelTable) : List (String × Nat) :=
  t.operators.foldr insertOperator []

end LevelTable

/-! ## Running the program -/

example : resolve ⟨1, .left⟩ ⟨1, .right⟩ = .reduce ∧ resolve ⟨1, .left⟩ ⟨2, .left⟩ = .shift := by
  decide
example : ((LevelTable.empty.push "a" .left).push "a" .right).levels = [("a", .left)] := by
  decide +kernel

end LayeredSyntax
