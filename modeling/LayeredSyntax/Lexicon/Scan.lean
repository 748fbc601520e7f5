/-
  SCANNING — one token from any place of a text, in any mode.

  `scan?` never fails on a text that has characters left: what no layer can read becomes an error
  token.  **Every step takes at least one character**, since a step that would take none is turned
  into an error token of one character, so reading a text always comes to its end.
-/
import LayeredSyntax.Lexicon.ClassLayer

namespace LayeredSyntax

namespace Reading

/-- Every step takes something: an empty reading becomes an error of one character. -/
def atLeastOne (r : Reading) : Reading :=
  if r.length = 0 then { r with kind := .error, length := 1 } else r

/-- A block may follow a command word only across trivia. -/
def settleBlock (r : Reading) : Reading :=
  if r.kind.isTrivia || r.kind = .command then r
  else { r with next := { r.next with blockCommand := false } }

end Reading

section

variable [Limits]

/-- The step that the layer of the mode makes; `c` is the first character ahead. -/
def readLayer (m : Mode) (c : Char) (cs : List Char) : Reading :=
  match m.layer with
  | .raw => readRaw m cs
  | .udl => readClass m c cs
  | .core | .expr => readCode m c cs

/-- **Read one token**, or nothing at the end of the text. -/
def scan? (m : Mode) (cs : List Char) : Option Reading :=
  match cs with
  | [] => none
  | c :: _ => some (readLayer m c cs).atLeastOne.settleBlock

/-- Every reading takes at least one character. -/
theorem scan?_length_pos {m : Mode} {cs : List Char} {r : Reading} (h : scan? m cs = some r) :
    0 < r.length := by
  cases cs with
  | nil => simp [scan?] at h
  | cons c cs =>
    simp only [scan?, Option.some.injEq] at h
    subst h
    have hpos : ∀ r : Reading, 0 < r.atLeastOne.length := by
      intro r
      unfold Reading.atLeastOne
      split
      · exact Nat.one_pos
      · next h => exact Nat.pos_of_ne_zero h
    have hkeep : ∀ r : Reading, r.settleBlock.length = r.length := by
      intro r; unfold Reading.settleBlock; split <;> rfl
    rw [hkeep]; exact hpos _

/-- Reading the text from a byte offset on; nothing at its end or inside a character. -/
def scanAt? (text : String) (offset : Nat) (m : Mode) : Option Reading := do
  let (_, ahead) ← splitAtByte? offset text.toList
  scan? m ahead

end

/-! ## Running the program -/

example : (scan? .core ['x', ' ']).map (·.kind) = some .label := by cbv
example : (scan? .expr ['1', '+']).map (·.length) = some 1 := by cbv
example : scan? .udl [] = none := rfl

end LayeredSyntax
