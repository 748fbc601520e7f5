/-
  THE RAW LAYER — regions of other languages, up to the closer of their fence.

  Nothing is known about the language inside but that its brackets balance and that brackets inside
  quoted stretches do not count.  So **a raw region ends at the first closer outside quotes and
  inner brackets**; the text before it is one token, the closer another.
-/
import LayeredSyntax.Lexicon.Lexeme

namespace LayeredSyntax

/-- Whether a character quotes inside a fence: an apostrophe does so only between parentheses. -/
def FenceKind.quotes (kind : FenceKind) (c : Char) : Bool :=
  c == '"' || (c == '\'' && kind == .paren)

/-- Characters in front of the closer of a fence, or nothing when the text ends first.  `quote` is
    the mark of an open quoted stretch, `depth` counts open inner brackets. -/
def rawLength (kind : FenceKind) (quote : Option Char) (depth n : Nat) : List Char → Option Nat
  | [] => none
  | c :: cs =>
    match quote with
    | some mark => rawLength kind (if c = mark then none else some mark) depth (n + 1) cs
    | none =>
      if kind.quotes c then rawLength kind (some c) depth (n + 1) cs
      else if c = kind.closer then
        match depth with
        | 0 => some n
        | depth + 1 => rawLength kind none depth (n + 1) cs
      else if c = kind.opener then rawLength kind none (depth + 1) (n + 1) cs
      else rawLength kind none depth (n + 1) cs

namespace Mode

/-- The mode behind the closer of a fence. -/
def closeFence (m : Mode) (fence : Fence) : Mode :=
  let m := { m with fence := none, layer := fence.resume }
  if fence.resume = .udl then m.endMember else m.afterOperand

/-- The mode inside a fence that the current layer opens. -/
def openFence (m : Mode) (kind : FenceKind) : Mode :=
  { m with fence := some ⟨kind, m.layer⟩, layer := .raw }

end Mode

/-- A step in the raw layer.  Without a fence the region reaches to the end of the text. -/
def readRaw (m : Mode) (cs : List Char) : Reading :=
  match m.fence with
  | none => ⟨.rawText, cs.length, m⟩
  | some fence =>
    if cs.head? = some fence.kind.closer then ⟨.punctuation, 1, m.closeFence fence⟩
    else
      match rawLength fence.kind none 0 0 cs with
      | some n => ⟨.rawText, n, m⟩
      | none => ⟨.error, cs.length, m⟩

/-! ## Running the program -/

example : rawLength .paren none 0 0 ['(', '\'', ')', '\'', ')', ')', 'x'] = some 5 := by decide
example : rawLength .brace none 0 0 ['\'', '}'] = some 1 := by decide

end LayeredSyntax
