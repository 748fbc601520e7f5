/-
  PHRASES — the comfortable way to write alternatives, and how it is turned into plain ones.

  A phrase is a sequence with optional parts, choices and repetitions.  Tables are built from plain
  sequences of symbols, so phrases are EXPANDED:

  1. An optional part and a choice multiply the sequences that they occur in.
  2. A repetition becomes a reference to a HELPER, a hidden rule that is made for it:
     `helper: element | helper separator element`.

  **A finished rule stands for the same texts as its phrases**: each sequence of an expansion is one
  way through the phrase, in the order in which the choices are written.  No expansion of a phrase
  that needs a token is empty, so finished grammars get by without empty productions.
-/
import LayeredSyntax.Grammar.Basic

namespace LayeredSyntax

/-- A part of a rule before it is expanded. -/
inductive Phrase where
  /-- Nothing. -/
  | empty
  /-- One symbol. -/
  | symbol (s : Symbol)
  /-- One phrase behind the other. -/
  | seq (first second : Phrase)
  /-- A phrase that can be left out. -/
  | opt (body : Phrase)
  /-- No phrase at all: a choice of nothing. -/
  | never
  /-- One of two phrases. -/
  | either (first second : Phrase)
  /-- A phrase once or more often. -/
  | many (body : Phrase)
  /-- A phrase once or more often, with another one in between. -/
  | list (body separator : Phrase)
deriving DecidableEq, Inhabited, Repr

namespace Phrase

/-! ## Writing phrases -/

/-- Phrases one behind the other. -/
def all (ps : List Phrase) : Phrase := ps.foldr .seq .empty

/-- One of several sequences. -/
def oneOf (pss : List (List Phrase)) : Phrase := (pss.map all).foldr .either .never

/-- A rule of the same grammar. -/
def ref (name : String) : Phrase := .symbol (.rule name)

/-- A token. -/
def term (t : Terminal) : Phrase := .symbol (.terminal t)

/-- Any token of a kind. -/
def kind (k : TokenKind) : Phrase := term (.kind k)

/-- A symbol by its text. -/
def sym (text : String) : Phrase := term (.sym text)

/-- An opening brace. -/
def leftBrace : Phrase := sym "\x7b"

/-- A closing brace. -/
def rightBrace : Phrase := sym "\x7d"

/-- A keyword, in lower case. -/
def word (text : String) : Phrase := term (.keyword text)

/-- A command by its canonical name. -/
def cmd (name : String) : Phrase := term (.command name)

/-- A directive with its number sign. -/
def hash (text : String) : Phrase := term (.directive text)

/-- A slot. -/
def embed (name : String) : Phrase := .symbol (.slot name)

/-- A sequence that can be left out. -/
def maybe (ps : List Phrase) : Phrase := .opt (all ps)

/-- A sequence once or more often. -/
def many1 (ps : List Phrase) : Phrase := .many (all ps)

/-- A sequence once or more often, separated by a phrase. -/
def list1 (ps : List Phrase) (separator : Phrase) : Phrase := .list (all ps) separator

/-! ## Expanding phrases -/

/-- The helpers that have been made for one grammar. -/
structure Helpers where
  /-- How many there are. -/
  count : Nat
  /-- The finished rules, the last one first. -/
  rules : List Rule
deriving Inhabited, Repr

/-- Every sequence of the first list followed by every one of the second list. -/
def product (xs ys : List (List Symbol)) : List (List Symbol) :=
  xs.flatMap fun x => ys.map (x ++ ·)

/-- The name of the `k`-th helper, made for a rule. -/
def helperName (owner : String) (k : Nat) : String :=
  let stem := String.ofList (owner.toList.dropWhile (· == '_'))
  s!"_{stem}_repeat{k}"

/-- The rule of a helper: an element, or the helper with a separator and an element behind it. -/
def helperRule (name : String) (elements separators : List (List Symbol)) : Rule :=
  let further := product (separators.map (Symbol.rule name :: ·)) elements
  ⟨name, (elements ++ further).map Alternative.plain⟩

/-- **The sequences of a phrase**, inside a rule named `owner`; helpers are added as they are
    needed. -/
def expand (owner : String) : Phrase → Helpers → List (List Symbol) × Helpers
  | .empty, h => ([[]], h)
  | .symbol s, h => ([[s]], h)
  | .seq a b, h =>
    let (xs, h) := expand owner a h
    let (ys, h) := expand owner b h
    (product xs ys, h)
  | .opt a, h =>
    let (xs, h) := expand owner a h
    ([] :: xs, h)
  | .never, h => ([], h)
  | .either a b, h =>
    let (xs, h) := expand owner a h
    let (ys, h) := expand owner b h
    (xs ++ ys, h)
  | .many a, h =>
    let name := helperName owner (h.count + 1)
    let (elements, h) := expand name a { h with count := h.count + 1 }
    ([[.rule name]], { h with rules := helperRule name elements [[]] :: h.rules })
  | .list a b, h =>
    let name := helperName owner (h.count + 1)
    let (elements, h) := expand name a { h with count := h.count + 1 }
    let (separators, h) := expand name b h
    ([[.rule name]], { h with rules := helperRule name elements separators :: h.rules })

end Phrase

/-! ## Drafts of grammars -/

/-- An alternative before it is expanded. -/
structure Shape where
  phrase : Phrase
  level : Option String
  binary : Bool
  directive : Option ConflictDirective
deriving DecidableEq, Inhabited, Repr

namespace Shape

/-- A sequence without anything special. -/
def plain (ps : List Phrase) : Shape := ⟨Phrase.all ps, none, false, none⟩

/-- A sequence on a level. -/
def onLevel (level : String) (ps : List Phrase) : Shape := ⟨Phrase.all ps, some level, false, none⟩

/-- Two operands joined by an operator. -/
def joined (ps : List Phrase) : Shape := ⟨Phrase.all ps, none, true, none⟩

/-- The finished alternatives of a shape. -/
def finish (s : Shape) (sequences : List (List Symbol)) : List Alternative :=
  sequences.map fun symbols => ⟨symbols, s.level, s.binary, s.directive⟩

end Shape

/-- A rule before it is expanded. -/
structure RuleDraft where
  name : String
  shapes : List Shape
deriving DecidableEq, Inhabited, Repr

/-- A rule of plain sequences. -/
def RuleDraft.plain (name : String) (shapes : List (List Phrase)) : RuleDraft :=
  ⟨name, shapes.map Shape.plain⟩

/-- A rule that stands for one of several phrases. -/
def RuleDraft.choice (name : String) (ps : List Phrase) : RuleDraft :=
  .plain name (ps.map fun p => [p])

namespace RuleDraft

/-- The alternatives of some shapes, behind those already there; each is kept once. -/
def finishShapes (owner : String) (done : List Alternative) :
    List Shape → Phrase.Helpers → List Alternative × Phrase.Helpers
  | [], h => (done, h)
  | s :: rest, h =>
    let (sequences, h) := s.phrase.expand owner h
    finishShapes owner ((s.finish sequences).foldl Grammar.addNew done) rest h

/-- Finish a rule: its helpers come before it. -/
def finish (h : Phrase.Helpers) (r : RuleDraft) : Phrase.Helpers :=
  let (alternatives, h) := finishShapes r.name [] r.shapes h
  { h with rules := ⟨r.name, alternatives⟩ :: h.rules }

/-- The finished rules of some drafts. -/
def finishAll (rs : List RuleDraft) : List Rule := (rs.foldl finish ⟨0, []⟩).rules.reverse

end RuleDraft

/-- A grammar before its rules are expanded. -/
structure GrammarDraft where
  id : GrammarId
  /-- Where a text begins; the empty name when nothing is said. -/
  start : String
  exports : List String
  slots : List Slot
  levels : List Level
  localLevels : List (String × String)
  resync : List Terminal
  rules : List RuleDraft
deriving DecidableEq, Inhabited, Repr

/-- **Finish a grammar.**  A name that is given twice is kept twice; composing will refuse it. -/
def GrammarDraft.finish (d : GrammarDraft) : Grammar :=
  { id := d.id, start := d.start, rules := RuleDraft.finishAll d.rules, exports := d.exports
    slots := d.slots, levels := d.levels, localLevels := d.localLevels, resync := d.resync }

/-! ## Running the program -/

section Examples

open Phrase

example :
    (RuleDraft.finishAll [.plain "_a" [[maybe [sym "x"], list1 [ref "b"] (sym ",")]]]).map (·.name) =
      ["_a_repeat1", "_a"] := by decide +kernel

example :
    (Phrase.expand "a" (all [oneOf [[sym "x"], [sym "y"]], maybe [sym "z"]]) ⟨0, []⟩).1.length = 4 := by
  decide +kernel

end Examples

end LayeredSyntax
