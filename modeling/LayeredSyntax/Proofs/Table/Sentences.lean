/-
  SENTENCES — the rows of terminals that a grammar generates.

  `Composite.Generates` says which terminals symbols can be replaced by, and `GeneratesBy` which
  ones with some of the productions only.  No production is empty, so every symbol leaves at least
  one terminal, and it is one that the symbol can begin with (`GeneratesBy.begins`).

  **What is generated behind a nonterminal begins with what can follow it** (`GeneratesBy.follows`):
  with the next symbol of the production where there is one, and else with what follows the
  production.
-/
import LayeredSyntax.Proofs.Table.LookaheadSets

namespace LayeredSyntax

namespace Composite

variable {c : Composite} {P : Production → Prop} {syms rest : List Sym} {xs ys back : List Nat}

/-- **The terminals that symbols can be replaced by**, with some of the productions. -/
inductive GeneratesBy (c : Composite) (P : Production → Prop) : List Sym → List Nat → Prop where
  | nil : GeneratesBy c P [] []
  | terminal {x : Nat} {syms : List Sym} {xs : List Nat} (hrest : GeneratesBy c P syms xs) :
      GeneratesBy c P (.t x :: syms) (x :: xs)
  | rule {q : Nat} {p : Production} {syms : List Sym} {inside xs : List Nat}
      (hq : c.productions[q]? = some p) (hp : P p) (hinside : GeneratesBy c P p.rhs inside)
      (hrest : GeneratesBy c P syms xs) : GeneratesBy c P (.n p.lhs :: syms) (inside ++ xs)

/-- The terminals that symbols can be replaced by. -/
def Generates (c : Composite) : List Sym → List Nat → Prop := c.GeneratesBy fun _ => True

/-- Terminals stand for themselves. -/
theorem GeneratesBy.terminals (c : Composite) (P : Production → Prop) (xs : List Nat) :
    c.GeneratesBy P (xs.map .t) xs := by
  induction xs with
  | nil => exact .nil
  | cons x xs ih => exact .terminal ih

/-- **Every symbol leaves a terminal that it can begin with.** -/
theorem GeneratesBy.begins (hc : c.WellFormed) (h : c.GeneratesBy P syms xs) :
    ∀ {s : Sym} {rest : List Sym}, syms = s :: rest → ∃ x ys, xs = x :: ys ∧ c.Begins s x := by
  induction h with
  | nil => exact fun h => absurd h.symm (List.cons_ne_nil _ _)
  | @terminal x _ xs _ _ =>
    intro s rest h
    obtain ⟨rfl, _⟩ := List.cons.inj h
    exact ⟨x, xs, rfl, .terminal x⟩
  | @rule q p _ inside xs hq _ _ _ ih _ =>
    intro s rest h
    obtain ⟨rfl, _⟩ := List.cons.inj h
    have hmem := Array.mem_of_getElem? hq
    obtain ⟨s, rest, hrhs⟩ := List.exists_cons_of_ne_nil (hc.productions p hmem).rhs_ne_nil
    obtain ⟨x, ys, rfl, hbegins⟩ := ih hrhs
    exact ⟨x, ys ++ xs, rfl, .rule (Array.mem_toList_iff.mpr hmem) hrhs hbegins⟩

/-- The terminal that comes next; behind the last one, the end of the text. -/
def nextOf (xs : List Nat) : Nat := xs.head?.getD endOfText

/-- **What comes behind a nonterminal can follow it.** -/
theorem GeneratesBy.follows (hc : c.WellFormed) {p : Production} {q a : Nat} {front : List Sym}
    (hq : c.productions[q]? = some p) (hrhs : p.rhs = front ++ .n a :: rest)
    (h : c.GeneratesBy P rest ys) (hlast : rest = [] → c.Follows p.lhs (nextOf back)) :
    c.Follows a (nextOf (ys ++ back)) := by
  have hp : p ∈ c.productions.toList := Array.mem_toList_iff.mpr (Array.mem_of_getElem? hq)
  cases rest with
  | nil =>
    cases h
    exact .last hp hrhs (hlast rfl)
  | cons s rest =>
    obtain ⟨x, ys, rfl, hbegins⟩ := h.begins hc rfl
    exact .next hp hrhs hbegins

end Composite

end LayeredSyntax
