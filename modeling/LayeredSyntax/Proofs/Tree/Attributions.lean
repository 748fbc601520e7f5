/-
  ATTRIBUTIONS — for which grammar the leaves of a derivation were read.

  A tree of several grammars says at every node which of them it belongs to.  A node of a production
  takes this from the production.  A leaf is made before it is known which production it will be a
  part of, so what it says is one thing and **the grammar that it was read for**, that of the
  production in which its terminal stands, is another.

  `Table.Attributes` walks over a derivation, hidden rules included, and relates the two at every
  leaf.  The leaf is given by its position, so that the relation can speak of where it was read.
-/
import LayeredSyntax.Proofs.Tree.Derivations

namespace LayeredSyntax

/-- A relation of the leaves of a text to the grammars that they were read for: the grammar of the
    production, the position, the terminal, and the grammar that the leaf carries. -/
abbrev LeafRelation := GrammarId → Nat → Nat → Option GrammarId → Prop

namespace Table

/-- **Symbols of a production of a grammar and the nodes that stand for them** from one position to
    another, each leaf related to the grammar that it was read for. -/
inductive Attributes (t : Table) (R : LeafRelation) :
    GrammarId → Nat → Nat → List Sym → List Node → Prop where
  | nil (g : GrammarId) (p : Nat) : Attributes t R g p p [] []
  | leaf {g : GrammarId} {p high : Nat} {kind : String} {named : Bool} {carried : Option GrammarId}
      {x size : Nat} {syms : List Sym} {ns : List Node} (hleaf : R g p x carried)
      (hrest : Attributes t R g (p + 1) high syms ns) :
      Attributes t R g p high (.t x :: syms) (.leaf kind named carried x size :: ns)
  | rule {g : GrammarId} {low mid high q before : Nat} {p : Production} {children ns : List Node}
      {syms : List Sym} (hq : t.productions[q]? = some p)
      (hshown : (t.nonterminal p.lhs).hidden = false)
      (hchildren : Attributes t R p.grammar low mid p.rhs (children.filter (!·.isTrivia)))
      (hrest : Attributes t R g mid high syms ns) :
      Attributes t R g low high (.n p.lhs :: syms) (.rule (t.nonterminal p.lhs).name
        (t.nonterminal p.lhs).grammar p.lhs q before children :: ns)
  | hidden {g : GrammarId} {low mid high q : Nat} {p : Production} {ms ns : List Node}
      {syms : List Sym} (hq : t.productions[q]? = some p)
      (hhidden : (t.nonterminal p.lhs).hidden = true)
      (hinside : Attributes t R p.grammar low mid p.rhs ms)
      (hrest : Attributes t R g mid high syms ns) :
      Attributes t R g low high (.n p.lhs :: syms) (ms ++ ns)

section

variable {t : Table} {R R' : LeafRelation} {g : GrammarId} {low mid high : Nat}
  {syms more : List Sym} {ns ms : List Node}

theorem Attributes.append (h : t.Attributes R g low mid syms ns)
    (h' : t.Attributes R g mid high more ms) :
    t.Attributes R g low high (syms ++ more) (ns ++ ms) := by
  induction h with
  | nil => exact h'
  | leaf hleaf _ ih => exact .leaf hleaf (ih h')
  | rule hq hshown hchildren _ _ ih => exact .rule hq hshown hchildren (ih h')
  | hidden hq hhidden hinside _ _ ih =>
    rw [List.append_assoc]
    exact .hidden hq hhidden hinside (ih h')

theorem Attributes.mono (hR : ∀ {g p x carried}, R g p x carried → R' g p x carried)
    (h : t.Attributes R g low high syms ns) : t.Attributes R' g low high syms ns := by
  induction h with
  | nil g p => exact .nil g p
  | leaf hleaf _ ih => exact .leaf (hR hleaf) ih
  | rule hq hshown _ _ ihchildren ih => exact .rule hq hshown ihchildren ih
  | hidden hq hhidden _ _ ihinside ih => exact .hidden hq hhidden ihinside ih

/-- What stands for a nonterminal does so in productions of all grammars. -/
theorem Attributes.of_nonterminal {a : Nat} (h : t.Attributes R g low high [.n a] ns)
    (g' : GrammarId) : t.Attributes R g' low high [.n a] ns := by
  cases h with
  | rule hq hshown hchildren hrest =>
    cases hrest
    exact .rule hq hshown hchildren (.nil g' _)
  | hidden hq hhidden hinside hrest =>
    cases hrest
    exact .hidden hq hhidden hinside (.nil g' _)

end

end Table

end LayeredSyntax
