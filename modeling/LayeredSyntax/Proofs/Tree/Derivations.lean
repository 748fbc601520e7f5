/-
  TREES AS DERIVATIONS — nodes that are made by the productions of a table.

  `Table.Derives` relates symbols to the nodes that stand for them and to the tokens below:

  1. A terminal stands for a leaf of one token that can be taken for it.
  2. A nonterminal that is shown stands for a node of one of its productions, whose children, trivia
     left aside, stand for the right side of the production.
  3. A hidden nonterminal leaves no node.  It stands for whatever the right side of one of its
     productions stands for.

  A subtree of a hidden rule stays whole for a while before it is opened.  What is left of nodes
  once they are opened and trivia are left aside is their BARE form, and **opening later or opening
  at once comes to the same** (`bare_append`, `bare_of_hides`).
-/
import LayeredSyntax.Parse.Assembly
import LayeredSyntax.Proofs.Tree.Reading

namespace LayeredSyntax

/-! ## Derivations -/

/-- **Symbols, the nodes that stand for them, and the tokens below these.** -/
inductive Table.Derives (t : Table) : List Sym → List Node → List Token → Prop where
  | nil : Derives t [] [] []
  | leaf {kind : String} {named : Bool} {g : Option GrammarId} {x size : Nat} {token : Token}
      {syms : List Sym} {ns : List Node} {tokens : List Token}
      (hx : x ∈ t.terminalsFor token.kind token.text) (hsize : size = token.size)
      (hrest : Derives t syms ns tokens) :
      Derives t (.t x :: syms) (.leaf kind named g x size :: ns) (token :: tokens)
  | rule {q before : Nat} {p : Production} {children ns : List Node} {inside tokens : List Token}
      {syms : List Sym} (hq : t.productions[q]? = some p)
      (hshown : (t.nonterminal p.lhs).hidden = false)
      (hchildren : Derives t p.rhs (children.filter (!·.isTrivia)) inside)
      (hrest : Derives t syms ns tokens) :
      Derives t (.n p.lhs :: syms) (.rule (t.nonterminal p.lhs).name (t.nonterminal p.lhs).grammar
        p.lhs q before children :: ns) (inside ++ tokens)
  | hidden {q : Nat} {p : Production} {ms ns : List Node} {inside tokens : List Token}
      {syms : List Sym} (hq : t.productions[q]? = some p)
      (hhidden : (t.nonterminal p.lhs).hidden = true) (hinside : Derives t p.rhs ms inside)
      (hrest : Derives t syms ns tokens) :
      Derives t (.n p.lhs :: syms) (ms ++ ns) (inside ++ tokens)

namespace Table

variable {t : Table} {syms more : List Sym} {ns ms : List Node} {tokens others : List Token}

/-- Derivations one behind the other. -/
theorem Derives.append (h : t.Derives syms ns tokens) (h' : t.Derives more ms others) :
    t.Derives (syms ++ more) (ns ++ ms) (tokens ++ others) := by
  induction h with
  | nil => exact h'
  | leaf hx hsize _ ih => exact .leaf hx hsize ih
  | rule hq hshown hchildren _ _ ih =>
    rw [List.append_assoc]
    exact .rule hq hshown hchildren ih
  | hidden hq hhidden hinside _ _ ih =>
    rw [List.append_assoc, List.append_assoc]
    exact .hidden hq hhidden hinside ih

end Table

/-! ## No errors -/

/-- **A node without errors**, as far down as it goes. -/
inductive Node.Clean : Node → Prop where
  | intro {n : Node} (h : n.isError = false) (hchildren : ∀ c ∈ n.children, Clean c) : Clean n

/-- A node is clean if what is left of its children without trivia is clean. -/
theorem Node.Clean.of_filter {n : Node} (h : n.isError = false)
    (hchildren : ∀ c ∈ n.children.filter (!·.isTrivia), c.Clean) : n.Clean := by
  refine .intro h fun c hc => ?_
  cases htrivia : c.isTrivia with
  | false => exact hchildren c (List.mem_filter.mpr ⟨hc, by rw [htrivia]; rfl⟩)
  | true =>
    cases c with
    | trivia => exact .intro rfl fun _ hm => absurd hm List.not_mem_nil
    | leaf | skipped | missing | rule | error | root => cases htrivia

/-- There is no error at any place of a clean node. -/
theorem Node.Clean.isError_of_mem {p d : Place} (h : p.node.Clean) (hd : d ∈ p.descendants) :
    d.node.isError = false := by
  induction hd using Place.descendantInduction with
  | self =>
    obtain ⟨h, _⟩ := h
    exact h
  | up hc _ ih =>
    obtain ⟨_, hchildren⟩ := h
    exact ih (hchildren _ (Place.node_mem_of_mem_children hc))

namespace Table

variable {t : Table} {syms : List Sym} {ns : List Node} {tokens : List Token}

/-- **Derivations have no errors.** -/
theorem Derives.clean (h : t.Derives syms ns tokens) : ∀ n ∈ ns, n.Clean := by
  induction h with
  | nil => exact fun n hn => absurd hn List.not_mem_nil
  | leaf _ _ _ ih =>
    intro n hn
    rcases List.mem_cons.mp hn with rfl | hn
    · exact .intro rfl fun _ hm => absurd hm List.not_mem_nil
    · exact ih n hn
  | rule _ _ _ _ ihchildren ih =>
    intro n hn
    rcases List.mem_cons.mp hn with rfl | hn
    · exact .of_filter rfl ihchildren
    · exact ih n hn
  | hidden _ _ _ _ ihinside ih =>
    intro n hn
    rcases List.mem_append.mp hn with hn | hn
    · exact ihinside n hn
    · exact ih n hn

end Table

/-! ## Bare nodes -/

namespace Composite

variable {c : Composite} {n : Node} {ns ms out : List Node}

/-- **What is left of nodes** once hidden ones are opened and trivia are left aside. -/
def bare (c : Composite) (ns : List Node) : List Node :=
  (c.showOnto [] ns).reverse.filter (!·.isTrivia)

theorem showOnto_append (c : Composite) (out ns ms : List Node) :
    c.showOnto out (ns ++ ms) = c.showOnto (c.showOnto out ns) ms := by
  fun_induction Composite.showOnto c out ns with
  | case1 out => rfl
  | case2 out n rest hhides ih =>
    rw [← ih, List.cons_append, showOnto, if_pos hhides, List.append_assoc]
  | case3 out n rest hshown ih =>
    rw [← ih, List.cons_append, showOnto, if_neg hshown]

/-- What was there stays behind what is shown. -/
theorem showOnto_eq (c : Composite) (out ns : List Node) :
    c.showOnto out ns = c.showOnto [] ns ++ out := by
  suffices h : ∀ front, c.showOnto (front ++ out) ns = c.showOnto front ns ++ out from h []
  intro front
  fun_induction Composite.showOnto c front ns with
  | case1 front => rw [showOnto]
  | case2 front n rest hhides ih => rw [showOnto, if_pos hhides, ih]
  | case3 front n rest hshown ih => rw [showOnto, if_neg hshown, ← ih, List.cons_append]

/-- What is shown behind others is what is left of it. -/
theorem filter_showOnto (c : Composite) (out ns : List Node) :
    (c.showOnto out ns).reverse.filter (!·.isTrivia) =
      out.reverse.filter (!·.isTrivia) ++ c.bare ns := by
  rw [showOnto_eq, List.reverse_append, List.filter_append]
  rfl

theorem bare_append (c : Composite) (ns ms : List Node) :
    c.bare (ns ++ ms) = c.bare ns ++ c.bare ms := by
  show (c.showOnto [] (ns ++ ms)).reverse.filter _ = _
  rw [showOnto_append, filter_showOnto]
  rfl

/-- **A hidden node leaves what is in it.** -/
theorem bare_of_hides (h : c.hides n = true) : c.bare [n] = c.bare n.children := by
  unfold bare
  rw [showOnto, if_pos h, List.append_nil]

theorem bare_of_shown (h : c.hides n = false) : c.bare [n] = [n].filter (!·.isTrivia) := by
  unfold bare
  rw [showOnto, if_neg (by rw [h]; exact Bool.false_ne_true), showOnto]
  rfl

/-- A hidden rule leaves what is left of its children. -/
theorem bare_rule_of_hidden {kind : String} {g : GrammarId} {a q before : Nat}
    {children : List Node} (h : (c.nonterminal a).hidden = true) :
    c.bare [.rule kind g a q before children] = c.bare children := bare_of_hides h

/-- Any other rule leaves itself. -/
theorem bare_rule_of_shown {kind : String} {g : GrammarId} {a q before : Nat}
    {children : List Node} (h : (c.nonterminal a).hidden = false) :
    c.bare [.rule kind g a q before children] = [.rule kind g a q before children] :=
  bare_of_shown h

/-- Nothing is left of trivia. -/
theorem bare_trivia (c : Composite) (tokens : List Token) :
    c.bare (tokens.map fun x => .trivia x.kind x.size) = [] := by
  induction tokens with
  | nil =>
    unfold bare
    rw [List.map_nil, showOnto]
    rfl
  | cons x tokens ih =>
    have hone := bare_append c [.trivia x.kind x.size] (tokens.map fun x => .trivia x.kind x.size)
    rw [bare_of_shown rfl, ih] at hone
    exact hone

end Composite

end LayeredSyntax
