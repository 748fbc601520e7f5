/-
  OPENING HIDDEN RULES — late, or at once.

  A hidden rule leaves no node.  What is SHOWN of nodes is what is left once every hidden one has
  been opened, as deep as they are nested (`Composite.shown`).  A node is OPENED by putting what is
  shown of its children in their place, unless it is shown itself (`Composite.opened`): this is what
  a hidden rule looks like where its own children were opened as soon as it was finished.

  1. **Opening at once and opening later come to the same** (`shown_shown`), and so does opening a
     node before it is shown (`showOnto_opened`).
  2. A node is VISIBLE when it is shown and so is everything in it (`Visible`), and SHALLOW when
     this holds of everything in it (`Shallow`): a shallow hidden rule has no hidden rule in it,
     however deep one looks.
  3. Whatever is shown of shallow nodes is visible (`visible_of_mem_shown`), and **one level of opening
     is enough for them** (`flatMap_spliced`): what is shown of them is what is directly in them.
-/
import LayeredSyntax.Proofs.Tree.Derivations

namespace LayeredSyntax

namespace Composite

variable {c : Composite} {n m : Node} {ns ms out : List Node}

/-! ## What is shown -/

/-- **What is shown of nodes**, in the order of the text. -/
def shown (c : Composite) (ns : List Node) : List Node := (c.showOnto [] ns).reverse

theorem showOnto_eq_shown (c : Composite) (out ns : List Node) :
    c.showOnto out ns = (c.shown ns).reverse ++ out := by
  unfold shown
  rw [List.reverse_reverse]
  exact showOnto_eq c out ns

theorem shown_nil (c : Composite) : c.shown [] = [] := by
  unfold shown
  rw [showOnto]
  rfl

theorem shown_append (c : Composite) (ns ms : List Node) :
    c.shown (ns ++ ms) = c.shown ns ++ c.shown ms := by
  unfold shown
  rw [showOnto_append, showOnto_eq, List.reverse_append]

/-- A hidden node shows what is in it. -/
theorem shown_of_hides (h : c.hides n = true) : c.shown [n] = c.shown n.children := by
  unfold shown
  rw [showOnto, if_pos h, List.append_nil]

/-- Any other node shows itself. -/
theorem shown_of_not_hides (h : c.hides n = false) : c.shown [n] = [n] := by
  unfold shown
  rw [showOnto, if_neg (by rw [h]; exact Bool.false_ne_true), showOnto]
  rfl

/-- Nothing that is shown is hidden. -/
theorem hides_of_mem_shown (h : m ∈ c.shown ns) : c.hides m = false := by
  suffices hall : ∀ out, (∀ m ∈ out, c.hides m = false) →
      ∀ m ∈ c.showOnto out ns, c.hides m = false from
    hall [] (fun _ hm => absurd hm List.not_mem_nil) m (List.mem_reverse.mp h)
  clear h
  intro out hout
  fun_induction Composite.showOnto c out ns with
  | case1 out => exact hout
  | case2 out n rest hhides ih => exact ih hout
  | case3 out n rest hshown ih =>
    refine ih fun m hm => ?_
    rcases List.mem_cons.mp hm with rfl | hm
    · exact Bool.eq_false_iff.mpr hshown
    · exact hout m hm

/-- Nodes of which none is hidden are shown as they are. -/
theorem shown_eq_self (h : ∀ n ∈ ns, c.hides n = false) : c.shown ns = ns := by
  induction ns with
  | nil => exact shown_nil c
  | cons n rest ih =>
    show c.shown ([n] ++ rest) = _
    rw [shown_append, shown_of_not_hides (h n List.mem_cons_self),
      ih fun m hm => h m (List.mem_cons_of_mem _ hm)]
    rfl

/-- **Showing twice shows nothing new.** -/
theorem shown_shown (c : Composite) (ns : List Node) : c.shown (c.shown ns) = c.shown ns :=
  shown_eq_self fun _ => hides_of_mem_shown

/-! ## Opening a node -/

/-- **A node whose hidden children are opened**, if it is hidden itself. -/
def opened (c : Composite) : Node → Node
  | .rule kind g a q before children =>
    if (c.nonterminal a).hidden then .rule kind g a q before (c.shown children)
    else .rule kind g a q before children
  | n => n

theorem opened_of_not_hides (h : c.hides n = false) : c.opened n = n := by
  cases n with
  | rule kind g a q before children =>
    exact if_neg (by rw [show (c.nonterminal a).hidden = false from h]; exact Bool.false_ne_true)
  | leaf | trivia | skipped | missing | error | root => rfl

theorem opened_rule {kind : String} {g : GrammarId} {a q before : Nat} {children : List Node}
    (h : (c.nonterminal a).hidden = true) : c.opened (.rule kind g a q before children) =
      .rule kind g a q before (c.shown children) := if_pos h

theorem hides_opened (c : Composite) (n : Node) : c.hides (c.opened n) = c.hides n := by
  cases n with
  | rule kind g a q before children =>
    unfold opened
    dsimp only
    split <;> rfl
  | leaf | trivia | skipped | missing | error | root => rfl

/-- What is in a hidden node once it was opened. -/
theorem children_opened (h : c.hides n = true) :
    (c.opened n).children = c.shown n.children := by
  cases n with
  | rule kind g a q before children => rw [opened_rule h, Node.children, Node.children]
  | leaf | trivia | skipped | missing | error | root => cases h

/-- The production of a node is not changed. -/
theorem production?_opened (c : Composite) (n : Node) :
    (c.opened n).production? = n.production? := by
  cases n with
  | rule kind g a q before children =>
    unfold opened
    dsimp only
    split <;> rfl
  | leaf | trivia | skipped | missing | error | root => rfl

/-- An opened node shows what it showed before. -/
theorem shown_opened (c : Composite) (n : Node) : c.shown [c.opened n] = c.shown [n] := by
  cases h : c.hides n with
  | false => rw [opened_of_not_hides h]
  | true =>
    rw [shown_of_hides ((hides_opened c n).trans h), shown_of_hides h, children_opened h,
      shown_shown]

/-- **Nodes are shown in the same way once they were opened.** -/
theorem showOnto_opened (c : Composite) (out : List Node) (n : Node) :
    c.showOnto out [c.opened n] = c.showOnto out [n] := by
  rw [showOnto_eq_shown, shown_opened, showOnto_eq_shown]

/-! ## Visible nodes -/

/-- **A node with no hidden rule in it, itself included**, as far down as it goes. -/
inductive Visible (c : Composite) : Node → Prop where
  | intro {n : Node} (h : c.hides n = false) (hchildren : ∀ m ∈ n.children, Visible c m) :
    Visible c n

/-- A node with no hidden rule in it, but for itself. -/
def Shallow (c : Composite) (n : Node) : Prop := ∀ m ∈ n.children, c.Visible m

theorem Visible.hides_eq (h : c.Visible n) : c.hides n = false := by
  cases h with
  | intro h _ => exact h

theorem Visible.shallow (h : c.Visible n) : c.Shallow n := by
  cases h with
  | intro _ hchildren => exact hchildren

theorem Visible.opened_eq (h : c.Visible n) : c.opened n = n := opened_of_not_hides h.hides_eq

/-- Nodes without children that no rule made. -/
theorem Visible.of_childless (h : c.hides n = false) (hchildren : n.children = []) :
    c.Visible n := by
  refine .intro h fun m hm => ?_
  rw [hchildren] at hm
  cases hm

/-- An error region is visible if everything in it is. -/
theorem Visible.error (h : ∀ n ∈ ns, c.Visible n) : c.Visible (.error ns) := .intro rfl h

/-- **Whatever is shown of shallow nodes is visible.** -/
theorem visible_of_mem_shown (h : c.Shallow n) (hm : m ∈ c.shown [n]) : c.Visible m := by
  cases hhides : c.hides n with
  | false =>
    rw [shown_of_not_hides hhides] at hm
    obtain rfl := List.mem_singleton.mp hm
    exact .intro hhides h
  | true =>
    rw [shown_of_hides hhides, shown_eq_self fun m hm => (h m hm).hides_eq] at hm
    exact h m hm

/-- **One level of opening**: a node, or what is directly in it where it is hidden. -/
def spliced (c : Composite) (n : Node) : List Node := if c.hides n then n.children else [n]

theorem spliced_eq_shown (h : c.Shallow n) : c.spliced n = c.shown [n] := by
  unfold spliced
  cases hhides : c.hides n with
  | false => exact (shown_of_not_hides hhides).symm
  | true => rw [if_pos rfl, shown_of_hides hhides, shown_eq_self fun m hm => (h m hm).hides_eq]

/-- **One level of opening is enough for shallow nodes.** -/
theorem flatMap_spliced (h : ∀ n ∈ ns, c.Shallow n) : ns.flatMap c.spliced = c.shown ns := by
  induction ns with
  | nil => exact (shown_nil c).symm
  | cons n rest ih =>
    rw [List.flatMap_cons, ih fun m hm => h m (List.mem_cons_of_mem _ hm),
      spliced_eq_shown (h n List.mem_cons_self), ← shown_append]
    rfl

/-- There is no hidden rule at any place of a visible node. -/
theorem Visible.hides_of_mem {p d : Place} (h : c.Visible p.node) (hd : d ∈ p.descendants) :
    c.hides d.node = false := by
  induction hd using Place.descendantInduction with
  | self => exact h.hides_eq
  | up hm _ ih =>
    obtain ⟨_, hchildren⟩ := h
    exact ih (hchildren _ (Place.node_mem_of_mem_children hm))

end Composite

end LayeredSyntax
