/-
  ATTRIBUTING LEAVES — which grammar a leaf carries, and for which it was read.

  A leaf carries the grammar of the first item of the state that it was made for.  It was read for
  the grammar of some item of the state above it, and the two can differ for two reasons:

  1. The state holds items of several grammars, and the first one is not the one that goes on.
  2. The token is read in several ways, and the leaf was made for another state: a token that is
     taken for one terminal gives one leaf.

  **Where neither is the case the leaf carries the grammar that it was read for**
  (`LeafRead.own`): the position is not marked, and the states that the terminal leads to
  hold items of one grammar each.  Everywhere else it carries a grammar that uses its terminal.

  An edge does not know which item goes on, so it is attributed for all items of the state above it
  (`ParseJob.AttributesBetween`).  On a way down one item is in hand, as with derivations.
-/
import LayeredSyntax.Proofs.Parse.Deriving
import LayeredSyntax.Proofs.Parse.Tracing
import LayeredSyntax.Proofs.Tree.Attributions

namespace LayeredSyntax

/-- Whether a grammar has a production with a terminal in it. -/
def Composite.Uses (c : Composite) (g : GrammarId) (x : Nat) : Prop :=
  ∃ p ∈ c.productions, p.grammar = g ∧ .t x ∈ p.rhs

/-- **Whether the states that a terminal leads to are of one grammar each.** -/
def Table.Unmixed (t : Table) (x : Nat) : Prop :=
  ∀ state target kernel, t.Leads state (.t x) target → t.kernel? target = some kernel →
    ∀ i ∈ kernel, ∀ i' ∈ kernel,
      (t.production i.production).grammar = (t.production i'.production).grammar

/-- A state that a terminal leads to has items of productions with the terminal. -/
theorem Table.Leads.uses {t : Table} {below above x : Nat} {kernel : List Item} {i : Item}
    (h : t.Leads below (.t x) above) (hkernel : t.kernel? above = some kernel) (hi : i ∈ kernel) :
    t.Uses (t.production i.production).grammar x := by
  obtain ⟨_, moved, _, habove, hmove⟩ := h
  obtain rfl : kernel = moved := Option.some.inj (hkernel.symm.trans habove)
  obtain ⟨i', _, hnext, rfl⟩ := (hmove.mem_iff i).mp hi
  obtain ⟨p, hp, hx⟩ := Composite.nextSymbol?_eq_some.mp hnext
  refine ⟨p, Array.mem_of_getElem? hp, ?_, List.mem_of_getElem? hx⟩
  show p.grammar = (t.production i'.production).grammar
  rw [Composite.production_eq hp]

/-! ## Leaves -/

/-- **What a leaf carries, and for which grammar it was read.** -/
structure LeafRead (t : Table) (tokens : TokenStream) (marks : Array Bool) (g : GrammarId)
    (p x : Nat) (carried : Option GrammarId) : Prop where
  /-- The token at the position can be taken for the terminal. -/
  token : ∃ token, tokens.get? p = some token ∧ x ∈ t.terminalsFor token.kind token.text
  uses : t.Uses g x
  carries : ∃ g', carried = some g' ∧ t.Uses g' x
  own : ¬ Marked marks p → t.Unmixed x → carried = some g

section

variable {t : Table} {tokens : TokenStream} {marks marks' : Array Bool} {g : GrammarId} {p x : Nat}
  {carried : Option GrammarId}

/-- A terminal of one grammar is attributed to it wherever it stands. -/
theorem LeafRead.own_of_sole (h : LeafRead t tokens marks g p x carried)
    (hsole : ∀ g₁ g₂, t.Uses g₁ x → t.Uses g₂ x → g₁ = g₂) : carried = some g := by
  obtain ⟨g', hcarried, huses⟩ := h.carries
  rw [hcarried, hsole g' g huses h.uses]

theorem LeafRead.grow (h : LeafRead t tokens marks g p x carried) (hgrows : Grows marks marks') :
    LeafRead t tokens marks' g p x carried :=
  ⟨h.token, h.uses, h.carries, fun hno => h.own fun hmarked => hno (hgrows.marked p hmarked)⟩

end

namespace ParseJob

variable {j : ParseJob} {marks marks' : Array Bool} {regions : Regions} {p x : Nat}
  {pieces : List Label}

/-- **A leaf carries the grammar of the first item** of the state that it is made for. -/
theorem leaf_of_kernel {target : Nat} {i : Item} {rest : List Item}
    (h : j.table.kernel? target = some (i :: rest)) : ∃ kind named size, j.leaf p x target =
      .leaf kind named (some (j.table.production i.production).grammar) x size := by
  obtain ⟨s, hs, hkernel⟩ := Option.map_eq_some_iff.mp h
  have hgrammar : (do
      let s ← j.table.states[target]?
      let item ← s.kernel.head?
      return (j.table.production item.production).grammar) =
        some (j.table.production i.production).grammar := by
    rw [hs, Option.bind_eq_bind, Option.bind_some, hkernel]
    rfl
  unfold leaf
  dsimp only
  rw [hgrammar]
  split
  · exact ⟨_, _, _, rfl⟩
  · exact ⟨_, _, _, rfl⟩

/-! ## Subtrees between two nodes -/

/-- **A subtree that is attributed for every item of the state above it.** -/
structure AttributesBetween (j : ParseJob) (marks : Array Bool) (above below : Face)
    (label : Label) : Prop where
  between : j.DerivesBetween above below label
  attributes : ∃ s kernel, j.table.Leads below.state s above.state ∧
    j.table.kernel? above.state = some kernel ∧ ∀ i ∈ kernel,
      j.table.Attributes (LeafRead j.table j.tokens marks) (j.table.production i.production).grammar
        label.first label.stop [s] (j.table.bare [label.node])

theorem AttributesBetween.grow {above below : Face} {label : Label}
    (h : j.AttributesBetween marks above below label) (hgrows : Grows marks marks') :
    j.AttributesBetween marks' above below label := by
  obtain ⟨s, kernel, hleads, hkernel, hall⟩ := h.attributes
  exact ⟨h.between, s, kernel, hleads, hkernel, fun i hi =>
    (hall i hi).mono fun hread => hread.grow hgrows⟩

/-- **The subtrees on a way down are attributed for the item that is in hand.** -/
theorem attributes_of_trail {bottom top : Face}
    (h : Trail (j.AttributesBetween marks) bottom pieces top) {q : Nat} {production : Production}
    (hq : j.table.productions[q]? = some production) :
    ∀ {kernel : List Item}, j.table.kernel? top.state = some kernel →
      pieces.length < UInt16.size → pieces.length = 0 ∨ .behind q pieces.length ∈ kernel →
        j.table.Attributes (LeafRead j.table j.tokens marks) production.grammar
          bottom.position top.position (production.rhs.take pieces.length) (j.bareOf pieces) := by
  induction h with
  | nil => exact fun _ _ _ => .nil _ _
  | @snoc below top pieces label htrail hlabel ih =>
    intro kernel hkernel hlength hitem
    rw [List.length_append] at hlength hitem ⊢
    have hlt := Nat.lt_of_succ_lt hlength
    have hitem := hitem.resolve_left (Nat.succ_ne_zero _)
    obtain ⟨s, kernel', hleads, hkernel', hall⟩ := hlabel.attributes
    obtain rfl : kernel = kernel' := Option.some.inj (hkernel.symm.trans hkernel')
    obtain ⟨kernel', hbelow, hs, hbefore⟩ := item_below hleads hkernel hitem hq hlt
    have hlast := hall _ hitem
    rw [Item.production_behind, Composite.production_eq hq, hlabel.between.first_eq,
      hlabel.between.stop_eq] at hlast
    show j.table.Attributes _ _ _ _ (production.rhs.take (pieces.length + 1)) _
    rw [List.take_add_one, hs, bareOf_append]
    exact (ih hbelow hlt hbefore).append hlast

/-- A node over what stands for the right side of its production, hidden or not, whatever production
    it stands in itself. -/
theorem attributes_rule {R : LeafRelation} {q before low high : Nat} {production : Production}
    {children : List Node} (hq : j.table.productions[q]? = some production)
    (h : j.table.Attributes R production.grammar low high production.rhs
      (j.left (!(j.table.nonterminal production.lhs).hidden) children)) (g : GrammarId) :
    j.table.Attributes R g low high [.n production.lhs] (j.table.bare [.rule
      (j.table.nonterminal production.lhs).name (j.table.nonterminal production.lhs).grammar
      production.lhs q before children]) := by
  cases hhidden : (j.table.nonterminal production.lhs).hidden with
  | true =>
    rw [hhidden] at h
    rw [Composite.bare_rule_of_hidden hhidden, ← List.append_nil (j.table.bare _)]
    exact .hidden hq hhidden h (.nil g high)
  | false =>
    rw [hhidden] at h
    rw [Composite.bare_rule_of_shown hhidden]
    exact .rule hq hhidden h (.nil g high)

/-- **Finishing a production** attributes what is below it, and nothing else has to be known. -/
theorem closed_attributesBetween (ht : j.table.Canonical) (regions : Regions) (p : Nat) :
    j.ClosedUnder regions p p (j.AttributesBetween marks) := by
  intro bottom top pieces q target htrail hposition hcovered hq hlength hgoto
  have hbetween : Trail j.DerivesBetween bottom pieces top := htrail.mono (·.between)
  have hclosed := closed_derivesBetween ht regions p hbetween hposition hcovered hq hlength hgoto
  obtain ⟨kernel, production, hkernel, hproduction, hshort, hitem, hne⟩ :=
    exists_of_mem_reductions ht hq
  rw [Composite.production_eq hproduction] at hlength hgoto
  have hpieces : pieces ≠ [] := List.length_pos_iff.mp (hlength ▸ List.length_pos_iff.mpr hne)
  have htight := tight_of_trail hbetween
  have hattributes := attributes_of_trail htrail hproduction hkernel (hlength ▸ hshort)
    (.inr (hlength ▸ hitem))
  rw [hlength, List.take_length, hposition] at hattributes
  rw [hposition] at htight
  have hleads := ht.goto hgoto
  have ⟨_, moved, _, hmoved, _⟩ := hleads
  refine ⟨hclosed.1, hclosed.2, .n production.lhs, moved, hleads, hmoved, fun i _ => ?_⟩
  rw [reduceLabel_of_tight regions q bottom.state htight hpieces,
    Composite.production_eq hproduction]
  refine attributes_rule hproduction ?_ _
  rw [left_assemble htight]
  exact hattributes

/-- **A leaf is attributed**, if it was made for the state that it leads to or its position is
    marked. -/
theorem attributesBetween_leaf (hj : j.Ready) (ht : j.table.Canonical) (hp : p < j.finish)
    {bottom : Face} {target target' state : Nat} (hposition : bottom.position = p)
    (hcovered : bottom.covered = p) (hshift : (x, target) ∈ j.shifts bottom.state p)
    (hshift' : (x, target') ∈ j.shifts state p) (hsame : ¬ Marked marks p → target' = target) :
    j.AttributesBetween marks ⟨target, p + 1, p + 1⟩ bottom
      ⟨j.leaf p x target', p, p + 1⟩ := by
  refine ⟨closedUnderShift_derivesBetween hj ht hp hposition hcovered hshift hshift', ?_⟩
  obtain ⟨hx, hact⟩ := mem_shifts.mp hshift
  obtain ⟨token, htoken, _⟩ := hj.regular.token p hp
  rw [hj.terminals htoken] at hx
  have hleads : j.table.Leads bottom.state (.t x) target := ht.shift hact
  have hleads' : j.table.Leads state (.t x) target' := ht.shift (mem_shifts.mp hshift').2
  have ⟨_, kernel, _, hkernel, _⟩ := hleads
  have ⟨_, kernel', _, hkernel', _⟩ := hleads'
  obtain ⟨first, rest, rfl⟩ := List.exists_cons_of_ne_nil (ht.kernel_items hkernel').1
  obtain ⟨kind, named, size, hleaf⟩ := leaf_of_kernel (p := p) (x := x) hkernel'
  refine ⟨.t x, kernel, hleads, hkernel, fun i hi => ?_⟩
  show j.table.Attributes _ _ p (p + 1) [.t x] (j.table.bare [j.leaf p x target'])
  rw [hleaf, Composite.bare_of_shown rfl]
  refine .leaf ⟨⟨token, htoken, hx⟩, hleads.uses hkernel hi, ⟨_, rfl,
    hleads'.uses hkernel' List.mem_cons_self⟩, fun hno hunmixed => ?_⟩ (.nil _ _)
  obtain rfl := hsame hno
  obtain rfl : kernel = first :: rest := Option.some.inj (hkernel.symm.trans hkernel')
  exact congrArg some (hunmixed _ _ _ hleads hkernel first List.mem_cons_self i hi)

end ParseJob

/-! ## What is kept -/

namespace Progress

variable {j : ParseJob} {s : Progress} {entry : Entry}

/-- **What is kept in every turn without repairs.** -/
structure Attributed (j : ParseJob) (entry : Entry) (s : Progress) : Prop where
  derived : s.Derived j entry
  edges : s.stack.Edges (j.AttributesBetween s.marks)
  size : s.marks.size = j.finish + 1

theorem attributed_entered (j : ParseJob) (entry : Entry) :
    (j.entered entry.state).Attributed j entry :=
  ⟨derived_entered j entry, j.entered_edges entry.state, Array.size_replicate⟩

theorem Attributed.reduceAll (hs : s.Attributed j entry) (ht : j.table.Canonical) :
    (s.reduceAll j).Attributed j entry := by
  obtain ⟨base, hfresh, _⟩ := hs.derived.fresh
  obtain ⟨_, hedges, _⟩ := ParseJob.reduceAll_fresh ht
    (ParseJob.closed_attributesBetween ht s.regions s.position) hfresh hs.edges
  have hgrows := (marks_reduceAll j s).1
  exact ⟨hs.derived.reduceAll ht, fun i e he => (hedges i e he).grow hgrows,
    hgrows.size.trans hs.size⟩

/-- LeafRelation a token at a position that is marked by then, in whatever ways. -/
theorem Attributed.edges_of_marked (hs : s.Attributed j entry) (hj : j.Ready)
    (ht : j.table.Canonical) (hlt : s.position < j.finish) (hreads : (s.shift j).1 = true)
    (hmarked : Marked (s.shift j).2.marks s.position) :
    (s.shift j).2.stack.Edges (j.AttributesBetween (s.shift j).2.marks) := by
  obtain ⟨base, hfresh, _⟩ := hs.derived.fresh
  have hgrows := (marks_shift j s).1
  have hclosed : j.ClosedUnderShift s.position s.position
      (j.AttributesBetween (s.shift j).2.marks) := by
    intro bottom x target target' state hposition hcovered hshift hshift'
    exact ParseJob.attributesBetween_leaf hj ht hlt hposition hcovered hshift hshift'
      fun hno => absurd hmarked hno
  have hold : s.stack.Edges (j.AttributesBetween (s.shift j).2.marks) :=
    fun i e he => (hs.edges i e he).grow hgrows
  rcases ParseJob.shift_spec hclosed hfresh.standing hold with ⟨hno, _⟩ | ⟨_, _, _, _, hedges, _⟩
  · rw [hreads] at hno
    cases hno
  · exact hedges

/-- LeafRelation a token in the only way that there is. -/
theorem Attributed.edges_of_sole (hs : s.Attributed j entry) (hj : j.Ready)
    (ht : j.table.Canonical) (hlt : s.position < j.finish) (hreads : (s.shift j).1 = true)
    (hunambiguous : j.isAmbiguous s.stack s.position = false) :
    (s.shift j).2.stack.Edges (j.AttributesBetween (s.shift j).2.marks) := by
  obtain ⟨base, hfresh, _⟩ := hs.derived.fresh
  have hgrows := (marks_shift j s).1
  obtain ⟨head, x, target, hstep, hhead, _, hshift⟩ :=
    exists_sole_step ⟨_, hfresh.standing⟩ hreads hunambiguous
  have hstack : (s.shift j).2.stack = s.stack.pushOnly ⟨target, s.position + 1, s.position + 1,
      [⟨head, ⟨j.leaf s.position x target, s.position, s.position + 1⟩⟩]⟩ :=
    (ParseJob.shift_of_step hstep).2.2
  have hreader : j.Reads s.position s.position s.stack (head, (x, target)) :=
    ((ParseJob.mem_stepsAt hfresh.standing).mp (hstep ▸ List.mem_cons_self)).2
  obtain ⟨_, hposition, hcovered, _⟩ := hreader
  have hold : s.stack.Edges (j.AttributesBetween (s.shift j).2.marks) :=
    fun i e he => (hs.edges i e he).grow hgrows
  rw [hstack]
  refine hold.pushOnly hfresh.standing fun e he => ?_
  obtain rfl := List.mem_singleton.mp he
  exact ⟨hhead, ParseJob.attributesBetween_leaf hj ht hlt hposition hcovered hshift hshift
    fun _ => rfl⟩

theorem Attributed.shift (hs : s.Attributed j entry) (hj : j.Ready) (ht : j.table.Canonical)
    (hne : s.position ≠ j.finish) (hreads : (s.shift j).1 = true) :
    (s.shift j).2.Attributed j entry ∧ (s.shift j).2.position = s.position + 1 := by
  obtain ⟨hderived, hposition⟩ := hs.derived.shift hj ht hne hreads
  have hlt : s.position < j.finish := Nat.lt_of_le_of_ne hs.derived.position_le hne
  obtain ⟨hgrows, hambiguous⟩ := marks_shift j s
  refine ⟨⟨hderived, ?_, hgrows.size.trans hs.size⟩, hposition⟩
  cases hcase : j.isAmbiguous s.stack s.position with
  | true =>
    have hmarked := hambiguous hcase (hs.size ▸ Nat.lt_succ_of_lt hlt)
    exact hs.edges_of_marked hj ht hlt hreads hmarked
  | false => exact hs.edges_of_sole hj ht hlt hreads hcase

/-- **An accepted subtree is attributed.** -/
theorem Attributed.accepted (hs : s.Attributed j entry) (ht : j.table.Canonical)
    (hentry : j.table.entry? j.grammar = some entry) (hfinish : s.position = j.finish)
    {label : Label} (h : s.accepted? j = some label) (g : GrammarId) :
    ParseJob.Tight 0 j.finish [label] ∧
      j.table.Attributes (LeafRead j.table j.tokens s.marks) g 0 j.finish [.n entry.start]
        (j.table.bare [label.node]) := by
  obtain ⟨htight, _⟩ := hs.derived.accepted ht hentry hfinish h
  obtain ⟨head, e, he, rfl, _, _, hsole⟩ := hs.derived.accepted_edge ht hentry hfinish h
  obtain ⟨x, kernel, hleads, hkernel, hall⟩ := (hs.edges head e he).attributes
  obtain ⟨i, hi⟩ := List.exists_mem_of_ne_nil _ (ht.kernel_items hkernel).1
  obtain rfl := hsole x hleads
  have hattributes := hall i hi
  have hstop : e.label.stop = j.finish := htight.2.2
  rw [htight.1, hstop] at hattributes
  exact ⟨htight, hattributes.of_nonterminal g⟩

end Progress

/-- **A parse that counts no repairs attributes its leaves.** -/
theorem ParseJob.run_attributes [Limits] {j : ParseJob} {entry : Entry} (hj : j.Ready)
    (ht : j.table.Canonical) (hreuse : j.reuse = none)
    (hentry : j.table.entry? j.grammar = some entry) (hpos : j.finish ≠ 0)
    (hrepairs : j.run.counts.repairs = 0) : ∃ children, j.run.tree = .root j.grammar children ∧
      j.table.Attributes (LeafRead j.table j.tokens j.run.marks) j.grammar 0 j.finish
        [.n entry.start] (children.filter (!·.isTrivia)) := by
  refine run_of_clean (I := fun s => s.Attributed j entry)
    (Q := fun r => ∃ children, r.tree = .root j.grammar children ∧
      j.table.Attributes (LeafRead j.table j.tokens r.marks) j.grammar 0 j.finish
        [.n entry.start] (children.filter (!·.isTrivia)))
    hreuse hentry hpos (Progress.attributed_entered j entry) (fun s hs => hs.derived.position_le)
    (fun s hs hne hreads => (hs.reduceAll ht).shift hj ht hne hreads)
    (fun s label hs hfinish haccepted => ?_) hrepairs
  obtain ⟨htight, hattributes⟩ :=
    (hs.reduceAll ht).accepted ht hentry hfinish haccepted j.grammar
  obtain ⟨children, htree, hchildren⟩ := children_close hpos htight
  refine ⟨children, htree, ?_⟩
  rw [hchildren]
  exact hattributes

end LayeredSyntax
