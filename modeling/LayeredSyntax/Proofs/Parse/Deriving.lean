/-
  WITHOUT REPAIRS — every subtree on the stacks is a derivation.

  As long as nothing was repaired, no position is left out: a subtree begins at the position of the
  node below it and ends at that of the node above it.  `DerivesBetween` says that it derives the
  symbol that leads from the one state to the other.

  **The crux** is to walk a way down with an item in hand (`derives_of_trail`).  Where the upper
  state has an item with its place behind a symbol, the lower one has it with the place in front,
  and the symbol is the one that the subtree in between derives.  So the subtrees on the way down
  derive the right side of the production, whichever way is taken and however often subtrees on it
  were replaced.

  A parse that counts no repairs ends with a tree that derives the start (`run_derives`).
-/
import LayeredSyntax.Proofs.Parse.Repairing
import LayeredSyntax.Proofs.Parse.Shifting
import LayeredSyntax.Proofs.Tree.Derivations
import LayeredSyntax.Proofs.Parse.Assembling

namespace LayeredSyntax

namespace ParseJob

variable {j : ParseJob} {regions : Regions} {p low high : Nat} {opens : Bool}
  {pieces : List Label}

/-! ## Pieces without gaps -/

/-- **Pieces side by side from one position to another.** -/
def Tight (p high : Nat) : List Label → Prop
  | [] => p = high
  | piece :: rest => piece.first = p ∧ piece.first < piece.stop ∧ Tight piece.stop high rest

theorem Tight.le (h : Tight p high pieces) : p ≤ high := by
  induction pieces generalizing p with
  | nil => exact Nat.le_of_eq h
  | cons piece rest ih =>
    obtain ⟨rfl, hlt, hrest⟩ := h
    exact Nat.le_trans (Nat.le_of_lt hlt) (ih hrest)

theorem Tight.append {q : Nat} {front back : List Label} (hfront : Tight p q front)
    (hback : Tight q high back) : Tight p high (front ++ back) := by
  induction front generalizing p with
  | nil =>
    obtain rfl : p = q := hfront
    exact hback
  | cons piece rest ih =>
    obtain ⟨hfirst, hlt, hrest⟩ := hfront
    exact ⟨hfirst, hlt, ih hrest⟩

/-- The last of some pieces side by side ends where they end. -/
theorem Tight.stop_of_getLast? {last : Label} (h : Tight p high pieces)
    (hlast : pieces.getLast? = some last) : last.stop = high := by
  obtain ⟨front, rfl⟩ := List.getLast?_eq_some_iff.mp hlast
  induction front generalizing p with
  | nil =>
    obtain ⟨_, _, hstop⟩ := h
    exact hstop
  | cons piece rest ih =>
    obtain ⟨_, _, hrest⟩ := h
    exact ih hrest (List.getLast?_append_of_ne_nil _ (List.cons_ne_nil _ _))

/-- **A finished production stands where its pieces do.** -/
theorem reduceLabel_of_tight (regions : Regions) (q before : Nat) (h : Tight p high pieces)
    (hne : pieces ≠ []) : (j.reduceLabel regions q before pieces).1 =
      let n := j.table.nonterminal (j.table.production q).lhs
      ⟨.rule n.name n.grammar (j.table.production q).lhs q before
        (j.assemble regions (!n.hidden) p high pieces).children, p, high⟩ := by
  obtain ⟨last, hlast⟩ := Option.isSome_iff_exists.mp (List.getLast?_isSome.mpr hne)
  obtain ⟨piece, rest, rfl⟩ := List.exists_cons_of_ne_nil hne
  rw [reduceLabel_eq List.head?_cons hlast, h.stop_of_getLast? hlast, h.1]

theorem Tight.lt (h : Tight p high pieces) (hne : pieces ≠ []) : p < high := by
  obtain ⟨piece, rest, rfl⟩ := List.exists_cons_of_ne_nil hne
  obtain ⟨rfl, hlt, hrest⟩ := h
  exact Nat.lt_of_lt_of_le hlt hrest.le

/-- What is left of the children of a node that opens hidden rules, or of one that does not. -/
def left (j : ParseJob) (opens : Bool) (ns : List Node) : List Node :=
  if opens then ns.filter (!·.isTrivia) else j.table.bare ns

/-- What is left of some pieces. -/
def bareOf (j : ParseJob) (pieces : List Label) : List Node :=
  pieces.flatMap fun piece => j.table.bare [piece.node]

theorem left_triviaOnto (j : ParseJob) (opens : Bool) (p : Nat) (out : List Node) :
    j.left opens (j.triviaOnto p out).reverse = j.left opens out.reverse := by
  rw [reverse_triviaOnto]
  unfold left
  split
  · have hnone : ((j.tokens.lead p).map fun x => Node.trivia x.kind x.size).filter
        (!·.isTrivia) = [] := by
      refine List.filter_eq_nil_iff.mpr fun n hn => ?_
      obtain ⟨x, _, rfl⟩ := List.mem_map.mp hn
      exact Bool.false_ne_true
    rw [List.filter_append, hnone, List.append_nil]
  · rw [Composite.bare_append, Composite.bare_trivia, List.append_nil]

/-- Putting a piece behind others. -/
theorem left_piece (j : ParseJob) (opens : Bool) (n : Node) (out : List Node) :
    j.left opens (if opens then j.table.showOnto out [n] else n :: out).reverse =
      j.left opens out.reverse ++ j.table.bare [n] := by
  cases opens with
  | true => exact Composite.filter_showOnto _ out [n]
  | false =>
    show j.table.bare (n :: out).reverse = _
    rw [List.reverse_cons, Composite.bare_append]
    rfl

/-- **Without gaps, what is left of the children is what is left of the pieces.** -/
theorem left_assembleFrom : ∀ {p : Nat} {a : Assembled}, Tight p high pieces →
    j.left opens (j.assembleFrom regions opens low high p a pieces).children =
      j.left opens a.children ++ j.bareOf pieces := by
  induction pieces with
  | nil =>
    intro p a htight
    obtain rfl : p = high := htight
    unfold assembleFrom
    rw [if_neg (Nat.lt_irrefl p)]
    exact (List.append_nil _).symm
  | cons piece rest ih =>
    intro p a htight
    obtain ⟨rfl, hlt, hrest⟩ := htight
    have hmax : max (max piece.first piece.first) piece.stop = piece.stop := by omega
    unfold assembleFrom
    dsimp only
    rw [hmax, if_neg (Nat.lt_irrefl _), ih hrest]
    unfold Assembled.children
    dsimp only
    rw [left_piece, List.append_assoc]
    split
    · rw [left_triviaOnto]
      rfl
    · rfl

theorem left_assemble (h : Tight low high pieces) :
    j.left opens (j.assemble regions opens low high pieces).children = j.bareOf pieces := by
  refine (left_assembleFrom (a := ⟨[], 0⟩) h).trans ?_
  have hnil : j.left opens [] = [] := by
    unfold left
    split
    · rfl
    · exact Composite.bare_trivia _ []
  show j.left opens [] ++ _ = _
  rw [hnil]
  rfl

/-! ## Subtrees between two nodes -/

/-- **A subtree that derives what leads from one state to another.** -/
structure DerivesBetween (j : ParseJob) (above below : Face) (label : Label) : Prop where
  first_eq : label.first = below.position
  stop_eq : label.stop = above.position
  lt : label.first < label.stop
  derives : ∃ s, j.table.Leads below.state s above.state ∧
    j.table.Derives [s] (j.table.bare [label.node])
      (sliceOf j.tokens.significantTokens label.first label.stop)

theorem tight_of_trail {bottom top : Face} (h : Trail j.DerivesBetween bottom pieces top) :
    Tight bottom.position top.position pieces := by
  induction h with
  | nil => rfl
  | snoc _ hlabel ih => exact ih.append ⟨hlabel.first_eq, hlabel.lt, hlabel.stop_eq⟩

/-- **An item comes from below**, with its place in front of the symbol that leads up. -/
theorem item_below {below above q n : Nat} {s : Sym} {kernel : List Item} {production : Production}
    (hleads : j.table.Leads below s above) (hkernel : j.table.kernel? above = some kernel)
    (hitem : .behind q (n + 1) ∈ kernel) (hq : j.table.productions[q]? = some production)
    (hn : n < UInt16.size) :
    ∃ kernel', j.table.kernel? below = some kernel' ∧ production.rhs[n]? = some s ∧
      (n = 0 ∨ .behind q n ∈ kernel') := by
  obtain ⟨kernel', moved, hbelow, habove, hmove⟩ := hleads
  obtain rfl : kernel = moved := Option.some.inj (hkernel.symm.trans habove)
  obtain ⟨i, hi, hnext, hadvance⟩ := (hmove.mem_iff _).mp hitem
  obtain rfl := Item.eq_behind_of_advance hadvance
  refine ⟨kernel', hbelow, (Composite.nextSymbol?_behind hq hn).mp hnext, ?_⟩
  by_cases hzero : n = 0
  · exact .inl hzero
  · exact .inr (hi.mem_of_pos (Item.behind_ne_zero hzero hn))

theorem bareOf_append (j : ParseJob) (pieces : List Label) (label : Label) :
    j.bareOf (pieces ++ [label]) = j.bareOf pieces ++ j.table.bare [label.node] := by
  unfold bareOf
  rw [List.flatMap_append, List.flatMap_singleton]

/-- **The subtrees on a way down derive what an item has behind it.** -/
theorem derives_of_trail {bottom top : Face} (h : Trail j.DerivesBetween bottom pieces top)
    {q : Nat} {production : Production} (hq : j.table.productions[q]? = some production) :
    ∀ {kernel : List Item}, j.table.kernel? top.state = some kernel →
      pieces.length < UInt16.size → pieces.length = 0 ∨ .behind q pieces.length ∈ kernel →
        j.table.Derives (production.rhs.take pieces.length) (j.bareOf pieces)
          (sliceOf j.tokens.significantTokens bottom.position top.position) := by
  induction h with
  | nil =>
    intro _ _ _ _
    rw [sliceOf_self]
    exact .nil
  | @snoc below top pieces label htrail hlabel ih =>
    intro kernel hkernel hlength hitem
    rw [List.length_append] at hlength hitem ⊢
    have hlt := Nat.lt_of_succ_lt hlength
    obtain ⟨hfirst, hstop, hspan, s, hleads, hderives⟩ := hlabel
    obtain ⟨kernel', hbelow, hs, hbefore⟩ :=
      item_below hleads hkernel (hitem.resolve_left (Nat.succ_ne_zero _)) hq hlt
    have hfront := ih hbelow hlt hbefore
    have hslice : sliceOf j.tokens.significantTokens label.first label.stop =
        sliceOf j.tokens.significantTokens below.position top.position := by
      rw [hfirst, hstop]
    show j.table.Derives (production.rhs.take (pieces.length + 1)) _ _
    rw [List.take_add_one, hs, bareOf_append,
      ← sliceOf_append (tight_of_trail htrail).le (show below.position ≤ top.position by omega)]
    exact hfront.append (hslice ▸ hderives)

/-- A node over what derives the right side of its production, hidden or not. -/
theorem derives_rule {q before : Nat} {production : Production} {children : List Node}
    {tokens : List Token} (hq : j.table.productions[q]? = some production)
    (h : j.table.Derives production.rhs
      (j.left (!(j.table.nonterminal production.lhs).hidden) children) tokens) :
    j.table.Derives [.n production.lhs] (j.table.bare [.rule
      (j.table.nonterminal production.lhs).name (j.table.nonterminal production.lhs).grammar
      production.lhs q before children]) tokens := by
  rw [← List.append_nil tokens]
  cases hhidden : (j.table.nonterminal production.lhs).hidden with
  | true =>
    rw [hhidden] at h
    rw [Composite.bare_rule_of_hidden hhidden, ← List.append_nil (j.table.bare _)]
    exact .hidden hq hhidden h .nil
  | false =>
    rw [hhidden] at h
    rw [Composite.bare_rule_of_shown hhidden]
    exact .rule hq hhidden h .nil

/-- **Finishing a production derives its nonterminal.** -/
theorem closed_derivesBetween (ht : j.table.Canonical) (regions : Regions) (p : Nat) :
    j.ClosedUnder regions p p j.DerivesBetween := by
  intro bottom top pieces q target htrail hposition _ hq hlength hgoto
  obtain ⟨kernel, production, hkernel, hproduction, hshort, hitem, hne⟩ :=
    exists_of_mem_reductions ht hq
  rw [Composite.production_eq hproduction] at hlength hgoto
  have hpieces : pieces ≠ [] := List.length_pos_iff.mp (hlength ▸ List.length_pos_iff.mpr hne)
  have htight := tight_of_trail htrail
  have hderives := derives_of_trail htrail hproduction hkernel (hlength ▸ hshort)
    (.inr (hlength ▸ hitem))
  rw [hlength, List.take_length, hposition] at hderives
  rw [hposition] at htight
  rw [reduceLabel_of_tight regions q bottom.state htight hpieces,
    Composite.production_eq hproduction]
  refine ⟨rfl, rfl, rfl, htight.lt hpieces, .n production.lhs, ht.goto hgoto, ?_⟩
  refine derives_rule hproduction ?_
  rw [left_assemble htight]
  exact hderives

/-- **A leaf derives its terminal.** -/
theorem closedUnderShift_derivesBetween (hj : j.Ready) (ht : j.table.Canonical)
    (hp : p < j.finish) : j.ClosedUnderShift p p j.DerivesBetween := by
  intro bottom x target target' state hposition _ hshift _
  obtain ⟨hx, hact⟩ := mem_shifts.mp hshift
  obtain ⟨token, htoken, _, _⟩ := hj.regular.token p hp
  rw [hj.terminals htoken] at hx
  refine ⟨hposition.symm, rfl, Nat.lt_succ_self p, .t x, ht.shift hact, ?_⟩
  have hslice : sliceOf j.tokens.significantTokens p (p + 1) = [token] :=
    sliceOf_succ ((hj.regular.getElem?_significantTokens p).trans htoken)
  show j.table.Derives [.t x] (j.table.bare [j.leaf p x target'])
    (sliceOf j.tokens.significantTokens p (p + 1))
  rw [hslice]
  unfold leaf
  rw [htoken]
  cases j.table.terminal? x with
  | none =>
    rw [Composite.bare_of_shown rfl]
    exact .leaf hx rfl .nil
  | some terminal =>
    rw [Composite.bare_of_shown rfl]
    exact .leaf hx rfl .nil

end ParseJob

/-! ## What is kept -/

namespace Progress

variable {j : ParseJob} {s : Progress} {entry : Entry}

/-- **What is kept in every turn without repairs**: all ways down lead to the entry. -/
structure Derived (j : ParseJob) (entry : Entry) (s : Progress) : Prop where
  fresh : ∃ base, s.stack.Fresh base s.position s.position ∧
    ∀ i < base, (s.stack.face i).position < s.position
  edges : s.stack.Edges j.DerivesBetween
  some_node : 0 < s.stack.nodes.size
  bottom : s.stack.face 0 = ⟨entry.state, 0, 0⟩
  grounded : ∀ i, 0 < i → i < s.stack.nodes.size → s.stack.edges i ≠ []
  position_le : s.position ≤ j.finish

theorem derived_entered (j : ParseJob) (entry : Entry) : (j.entered entry.state).Derived j entry :=
  ⟨⟨0, j.entered_fresh entry.state, fun i hi => absurd hi (Nat.not_lt_zero i)⟩,
    j.entered_edges entry.state, Nat.one_pos, rfl,
    fun _ hi hlt => absurd hi (Nat.not_lt.mpr (Nat.le_of_lt_succ hlt)), Nat.zero_le _⟩

theorem Derived.reduceAll (hs : s.Derived j entry) (ht : j.table.Canonical) :
    (s.reduceAll j).Derived j entry := by
  obtain ⟨base, hfresh, holder⟩ := hs.fresh
  obtain ⟨hfresh', hedges, hkept⟩ := ParseJob.reduceAll_fresh ht
    (ParseJob.closed_derivesBetween ht s.regions s.position) hfresh hs.edges
  have holder' : ∀ i < base, ((s.reduceAll j).stack.face i).position < s.position := by
    intro i hi
    rw [hkept.face i (Nat.lt_of_lt_of_le hi hfresh.base_le)]
    exact holder i hi
  refine ⟨⟨base, hfresh', holder'⟩, hedges, Nat.lt_of_lt_of_le hs.some_node hkept.size_le,
    (hkept.face 0 hs.some_node).trans hs.bottom, fun i hi hlt => ?_, hs.position_le⟩
  rcases Nat.lt_or_ge i s.stack.nodes.size with hold | hnew
  · exact hkept.edges_ne_nil (hs.grounded i hi hold)
  · exact hkept.new i hnew hlt

theorem Derived.shift (hs : s.Derived j entry) (hj : j.Ready) (ht : j.table.Canonical)
    (hne : s.position ≠ j.finish) (hreads : (s.shift j).1 = true) :
    (s.shift j).2.Derived j entry ∧ (s.shift j).2.position = s.position + 1 := by
  obtain ⟨base, hfresh, holder⟩ := hs.fresh
  have hlt : s.position < j.finish := Nat.lt_of_le_of_ne hs.position_le hne
  have hclosed : j.ClosedUnderShift s.position s.position j.DerivesBetween :=
    ParseJob.closedUnderShift_derivesBetween hj ht hlt
  rcases ParseJob.shift_spec hclosed hfresh.standing hs.edges with
    ⟨hno, _⟩ | ⟨_, _, hposition, hfresh', hedges, hold, hnew, hjoined⟩
  · rw [hreads] at hno
    cases hno
  · have hsize : s.stack.nodes.size ≤ (s.shift j).2.stack.nodes.size := hfresh'.base_le
    have holder' : ∀ i < s.stack.nodes.size,
        ((s.shift j).2.stack.face i).position < (s.shift j).2.position := by
      intro i hi
      have hsame : (s.shift j).2.stack.face i = s.stack.face i :=
        congrArg StackNode.face (hold i hi)
      rw [hsame, hposition]
      rcases Nat.lt_or_ge i base with hi' | hi'
      · exact Nat.lt_succ_of_lt (holder i hi')
      · rw [(hfresh.top i hi' hi).1]
        exact Nat.lt_succ_self _
    -- What was there is there as it was; what is new has edges.
    refine ⟨⟨⟨_, hposition ▸ hfresh', holder'⟩, hedges, Nat.lt_of_lt_of_le hs.some_node hsize, ?_,
      fun i hi hilt => ?_, hposition ▸ hlt⟩, hposition⟩
    · exact (congrArg StackNode.face (hold 0 hs.some_node)).trans hs.bottom
    · rcases Nat.lt_or_ge i s.stack.nodes.size with hi' | hi'
      · have hsame : (s.shift j).2.stack.edges i = s.stack.edges i :=
          congrArg StackNode.edges (hold i hi')
        rw [hsame]
        exact hs.grounded i hi hi'
      · exact hnew i hi' hilt

/-- Below a state that accepts, a state has a root at its beginning. -/
theorem root_begun_below (ht : j.table.Canonical) {below above : Nat} {x : Sym}
    (h : j.table.Leads below x above) (haccept : .accept ∈ j.table.actionsAt above endOfText) :
    ∃ r ∈ j.table.roots, ∃ kernel, j.table.kernel? below = some kernel ∧
      ⟨r.production, 0⟩ ∈ kernel ∧ j.table.nextSymbol? ⟨r.production, 0⟩ = some x := by
  obtain ⟨kernel, moved, hbelow, habove, hmove⟩ := h
  obtain ⟨_, kernel', hkernel', r, hr, hitem⟩ := ht.accept haccept
  obtain rfl : moved = kernel' := Option.some.inj (habove.symm.trans hkernel')
  obtain ⟨p, hp, _, hroot⟩ := ht.wellFormed.root r hr
  obtain ⟨i, hi, hnext, hadvance⟩ := (hmove.mem_iff _).mp hitem
  obtain rfl : i = ⟨r.production, 0⟩ := Item.eq_behind_of_advance (n := 0) hadvance
  refine ⟨r, hr, kernel, hbelow, ?_, hnext⟩
  generalize hsame : (⟨r.production, 0⟩ : Item) = i at hi
  cases hi with
  | kernel h => exact h
  | @begun _ q p' _ hnext' hp' =>
    -- The production of a root begins behind no symbol.
    obtain rfl : r.production = q := (Item.mk.inj hsame).1
    obtain rfl : p = p' := Option.some.inj (hp.symm.trans hp')
    have hno := (ht.wellFormed.hasSymbol_next hnext').2
    rw [hroot] at hno
    cases hno

/-- **No symbol leads to a state that has a root at its beginning.** -/
theorem not_leads_of_begun (ht : j.table.Canonical) {below above : Nat} {x : Sym}
    {kernel : List Item} {r : Root} (hr : r ∈ j.table.roots)
    (hkernel : j.table.kernel? above = some kernel) (hmem : ⟨r.production, 0⟩ ∈ kernel) :
    ¬ j.table.Leads below x above := by
  rintro ⟨_, moved, _, habove, hmove⟩
  obtain rfl : kernel = moved := Option.some.inj (hkernel.symm.trans habove)
  obtain ⟨_, _, hnext, hadvance⟩ := (hmove.mem_iff _).mp hmem
  exact ht.wellFormed.advance_ne_root hr hnext hadvance.symm

/-- **Only the bottom has a root at its beginning**: no edge leads down from such a state. -/
theorem Derived.eq_bottom (hs : s.Derived j entry) (ht : j.table.Canonical) {i : Nat}
    {kernel : List Item} {r : Root} (hr : r ∈ j.table.roots) (hlt : i < s.stack.nodes.size)
    (hkernel : j.table.kernel? (s.stack.face i).state = some kernel)
    (hmem : ⟨r.production, 0⟩ ∈ kernel) : i = 0 := by
  rcases Nat.eq_zero_or_pos i with hzero | hpos
  · exact hzero
  · obtain ⟨e, rest, hedges⟩ := List.exists_cons_of_ne_nil (hs.grounded _ hpos hlt)
    have he : e ∈ s.stack.edges i := by
      rw [hedges]
      exact List.mem_cons_self
    obtain ⟨_, _, _, _, hleads, _⟩ := hs.edges _ e he
    exact absurd hleads (not_leads_of_begun ht hr hkernel hmem)

/-- **Only on top of the entry an accepted subtree stands**, and the start leads up over it. -/
theorem Derived.accepted_edge (hs : s.Derived j entry) (ht : j.table.Canonical)
    (hentry : j.table.entry? j.grammar = some entry) (hfinish : s.position = j.finish)
    {label : Label} (h : s.accepted? j = some label) :
    ∃ head, ∃ e ∈ s.stack.edges head, e.label = label ∧
      (s.stack.face head).position = j.finish ∧ (s.stack.face e.below).position = 0 ∧
      ∀ x, j.table.Leads (s.stack.face e.below).state x (s.stack.face head).state →
        x = .n entry.start := by
  obtain ⟨base, hfresh, _⟩ := hs.fresh
  obtain ⟨head, hhead, e, he, rfl, haccept⟩ := exists_of_accepted? h
  obtain ⟨hbase, hlt⟩ := hfresh.mem_heads.mp hhead
  have htop := (hfresh.top head hbase hlt).1.trans hfinish
  obtain ⟨_, _, _, y, hleads, _⟩ := hs.edges head e he
  obtain ⟨_, hr, _, hbegun, hmem, _⟩ := root_begun_below ht hleads haccept
  have hzero : e.below = 0 :=
    hs.eq_bottom ht hr (Nat.lt_trans (hfresh.down head e he).1 hlt) hbegun hmem
  have hface : s.stack.face e.below = ⟨entry.state, 0, 0⟩ := hzero ▸ hs.bottom
  refine ⟨head, e, he, rfl, htop, congrArg Face.position hface, fun x hx => ?_⟩
  rw [hface] at hx
  -- At the bottom the production that begins is the one of the entry.
  obtain ⟨r', _, kernel, hbelow, hmem, hnext⟩ := root_begun_below ht hx haccept
  obtain ⟨r, hr, hstart, hkernel⟩ := ht.entry hentry
  obtain rfl : kernel = [⟨r.production, 0⟩] := Option.some.inj (hbelow.symm.trans hkernel)
  obtain ⟨hsame, _⟩ := Item.mk.inj (List.mem_singleton.mp hmem)
  rw [hsame] at hnext
  obtain ⟨p, hp, hrhs, _⟩ := ht.wellFormed.root r hr
  obtain ⟨p', hp', hy⟩ := Composite.nextSymbol?_eq_some.mp hnext
  obtain rfl : p = p' := Option.some.inj (hp.symm.trans hp')
  rw [hrhs] at hy
  rw [hstart]
  exact (Option.some.inj hy).symm

/-- An accepted subtree derives the start. -/
theorem Derived.accepted (hs : s.Derived j entry) (ht : j.table.Canonical)
    (hentry : j.table.entry? j.grammar = some entry) (hfinish : s.position = j.finish)
    {label : Label} (h : s.accepted? j = some label) :
    ParseJob.Tight 0 j.finish [label] ∧
      j.table.Derives [.n entry.start] (j.table.bare [label.node])
        (sliceOf j.tokens.significantTokens 0 j.finish) := by
  obtain ⟨head, e, he, rfl, htop, hbelow, hsole⟩ := hs.accepted_edge ht hentry hfinish h
  obtain ⟨hfirst, hstop, hlabel, x, hleads, hderives⟩ := hs.edges head e he
  obtain rfl := hsole x hleads
  rw [hbelow] at hfirst
  rw [htop] at hstop
  rw [hfirst, hstop] at hderives
  exact ⟨⟨hfirst, hlabel, hstop⟩, hderives⟩

end Progress

namespace ParseJob

variable {j : ParseJob} {entry : Entry}

/-- What is left below the root over one subtree. -/
theorem children_close {s : Progress} {label : Label} (hpos : j.finish ≠ 0)
    (h : Tight 0 j.finish [label]) :
    ∃ children, (s.close j [label]).tree = .root j.grammar children ∧
      children.filter (!·.isTrivia) = j.table.bare [label.node] := by
  refine ⟨(j.triviaOnto j.finish ((j.assemble s.regions true 0 j.finish [label]).reversed ++
    j.triviaOnto 0 [])).reverse, ?_, ?_⟩
  · show (j.assembleRoot s.regions [label]).1 = _
    unfold assembleRoot
    dsimp only
    rw [if_neg hpos]
  · have hleft : j.left true (j.assemble s.regions true 0 j.finish [label]).children =
        j.bareOf [label] := left_assemble h
    have hfront : j.left true (j.triviaOnto 0 []).reverse = [] := left_triviaOnto j true 0 []
    show j.left true _ = _
    rw [left_triviaOnto, List.reverse_append]
    show (_ ++ _ : List Node).filter _ = _
    rw [List.filter_append]
    show j.left true _ ++ j.left true _ = _
    rw [hfront, List.nil_append]
    exact hleft.trans (List.append_nil _)

/-- **What is kept as long as nothing is repaired** holds at the end of a parse that counts no
    repairs. -/
theorem run_of_clean [Limits] {I : Progress → Prop} {Q : ParseRun → Prop} (hreuse : j.reuse = none)
    (hentry : j.table.entry? j.grammar = some entry) (hpos : j.finish ≠ 0)
    (hstart : I (j.entered entry.state)) (hle : ∀ s, I s → s.position ≤ j.finish)
    (hshift : ∀ s, I s → s.position ≠ j.finish → ((s.reduceAll j).shift j).1 = true →
      I ((s.reduceAll j).shift j).2 ∧ ((s.reduceAll j).shift j).2.position = s.position + 1)
    (haccept : ∀ s label, I s → s.position = j.finish → (s.reduceAll j).accepted? j = some label →
      Q ((s.reduceAll j).close j [label])) (hrepairs : j.run.counts.repairs = 0) : Q j.run := by
  -- Something was repaired, or the turns that are left are enough to come to the end.
  have hrule : ∀ fuel (s : Progress), s.Plain ∧
      (s.repairCount ≠ 0 ∨ (I s ∧ j.finish - s.position < fuel)) →
        (s.run j fuel).counts.repairs ≠ 0 ∨ Q (s.run j fuel) := by
    refine Progress.run_rule (P := fun fuel s => s.Plain ∧
        (s.repairCount ≠ 0 ∨ (I s ∧ j.finish - s.position < fuel)))
      (Q := fun r => r.counts.repairs ≠ 0 ∨ Q r) hreuse (fun _ s hs => hs.1)
      (fun s ⟨_, hs⟩ => ?_) ?_ ?_ ?_
    · rcases hs with hs | ⟨_, hfuel⟩
      · exact .inl hs
      · exact absurd hfuel (Nat.not_lt_zero _)
    · rintro fuel s label ⟨_, hs | ⟨hs, _⟩⟩ hfinish haccepted
      · exact .inl hs
      · exact .inr (haccept s label hs hfinish haccepted)
    · rintro fuel s ⟨hplain, hs⟩ hne hreads
      refine ⟨Progress.plain_shift hplain.checkpoint hreads, ?_⟩
      rcases hs with hs | ⟨hs, hfuel⟩
      · rw [Progress.repairCount_shift]
        exact .inl hs
      · obtain ⟨hs', hposition⟩ := hshift s hs hne hreads
        have hle := hle s hs
        exact .inr ⟨hs', by omega⟩
    · -- A parse that is stuck counts a repair.
      rintro fuel s s' ⟨hplain, _⟩ hstuck
      have hrepaired : (s'.repair j).2.repairCount ≠ 0 := by
        rw [Progress.repairCount_repair j s']
        exact Nat.succ_ne_zero _
      exact ⟨fun hon => ⟨Progress.plain_repair (hstuck.checkpoint hplain) hon, .inl hrepaired⟩,
        fun _ => .inl hrepaired⟩
  have hturns : j.finish - (j.entered entry.state).position < j.turnBound := by
    have hposition : (j.entered entry.state).position = 0 := rfl
    unfold turnBound
    omega
  have hrun := hrule _ _ ⟨entered_plain j entry.state, .inr ⟨hstart, hturns⟩⟩
  rw [← run_eq hentry hpos] at hrun
  exact hrun.resolve_left fun h => h hrepairs

/-- The tokens of a text from its beginning to its end. -/
theorem sliceOf_all (hj : j.Ready) :
    sliceOf j.tokens.significantTokens 0 j.finish = j.tokens.significantTokens := by
  unfold sliceOf
  rw [List.drop_zero]
  exact List.take_of_length_le (Nat.le_of_eq hj.regular.length_significantTokens)

/-- **A parse that counts no repairs derives the start.** -/
theorem run_derives [Limits] (hj : j.Ready) (ht : j.table.Canonical) (hreuse : j.reuse = none)
    (hentry : j.table.entry? j.grammar = some entry) (hpos : j.finish ≠ 0)
    (hrepairs : j.run.counts.repairs = 0) : ∃ children, j.run.tree = .root j.grammar children ∧
      j.table.Derives [.n entry.start] (children.filter (!·.isTrivia))
        j.tokens.significantTokens := by
  refine run_of_clean (I := fun s => s.Derived j entry)
    (Q := fun r => ∃ children, r.tree = .root j.grammar children ∧ j.table.Derives
      [.n entry.start] (children.filter (!·.isTrivia)) j.tokens.significantTokens)
    hreuse hentry hpos (Progress.derived_entered j entry) (fun s hs => hs.position_le)
    (fun s hs hne hreads => (hs.reduceAll ht).shift hj ht hne hreads)
    (fun s label hs hfinish haccepted => ?_) hrepairs
  obtain ⟨htight, hderives⟩ := (hs.reduceAll ht).accepted ht hentry hfinish haccepted
  obtain ⟨children, htree, hchildren⟩ := children_close hpos htight
  refine ⟨children, htree, ?_⟩
  rw [hchildren, ← sliceOf_all hj]
  exact hderives

/-- What leads up over a terminal. -/
def ReadBetween (j : ParseJob) (above below : Face) (_ : Label) : Prop :=
  ∃ x, j.table.Leads below.state (.t x) above.state

/-- **With a table that finishes nothing, something is repaired in every text**: whatever is on the
    stack was read, and what would be accepted was not. -/
theorem run_repairs_ne_zero_of_not_reduce [Limits] (hj : j.Ready) (ht : j.table.Canonical)
    (hreuse : j.reuse = none) (hentry : j.table.entry? j.grammar = some entry) (hpos : j.finish ≠ 0)
    (hnever : ∀ state x q : Nat, .reduce q ∉ j.table.actionsAt state x) :
    j.run.counts.repairs ≠ 0 := by
  have hclosed : ∀ regions p, j.ClosedUnder regions p p j.ReadBetween := by
    intro regions p bottom top pieces q target _ _ _ hq _ _
    obtain ⟨x, _, hreduce⟩ := mem_reductions.mp hq
    exact absurd hreduce (hnever _ x q)
  have hclosed' : ∀ p, j.ClosedUnderShift p p j.ReadBetween := by
    intro p bottom x target target' state _ _ hshift _
    exact ⟨x, ht.shift (mem_shifts.mp hshift).2⟩
  have hfinished : ∀ s : Progress, s.Derived j entry → s.stack.Edges j.ReadBetween →
      (s.reduceAll j).stack.Edges j.ReadBetween := by
    intro s hs hread
    obtain ⟨base, hfresh, _⟩ := hs.fresh
    exact (reduceAll_fresh ht (hclosed s.regions s.position) hfresh hread).2.1
  refine run_of_clean (I := fun s => s.Derived j entry ∧ s.stack.Edges j.ReadBetween)
    (Q := fun _ => False) hreuse hentry hpos
    ⟨Progress.derived_entered j entry, j.entered_edges entry.state⟩ (fun s hs => hs.1.position_le)
    (fun s ⟨hs, hread⟩ hne hreads => ?_) fun s label ⟨hs, hread⟩ hfinish haccepted => ?_
  · have hs' := hs.reduceAll ht
    obtain ⟨hderived, hposition⟩ := hs'.shift hj ht hne hreads
    obtain ⟨base, hfresh, _⟩ := hs'.fresh
    refine ⟨⟨hderived, ?_⟩, hposition⟩
    rcases shift_spec (hclosed' _) hfresh.standing (hfinished s hs hread) with
      ⟨hno, _⟩ | ⟨_, _, _, _, hedges, _⟩
    · rw [hreads] at hno
      cases hno
    · exact hedges
  · -- What is accepted leads up over the start, which is no terminal.
    obtain ⟨head, e, he, _, _, _, hsole⟩ :=
      (hs.reduceAll ht).accepted_edge ht hentry hfinish haccepted
    obtain ⟨x, hleads⟩ := hfinished s hs hread head e he
    cases hsole _ hleads

end ParseJob

end LayeredSyntax
