/-
  ONLY CORRECT FORMULAS ARE GROUPED — the subtrees of a parse of expressions.

  As long as nothing was repaired, every subtree on the stacks is a leaf or shows a formula
  (`ParseJob.Grouped`).  Of a formula on an edge three things are known:

  1. It is correct.
  2. It may stand where it stands, on top of the node below.
  3. It may end where it ends: what comes next takes it on its left.

  **The crux** is that an operand and its operator meet in a cell, and that what the cell lets pass
  is what correctness asks for: the operator was read behind the left operand, which had ended in
  front of it, and the right operand stands on top of the node that has read it.

  So **a parse of expressions that counts no repairs ends with a correct formula**
  (`run_groups`).
-/
import LayeredSyntax.Proofs.Parse.Accepting

namespace LayeredSyntax

variable {ops : List (String × Precedence)} {id : GrammarId}

/-! ## Trees of formulas -/

/-- The leaf of a token that is written for a sign. -/
def Sign.leaf (ops : List (String × Precedence)) (id : GrammarId) (s : Sign (Fin ops.length))
    (token : Token) : Node :=
  let (name, named) := (s.terminal ops).leafName token.kind token.text
  .leaf name named (some id) s.code token.size

/-- **Whether a node shows a formula** over some tokens: it is a node of the production of the
    formula, over leaves and nodes that show the parts. -/
inductive Formula.Shows (ops : List (String × Precedence)) (id : GrammarId) :
    Formula (Fin ops.length) → List Token → Node → Prop where
  | number {before : Nat} {children : List Node} {token : Token}
      (htoken : Sign.number.Written ops token.kind token.text)
      (hchildren : children.filter (!·.isTrivia) = [Sign.number.leaf ops id token]) :
      Shows ops id number [token] (.rule "e" id 0 0 before children)
  | paren {before : Nat} {children : List Node} {opening closing : Token} {node : Node}
      {inner : Formula (Fin ops.length)} {tokens : List Token}
      (hopening : Sign.opening.Written ops opening.kind opening.text)
      (hinner : Shows ops id inner tokens node)
      (hclosing : Sign.closing.Written ops closing.kind closing.text)
      (hchildren : children.filter (!·.isTrivia) =
        [Sign.opening.leaf ops id opening, node, Sign.closing.leaf ops id closing]) :
      Shows ops id (paren inner) (opening :: (tokens ++ [closing]))
        (.rule "e" id 0 1 before children)
  | binary {before : Nat} {children : List Node} {op : Fin ops.length} {token : Token}
      {left right : Formula (Fin ops.length)} {leftNode rightNode : Node}
      {lefts rights : List Token} (hleft : Shows ops id left lefts leftNode)
      (htoken : (Sign.operator op).Written ops token.kind token.text)
      (hright : Shows ops id right rights rightNode)
      (hchildren : children.filter (!·.isTrivia) =
        [leftNode, (Sign.operator op).leaf ops id token, rightNode]) :
      Shows ops id (binary op left right) (lefts ++ token :: rights)
        (.rule "e" id 0 (2 + op) before children)

variable {e : Formula (Fin ops.length)} {tokens : List Token} {node : Node} {t : Table}

/-- A formula that is shown is spelled by the tokens. -/
theorem Formula.Shows.spells (h : e.Shows ops id tokens node) : e.Spells ops tokens := by
  induction h with
  | number htoken _ => exact .cons htoken .nil
  | paren hopening _ hclosing _ ih => exact .cons hopening (List.rel_append ih (.cons hclosing .nil))
  | binary _ htoken _ _ ihleft ihright => exact List.rel_append ihleft (.cons htoken ihright)

/-- Nodes of formulas are left where they are, and so are leaves. -/
theorem Formula.Shows.bare (h : e.Shows ops id tokens node) (ht : t.Climbs id ops) :
    t.bare [node] = [node] := by
  cases h <;> exact Composite.bare_rule_of_shown ht.nonterminal_zero.2.2

theorem Sign.bare_leaf (s : Sign (Fin ops.length)) (token : Token) :
    t.bare [s.leaf ops id token] = [s.leaf ops id token] := Composite.bare_of_shown rfl

/-! ## Steps over signs -/

/-- **The signs that lead from one spot to another.** -/
inductive Spot.Over {n : Nat} : Spot n → Sign (Fin n) → Spot n → Prop where
  | number (b : Base n) : Over (before b) .number number
  | opening (b : Base n) : Over (before b) .opening (before .paren)
  | closing : Over (after .paren) .closing closed
  | operator (b : Base n) (m : Fin n) : Over (after b) (.operator m) (before (.operand m))

theorem Spot.Step.over {n : Nat} {s : Sign (Fin n)} {spot spot' : Spot n}
    (h : spot.Step (.t s.code) spot') : spot.Over s spot' := by
  generalize hs : Sym.t s.code = sym at h
  cases h with
  | number b =>
    obtain rfl : s = .number := Sign.code_inj (Sym.t.inj hs)
    exact .number b
  | opening b =>
    obtain rfl : s = .opening := Sign.code_inj (Sym.t.inj hs)
    exact .opening b
  | expression => cases hs
  | operator b m =>
    obtain rfl : s = .operator m := Sign.code_inj (Sym.t.inj hs)
    exact .operator b m
  | closing =>
    obtain rfl : s = .closing := Sign.code_inj (Sym.t.inj hs)
    exact .closing

namespace ParseJob

variable {j : ParseJob} {regions : Regions} {p q x y : Nat} {above below bottom top : Face}
  {label : Label} {pieces : List Label} {spot : Spot ops.length}

/-- **What is known of a subtree between two nodes**: it is the leaf of a sign that was read, or it
    shows a correct formula. -/
inductive Grouped (j : ParseJob) (id : GrammarId) (ops : List (String × Precedence))
    (above below : Face) (label : Label) : Prop where
  | sign {s : Sign (Fin ops.length)} {token : Token}
      (htoken : j.tokens.get? below.position = some token)
      (hwritten : s.Written ops token.kind token.text) (hnode : label.node = s.leaf ops id token)
      (hposition : above.position = below.position + 1)
      (hshift : .shift above.state ∈ j.table.actionsAt below.state s.code)
  | expression {b : Base ops.length} {e : Formula (Fin ops.length)}
      (hbelow : j.table.At below.state (.before b)) (habove : j.table.At above.state (.after b))
      (hshows : e.Shows ops id
        (sliceOf j.tokens.significantTokens below.position above.position) label.node)
      (hcorrect : e.Correct (precedenceIn ops)) (htakes : b.Takes ops e)
      (hends : ∀ x ∈ j.terminalsAt above.position, e.EndsBefore ops x)

/-- A subtree that derives what leads from one state to another, and groups it. -/
structure GroupsBetween (j : ParseJob) (id : GrammarId) (ops : List (String × Precedence))
    (above below : Face) (label : Label) : Prop where
  between : j.DerivesBetween above below label
  grouped : j.Grouped id ops above below label

/-! ## Edges -/

/-- A subtree that does not lead behind an expression is the leaf of a sign. -/
theorem Grouped.of_sign (h : j.Grouped id ops above below label) (ht : j.table.Climbs id ops)
    (habove : j.table.At above.state spot) (hno : ∀ b, spot ≠ .after b) :
    ∃ (s : Sign (Fin ops.length)) (token : Token) (spot' : Spot ops.length),
      j.tokens.get? below.position = some token ∧ s.Written ops token.kind token.text ∧
      label.node = s.leaf ops id token ∧ above.position = below.position + 1 ∧
      j.table.At below.state spot' ∧ spot'.Over s spot ∧ spot'.Reads ops s.code := by
  cases h with
  | sign htoken hwritten hnode hposition hshift =>
    obtain ⟨spot', target, hspot', htarget, hstep, hreads⟩ := ht.of_shift hshift
    obtain rfl : target = spot := htarget.unique habove
    exact ⟨_, _, spot', htoken, hwritten, hnode, hposition, hspot', hstep.over, hreads⟩
  | expression _ hafter => exact absurd (habove.unique hafter) (hno _)

/-- **A subtree that leads behind an expression shows a correct formula.** -/
theorem Grouped.of_expression (h : j.Grouped id ops above below label)
    (ht : j.table.Climbs id ops) {b : Base ops.length}
    (habove : j.table.At above.state (.after b)) :
    ∃ e : Formula (Fin ops.length), j.table.At below.state (.before b) ∧
      e.Shows ops id (sliceOf j.tokens.significantTokens below.position above.position)
        label.node ∧
      e.Correct (precedenceIn ops) ∧ b.Takes ops e ∧
      ∀ x ∈ j.terminalsAt above.position, e.EndsBefore ops x := by
  cases h with
  | sign _ _ _ _ hshift =>
    obtain ⟨_, target, _, htarget, hstep, _⟩ := ht.of_shift hshift
    obtain rfl : target = .after b := htarget.unique habove
    cases hstep.over
  | expression hbelow hafter hshows hcorrect htakes hends =>
    obtain rfl := Spot.after.inj (hafter.unique habove)
    exact ⟨_, hbelow, hshows, hcorrect, htakes, hends⟩

theorem DerivesBetween.position_le (h : j.DerivesBetween above below label) :
    below.position ≤ above.position := by
  have hfirst := h.first_eq
  have hstop := h.stop_eq
  have hlt := h.lt
  omega

/-- The token between two positions. -/
theorem sliceOf_token (hj : j.Ready) {token : Token} (h : j.tokens.get? p = some token)
    (hq : q = p + 1) : sliceOf j.tokens.significantTokens p q = [token] :=
  hq ▸ sliceOf_succ ((hj.regular.getElem?_significantTokens p).trans h)

/-- The terminal of a token that is written for a sign. -/
theorem code_mem_terminalsAt (hj : j.Ready) (ht : j.table.Climbs id ops) {token : Token}
    (h : j.tokens.get? p = some token) {s : Sign (Fin ops.length)}
    (hs : s.Written ops token.kind token.text) : s.code ∈ j.terminalsAt p := by
  rw [hj.terminals h]
  exact ht.mem_terminalsFor.mpr ⟨s, rfl, hs⟩

/-- **There is one terminal at most** at a position. -/
theorem terminalsAt_unique (hj : j.Ready) (ht : j.table.Climbs id ops) (hp : p ≤ j.finish)
    (hx : x ∈ j.terminalsAt p) (hy : y ∈ j.terminalsAt p) : x = y := by
  rcases Nat.lt_or_eq_of_le hp with hlt | rfl
  · obtain ⟨token, htoken, _⟩ := hj.regular.token p hlt
    rw [hj.terminals htoken] at hx hy
    obtain ⟨s, rfl, hs⟩ := ht.mem_terminalsFor.mp hx
    obtain ⟨s', rfl, hs'⟩ := ht.mem_terminalsFor.mp hy
    rw [ht.written_unique hs hs']
  · rw [hj.terminals_finish] at hx hy
    exact (List.mem_singleton.mp hx).trans (List.mem_singleton.mp hy).symm

/-! ## Finishing a production -/

/-- **What the subtrees on a way down are put together to.** -/
structure Makes (j : ParseJob) (id : GrammarId) (ops : List (String × Precedence)) (q : Nat)
    (bottom top : Face) (pieces : List Label) (spot : Spot ops.length) (b : Base ops.length)
    (e : Formula (Fin ops.length)) : Prop where
  below : j.table.At bottom.state (.before b)
  shows : ∀ {before : Nat} {children : List Node},
    children.filter (!·.isTrivia) = j.bareOf pieces → e.Shows ops id
      (sliceOf j.tokens.significantTokens bottom.position top.position)
        (.rule "e" id 0 q before children)
  correct : e.Correct (precedenceIn ops)
  takes : b.Takes ops e
  ends : ∀ x, spot.Finishes ops x → e.EndsBefore ops x

/-- A number. -/
theorem makes_number (hj : j.Ready) (ht : j.table.Climbs id ops)
    (h : Trail (j.GroupsBetween id ops) bottom pieces top) (hlength : pieces.length = 1)
    (htop : j.table.At top.state (.number : Spot ops.length)) :
    ∃ b e, j.Makes id ops 0 bottom top pieces .number b e := by
  obtain ⟨label, rfl⟩ := List.length_eq_one_iff.mp hlength
  obtain ⟨s, token, spot, htoken, hwritten, hnode, hposition, hspot, hover, _⟩ :=
    h.of_one.grouped.of_sign ht htop fun _ hno => nomatch hno
  cases hover with
  | number b =>
    refine ⟨b, .number, hspot, fun hchildren => ?_, trivial, fun _ _ _ ho => (nomatch ho),
      fun _ _ _ _ _ ho => nomatch ho⟩
    rw [sliceOf_token hj htoken hposition]
    refine .number hwritten (hchildren.trans ?_)
    show j.table.bare [label.node] ++ [] = _
    rw [hnode, Sign.bare_leaf, List.append_nil]

/-- A formula in parentheses. -/
theorem makes_paren (hj : j.Ready) (ht : j.table.Climbs id ops)
    (h : Trail (j.GroupsBetween id ops) bottom pieces top) (hlength : pieces.length = 3)
    (htop : j.table.At top.state (.closed : Spot ops.length)) :
    ∃ b e, j.Makes id ops 1 bottom top pieces .closed b e := by
  obtain ⟨first, second, third, rfl⟩ := List.length_eq_three.mp hlength
  obtain ⟨low, high, hfirst, hsecond, hthird⟩ := h.of_three
  obtain ⟨s, closing, spot, hclosing, hwritten, hnode, hposition, hspot, hover, _⟩ :=
    hthird.grouped.of_sign ht htop fun _ hno => nomatch hno
  cases hover with
  | closing =>
    obtain ⟨inner, hinside, hshows, hcorrect, _, _⟩ := hsecond.grouped.of_expression ht hspot
    obtain ⟨s', opening, spot', hopening, hwritten', hnode', hposition', hspot', hover', _⟩ :=
      hfirst.grouped.of_sign ht hinside fun _ hno => nomatch hno
    cases hover' with
    | opening b =>
      refine ⟨b, .paren inner, hspot', fun hchildren => ?_, hcorrect,
        fun _ _ _ ho => (nomatch ho), fun _ _ _ _ _ ho => nomatch ho⟩
      have hle : low.position ≤ high.position := hsecond.between.position_le
      rw [← sliceOf_append (show bottom.position ≤ low.position by omega)
          (show low.position ≤ top.position by omega), sliceOf_token hj hopening hposition',
        ← sliceOf_append hle (show high.position ≤ top.position by omega),
        sliceOf_token hj hclosing hposition]
      refine .paren hwritten' hshows hwritten (hchildren.trans ?_)
      show j.table.bare [first.node] ++ (j.table.bare [second.node] ++
        (j.table.bare [third.node] ++ [])) = _
      rw [hnode, hnode', hshows.bare ht, Sign.bare_leaf, Sign.bare_leaf]
      rfl

/-- **Two formulas with an operator between them.** -/
theorem makes_binary (hj : j.Ready) (ht : j.table.Climbs id ops) {m : Fin ops.length}
    (h : Trail (j.GroupsBetween id ops) bottom pieces top) (hlength : pieces.length = 3)
    (htop : j.table.At top.state (.after (.operand m))) :
    ∃ b e, j.Makes id ops (2 + m) bottom top pieces (.after (.operand m)) b e := by
  obtain ⟨first, second, third, rfl⟩ := List.length_eq_three.mp hlength
  obtain ⟨low, high, hfirst, hsecond, hthird⟩ := h.of_three
  obtain ⟨right, hbefore, hright, hrightc, hrightt, _⟩ := hthird.grouped.of_expression ht htop
  obtain ⟨s, token, spot, htoken, hwritten, hnode, hposition, hspot, hover, hreads⟩ :=
    hsecond.grouped.of_sign ht hbefore fun _ hno => nomatch hno
  cases hover with
  | operator b =>
    obtain ⟨left, hbelow, hleft, hleftc, hleftt, hends⟩ := hfirst.grouped.of_expression ht hspot
    refine ⟨b, .binary m left right, hbelow, fun hchildren => ?_, ⟨?_, ?_, hleftc, hrightc⟩, ?_, ?_⟩
    · have hle : bottom.position ≤ low.position := hfirst.between.position_le
      have hle' : high.position ≤ top.position := hthird.between.position_le
      rw [← sliceOf_append hle (show low.position ≤ top.position by omega),
        ← sliceOf_append (show low.position ≤ high.position by omega) hle',
        sliceOf_token hj htoken hposition]
      refine .binary hleft hwritten hright (hchildren.trans ?_)
      show j.table.bare [first.node] ++ (j.table.bare [second.node] ++
        (j.table.bare [third.node] ++ [])) = _
      rw [hnode, hleft.bare ht, hright.bare ht, Sign.bare_leaf]
      rfl
    · -- The left operand has ended in front of the operator.
      exact hends _ (code_mem_terminalsAt hj ht htoken hwritten) m rfl
    · -- The right operand stands on top of the operator.
      exact hrightt m rfl
    · -- The operator was read behind what stands on the base.
      rintro k rfl o ho
      obtain rfl := Option.some.inj ho
      exact hreads k m rfl rfl
    · rintro x hfinishes k rfl o ho
      obtain rfl := Option.some.inj ho
      exact hfinishes m k rfl rfl

/-- **What is on a way down where a production is complete** is put together to a formula. -/
theorem exists_makes (hj : j.Ready) (ht : j.table.Climbs id ops)
    (h : Trail (j.GroupsBetween id ops) bottom pieces top) (htop : j.table.At top.state spot)
    (hdone : spot.done? = some q) (hlength : pieces.length = (j.table.production q).rhs.length) :
    (j.table.production q).lhs = 0 ∧ ∃ b e, j.Makes id ops q bottom top pieces spot b e := by
  match spot, hdone with
  | .number, hdone =>
    obtain rfl := Option.some.inj hdone
    rw [Composite.production_eq (ht.productions_iff.mpr .number)] at hlength ⊢
    exact ⟨rfl, makes_number hj ht h hlength htop⟩
  | .closed, hdone =>
    obtain rfl := Option.some.inj hdone
    rw [Composite.production_eq (ht.productions_iff.mpr .paren)] at hlength ⊢
    exact ⟨rfl, makes_paren hj ht h hlength htop⟩
  | .after (.operand m), hdone =>
    obtain rfl := Option.some.inj hdone
    rw [Composite.production_eq (ht.productions_iff.mpr (.joined m))] at hlength ⊢
    exact ⟨rfl, makes_binary hj ht h hlength htop⟩

/-- **Finishing a production groups correctly.** -/
theorem closed_groupsBetween (hj : j.Ready) (ht : j.table.Climbs id ops) (regions : Regions)
    (hp : p ≤ j.finish) : j.ClosedUnder regions p p (j.GroupsBetween id ops) := by
  intro bottom top pieces q target htrail hposition hcovered hq hlength hgoto
  have hbetween := htrail.mono fun h => h.between
  obtain ⟨hstop, hderives⟩ := closed_derivesBetween ht.canonical regions p hbetween hposition
    hcovered hq hlength hgoto
  obtain ⟨x, hx, hreduce⟩ := mem_reductions.mp hq
  obtain ⟨spot, hspot, hdone, hfinishes⟩ := ht.of_reduce hreduce
  obtain ⟨hlhs, b, e, hmakes⟩ := exists_makes hj ht htrail hspot hdone hlength
  obtain ⟨b', hbelow, habove⟩ := ht.at_of_goto hgoto
  obtain rfl := Spot.before.inj (hbelow.unique hmakes.below)
  refine ⟨hstop, hderives, .expression hbelow habove ?_ hmakes.correct hmakes.takes
    fun y hy => ?_⟩
  · obtain ⟨hname, hgrammar, hhidden⟩ := ht.nonterminal_zero
    obtain ⟨_, production, _, hproduction, _, _, hne⟩ :=
      exists_of_mem_reductions ht.canonical hq
    rw [Composite.production_eq hproduction] at hlength
    have hpieces : pieces ≠ [] :=
      List.length_pos_iff.mp (hlength ▸ List.length_pos_iff.mpr hne)
    have htight := tight_of_trail hbetween
    rw [hposition] at htight
    have hleft : (j.assemble regions true bottom.position p pieces).children.filter
        (!·.isTrivia) = j.bareOf pieces := by
      show j.left true _ = _
      exact left_assemble htight
    rw [reduceLabel_of_tight regions q bottom.state htight hpieces, hlhs]
    dsimp only
    rw [hname, hgrammar, hhidden, ← hposition]
    exact hmakes.shows (hposition ▸ hleft)
  · rw [terminalsAt_unique hj ht hp hy hx]
    exact hmakes.ends x hfinishes

/-- The leaf that is made of a token for a sign. -/
theorem leaf_eq (ht : j.table.Climbs id ops) {token : Token} (h : j.tokens.get? p = some token)
    {s : Sign (Fin ops.length)} {target : Nat} (htarget : j.table.At target spot) :
    j.leaf p s.code target = s.leaf ops id token := by
  obtain ⟨row, item, rest, hrow, hkernel, hgrammar⟩ := ht.grammar_of_at htarget
  unfold leaf
  rw [h, ht.terminal?_code s, hrow]
  dsimp only [Option.bind_eq_bind, Option.bind_some]
  rw [hkernel]
  dsimp only [List.head?_cons, Option.bind_some]
  rw [hgrammar]
  rfl

/-- **Reading a token groups it as a sign.** -/
theorem closedUnderShift_groupsBetween (hj : j.Ready) (ht : j.table.Climbs id ops)
    (hp : p < j.finish) : j.ClosedUnderShift p p (j.GroupsBetween id ops) := by
  intro bottom x target target' state hposition hcovered hshift hshift'
  refine ⟨closedUnderShift_derivesBetween hj ht.canonical hp hposition hcovered hshift hshift', ?_⟩
  obtain ⟨hx, haction⟩ := mem_shifts.mp hshift
  obtain ⟨_, haction'⟩ := mem_shifts.mp hshift'
  obtain ⟨token, htoken, _, _⟩ := hj.regular.token p hp
  rw [hj.terminals htoken] at hx
  obtain ⟨s, rfl, hs⟩ := ht.mem_terminalsFor.mp hx
  obtain ⟨_, _, _, htarget', _, _⟩ := ht.of_shift haction'
  exact .sign (hposition ▸ htoken) hs (leaf_eq ht htoken htarget')
    (congrArg (· + 1) hposition.symm) haction

end ParseJob

/-! ## Runs -/

namespace Progress

variable {j : ParseJob} {s : Progress} {entry : Entry}

/-- **What is kept in every turn without repairs** of a parse of expressions. -/
structure Groups (j : ParseJob) (id : GrammarId) (ops : List (String × Precedence)) (entry : Entry)
    (s : Progress) : Prop where
  derived : s.Derived j entry
  edges : s.stack.Edges (j.GroupsBetween id ops)

theorem Groups.reduceAll (hs : s.Groups j id ops entry) (hj : j.Ready)
    (ht : j.table.Climbs id ops) : (s.reduceAll j).Groups j id ops entry := by
  obtain ⟨base, hfresh, _⟩ := hs.derived.fresh
  obtain ⟨_, hedges, _⟩ := ParseJob.reduceAll_fresh ht.canonical
    (ParseJob.closed_groupsBetween hj ht s.regions hs.derived.position_le) hfresh hs.edges
  exact ⟨hs.derived.reduceAll ht.canonical, hedges⟩

theorem Groups.shift (hs : s.Groups j id ops entry) (hj : j.Ready) (ht : j.table.Climbs id ops)
    (hne : s.position ≠ j.finish) (hreads : (s.shift j).1 = true) :
    (s.shift j).2.Groups j id ops entry ∧ (s.shift j).2.position = s.position + 1 := by
  obtain ⟨base, hfresh, _⟩ := hs.derived.fresh
  obtain ⟨hderived, hposition⟩ := hs.derived.shift hj ht.canonical hne hreads
  have hlt : s.position < j.finish := Nat.lt_of_le_of_ne hs.derived.position_le hne
  rcases ParseJob.shift_spec (ParseJob.closedUnderShift_groupsBetween hj ht hlt) hfresh.standing
    hs.edges with ⟨hno, _⟩ | ⟨_, _, _, _, hedges, _⟩
  · rw [hreads] at hno
    cases hno
  · exact ⟨⟨hderived, hedges⟩, hposition⟩

/-- **What is accepted shows a correct formula** over all tokens. -/
theorem Groups.accepted (hs : s.Groups j id ops entry) (hj : j.Ready)
    (ht : j.table.Climbs id ops) (hentry : j.table.entry? j.grammar = some entry)
    (hfinish : s.position = j.finish) {label : Label} (h : s.accepted? j = some label) :
    ParseJob.Tight 0 j.finish [label] ∧ ∃ e : Formula (Fin ops.length),
      e.Correct (precedenceIn ops) ∧ e.Shows ops id j.tokens.significantTokens label.node := by
  obtain ⟨htight, _⟩ := hs.derived.accepted ht.canonical hentry hfinish h
  obtain ⟨base, hfresh, _⟩ := hs.derived.fresh
  obtain ⟨head, hhead, edge, hedge, rfl, haccept⟩ := exists_of_accepted? h
  obtain ⟨hbase, hlt⟩ := hfresh.mem_heads.mp hhead
  have htop : (s.stack.face head).position = j.finish := (hfresh.top head hbase hlt).1.trans hfinish
  obtain ⟨hbetween, hgrouped⟩ := hs.edges head edge hedge
  have hbottom : (s.stack.face edge.below).position = 0 := hbetween.first_eq.symm.trans htight.1
  obtain ⟨e, _, hshows, hcorrect, _⟩ := hgrouped.of_expression ht (ht.accept_iff.mp haccept)
  rw [htop, hbottom, ParseJob.sliceOf_all hj] at hshows
  exact ⟨htight, e, hcorrect, hshows⟩

end Progress

namespace ParseJob

variable {j : ParseJob} {entry : Entry}

/-- **A parse of expressions that counts no repairs ends with a correct formula.** -/
theorem run_groups [Limits] (hj : j.Ready) (ht : j.table.Climbs id ops) (hreuse : j.reuse = none)
    (hentry : j.table.entry? j.grammar = some entry) (hpos : j.finish ≠ 0)
    (hrepairs : j.run.counts.repairs = 0) : ∃ children node, ∃ e : Formula (Fin ops.length),
      j.run.tree = .root j.grammar children ∧ children.filter (!·.isTrivia) = [node] ∧
        e.Correct (precedenceIn ops) ∧ e.Shows ops id j.tokens.significantTokens node := by
  refine run_of_clean (I := fun s => s.Groups j id ops entry)
    (Q := fun r => ∃ children node, ∃ e : Formula (Fin ops.length),
      r.tree = .root j.grammar children ∧ children.filter (!·.isTrivia) = [node] ∧
        e.Correct (precedenceIn ops) ∧ e.Shows ops id j.tokens.significantTokens node)
    hreuse hentry hpos ⟨Progress.derived_entered j entry, j.entered_edges entry.state⟩
    (fun s hs => hs.derived.position_le)
    (fun s hs hne hreads => (hs.reduceAll hj ht).shift hj ht hne hreads)
    (fun s label hs hfinish haccepted => ?_) hrepairs
  obtain ⟨htight, e, hcorrect, hshows⟩ := (hs.reduceAll hj ht).accepted hj ht hentry hfinish haccepted
  obtain ⟨children, htree, hchildren⟩ := children_close hpos htight
  rw [hshows.bare ht] at hchildren
  exact ⟨children, label.node, e, htree, hchildren, hcorrect, hshows⟩

end ParseJob

end LayeredSyntax
