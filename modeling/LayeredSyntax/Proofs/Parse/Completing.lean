/-
  SENTENCES ARE ACCEPTED — no derivation gets lost on the way.

  A stack is COMPLETE up to a position when everything that its nodes could do before that position
  has been done: every token has been read at every node that can read it, and every production has
  been finished along every way on which it can be finished (`ParseJob.Complete`).  Reading keeps
  this, and finishing everything establishes it for the position at hand, which rests on the queue
  of tasks running out (`reduceAll_decided`).

  1. What a node waits for and what is generated before the position has been parsed: **from the
     node a way leads up to one that has it behind it** (`Complete.exists_path`).
  2. Where the position lies inside of what is generated, some head can read its terminal
     (`Complete.exists_shift`).

  Both are inductions on what is generated, an item of the node in hand.  FOLLOW is large enough
  since what comes next always can follow what was finished (`GeneratesBy.follows`).  So a parse of a
  sentence is never stuck and ends without repairs, if no conflict of the table was settled
  (`run_completes`).  The productions that generate the sentence have to be short, as there is no
  place behind more symbols.
-/
import Mathlib.Data.List.Forall2
import LayeredSyntax.Proofs.Parse.Deriving
import LayeredSyntax.Proofs.Parse.Saturating
import LayeredSyntax.Proofs.Table.Sentences

namespace LayeredSyntax

namespace ParseJob

variable {j : ParseJob} {s : Stack} {read finished : Nat}

/-- **Whether everything has been done**: tokens before one position have been read, and productions
    before another one have been finished. -/
structure Complete (j : ParseJob) (read finished : Nat) (s : Stack) : Prop where
  reads : ∀ {i : Nat} {step : Nat × Nat}, i < s.nodes.size → (s.face i).position < read →
    step ∈ j.shifts (s.face i).state (s.face i).position →
      s.Joined 0 ⟨step.2, (s.face i).position + 1, (s.face i).position + 1⟩ i
  finishes : ∀ {i q n b target : Nat}, i < s.nodes.size → (s.face i).position < finished →
    q ∈ j.reductions (s.face i).state (s.face i).position →
    (j.table.production q).rhs.length = n + 1 → s.Path i (n + 1) b →
    j.table.goto? (s.face b).state (j.table.production q).lhs = some target →
      s.Joined 0 ⟨target, (s.face i).position, (s.face i).position⟩ b

/-! ## Completeness is kept -/

theorem Joined.of_base {base b : Nat} {f : Face} (h : s.Joined base f b) : s.Joined 0 f b := by
  obtain ⟨i, _, hi⟩ := h
  exact ⟨i, Nat.zero_le _, hi⟩

/-- **Finishing everything at a position.** -/
theorem reduceAll_complete (ht : j.table.Canonical) {entry : Entry} {p : Progress}
    (hp : p.Derived j entry) (h : j.Complete p.position p.position p.stack) :
    j.Complete p.position (p.position + 1) (p.reduceAll j).stack := by
  obtain ⟨base, hfresh, holder⟩ := hp.fresh
  obtain ⟨hfresh', _, hkept⟩ := reduceAll_fresh ht
    (closed_derivesBetween ht p.regions p.position) hfresh hp.edges
  have hbase_le := hfresh.base_le
  -- Nodes in front of the position are below the heads, and those are as they were.
  have hbelow : ∀ {i}, i < (p.reduceAll j).stack.nodes.size →
      ((p.reduceAll j).stack.face i).position < p.position →
        i < base ∧ (p.reduceAll j).stack.face i = p.stack.face i := by
    intro i hi hposition
    rcases Nat.lt_or_ge i base with hlt | hge
    · exact ⟨hlt, hkept.face i (by omega)⟩
    · rw [(hfresh'.top i hge hi).1] at hposition
      exact absurd hposition (Nat.lt_irrefl _)
  refine ⟨fun {i step} hi hposition hstep => ?_,
    fun {i q n b target} hi hposition hq hlen hpath hgoto => ?_⟩
  · obtain ⟨hlt, hface⟩ := hbelow hi hposition
    rw [hface] at hposition hstep ⊢
    exact (h.reads (by omega) hposition hstep).kept hkept
  · rcases Nat.lt_or_eq_of_le (Nat.le_of_lt_succ hposition) with hposition | hposition
    · obtain ⟨hlt, hface⟩ := hbelow hi hposition
      have hpath' := hfresh.path_of_kept hkept hlt hpath
      have hb : b < p.stack.nodes.size := by
        have := hfresh.path_le hpath'
        omega
      rw [hkept.face b hb] at hgoto
      rw [hface] at hposition hq ⊢
      exact (h.finishes (by omega) hposition hq hlen hpath' hgoto).kept hkept
    · have hge : base ≤ i := by
        rcases Nat.lt_or_ge i base with hlt | hge
        · have := holder i hlt
          rw [hkept.face i (by omega)] at hposition
          omega
        · exact hge
      rw [hposition] at hq ⊢
      have hdecided := reduceAll_decided ht (closed_derivesBetween ht p.regions p.position)
        hfresh hp.edges hge hi hq hlen hpath hgoto
      exact Joined.of_base hdecided.joined

/-- **Reading the token of a position.** -/
theorem shift_complete (hj : j.Ready) (ht : j.table.Canonical) {entry : Entry} {p : Progress}
    (hp : p.Derived j entry) (hne : p.position ≠ j.finish) (hreads : (p.shift j).1 = true)
    (h : j.Complete p.position (p.position + 1) p.stack) :
    j.Complete (p.position + 1) (p.position + 1) (p.shift j).2.stack := by
  obtain ⟨base, hfresh, holder⟩ := hp.fresh
  have hlt : p.position < j.finish := Nat.lt_of_le_of_ne hp.position_le hne
  rcases shift_spec (closedUnderShift_derivesBetween hj ht hlt) hfresh.standing hp.edges with
    ⟨hno, _⟩ | ⟨_, _, _, hfresh', _, hold, _, hjoined⟩
  · rw [hreads] at hno
    cases hno
  have hsize : p.stack.nodes.size ≤ (p.shift j).2.stack.nodes.size := hfresh'.base_le
  have hface : ∀ i < p.stack.nodes.size, (p.shift j).2.stack.face i = p.stack.face i :=
    fun i hi => congrArg StackNode.face (hold i hi)
  -- Nothing that was joined is lost.
  have hkeep : ∀ {f b}, p.stack.Joined 0 f b → (p.shift j).2.stack.Joined 0 f b := by
    rintro f b ⟨i, _, hi, hf, e, he, hb⟩
    refine ⟨i, Nat.zero_le _, by omega, (hface i hi).trans hf, e, ?_, hb⟩
    have hedges : (p.shift j).2.stack.edges i = p.stack.edges i :=
      congrArg StackNode.edges (hold i hi)
    rw [hedges]
    exact he
  have hbelow : ∀ {i}, i < (p.shift j).2.stack.nodes.size →
      ((p.shift j).2.stack.face i).position < p.position + 1 → i < p.stack.nodes.size := by
    intro i hi hposition
    rcases Nat.lt_or_ge i p.stack.nodes.size with hlt | hge
    · exact hlt
    · rw [(hfresh'.top i hge hi).1] at hposition
      exact absurd hposition (Nat.lt_irrefl _)
  refine ⟨fun {i step} hi hposition hstep => ?_,
    fun {i q n b target} hi hposition hq hlen hpath hgoto => ?_⟩
  · have hilt := hbelow hi hposition
    rw [hface i hilt] at hposition hstep ⊢
    rcases Nat.lt_or_eq_of_le (Nat.le_of_lt_succ hposition) with hposition | hposition
    · exact hkeep (h.reads hilt hposition hstep)
    · have hge : base ≤ i := by
        rcases Nat.lt_or_ge i base with hlt | hge
        · have := holder i hlt
          omega
        · exact hge
      rw [hposition] at hstep ⊢
      exact Joined.of_base (hjoined (i, step) ((mem_stepsAt hfresh.standing).mpr
        ⟨hfresh.mem_heads.mpr ⟨hge, hilt⟩, hilt, hposition, (hfresh.top i hge hilt).2, hstep⟩))
  · have hilt := hbelow hi hposition
    have hpath' := Stack.path_of_node_eq hold (fun i e he => (hfresh.down i e he).1) hilt hpath
    have hb : b < p.stack.nodes.size := Nat.lt_of_le_of_lt (hfresh.path_le hpath') hilt
    rw [hface b hb] at hgoto
    rw [hface i hilt] at hposition hq ⊢
    exact hkeep (h.finishes hilt hposition hq hlen hpath' hgoto)

/-! ## Steps of a derivation -/

/-- A node at a position with the kernel of its state. -/
structure Stands (j : ParseJob) (s : Stack) (k p : Nat) (kernel : List Item) : Prop where
  lt : k < s.nodes.size
  position : (s.face k).position = p
  kernel : j.table.kernel? (s.face k).state = some kernel

variable {k b p p' q : Nat} {kernel kernel' : List Item} {item : Item}

/-- What has been joined to a node stands one step above it. -/
theorem stands_of_joined {target : Nat} (h : s.Joined 0 ⟨target, p, p⟩ b)
    (hkernel : j.table.kernel? target = some kernel) :
    ∃ k, j.Stands s k p kernel ∧ s.Path k 1 b := by
  obtain ⟨k, _, hlt, hface, e, he, hbelow⟩ := h
  refine ⟨k, ⟨hlt, by rw [hface], by rw [hface]; exact hkernel⟩, e, he, hbelow⟩

/-- A node that waits for a terminal can read it. -/
theorem Stands.exists_shift (hb : j.Stands s b p kernel) (ht : j.table.Canonical)
    (hu : j.table.Unpruned) {x : Nat} (hx : x ∈ j.terminalsAt p)
    (hitem : j.table.InState kernel item) (hnext : j.table.nextSymbol? item = some (.t x)) :
    ∃ target moved, (x, target) ∈ j.shifts (s.face b).state p ∧
      j.table.kernel? target = some moved ∧ item.advance ∈ moved := by
  obtain ⟨moved, hmove⟩ := Composite.exists_isMove ht.wellFormed hitem hnext
  obtain ⟨target, haction, htarget⟩ := hu.shift_exists hb.kernel hmove
  exact ⟨target, moved, mem_shifts.mpr ⟨hx, haction⟩, htarget,
    (hmove.mem_iff _).mpr ⟨item, hitem, hnext, rfl⟩⟩

/-- **Over a terminal**: the node that has read it. -/
theorem Complete.over_terminal (h : j.Complete read finished s) (ht : j.table.Canonical)
    (hu : j.table.Unpruned) (hb : j.Stands s b p kernel) (hp : p < read) {x : Nat}
    (hx : x ∈ j.terminalsAt p) (hitem : j.table.InState kernel item)
    (hnext : j.table.nextSymbol? item = some (.t x)) :
    ∃ k moved, j.Stands s k (p + 1) moved ∧ s.Path k 1 b ∧ item.advance ∈ moved := by
  obtain ⟨target, moved, hshift, htarget, hadvance⟩ := hb.exists_shift ht hu hx hitem hnext
  have hjoined := h.reads hb.lt (hb.position ▸ hp) (hb.position ▸ hshift)
  rw [hb.position] at hjoined
  obtain ⟨k, hk, hpath⟩ := stands_of_joined hjoined htarget
  exact ⟨k, moved, hk, hpath, hadvance⟩

/-- **Over a nonterminal**: the node behind a production that was finished. -/
theorem Complete.over_nonterminal (h : j.Complete read finished s) (ht : j.table.Canonical)
    (hu : j.table.Unpruned) (hb : j.Stands s b p kernel) {production : Production}
    (hq : j.table.productions[q]? = some production) (hshort : production.Short)
    (hitem : j.table.InState kernel item)
    (hnext : j.table.nextSymbol? item = some (.n production.lhs))
    (hk : j.Stands s k p' kernel') (hpath : s.Path k production.rhs.length b)
    (hend : j.table.InState kernel' (.behind q production.rhs.length)) (hp' : p' < finished) {x : Nat}
    (hx : x ∈ j.terminalsAt p') (hfollow : j.table.Follows production.lhs x) :
    ∃ k moved, j.Stands s k p' moved ∧ s.Path k 1 b ∧ item.advance ∈ moved := by
  obtain ⟨moved, hmove⟩ := Composite.exists_isMove ht.wellFormed hitem hnext
  obtain ⟨target, hgoto, htarget⟩ := ht.goto_exists hb.kernel hmove
  have hpos : 0 < production.rhs.length := List.length_pos_iff.mpr
    (ht.wellFormed.productions production (Array.mem_of_getElem? hq)).rhs_ne_nil
  -- The production can be finished, since what comes next can follow it.
  have hmem := hend.mem_of_pos (Item.behind_ne_zero (Nat.ne_of_gt hpos) hshort)
  have hreduce := hu.reduce_exists hk.kernel hq hshort hmem
    (ht.wellFormed.hasSymbol_next hnext).2 hfollow
  have hproduction := Composite.production_eq hq
  obtain ⟨n, hn⟩ := Nat.exists_eq_add_one.mpr hpos
  rw [hn] at hpath
  rw [← hproduction] at hn hgoto
  have hjoined := h.finishes hk.lt (hk.position ▸ hp')
    (mem_reductions.mpr ⟨x, hk.position ▸ hx, hreduce⟩) hn hpath hgoto
  rw [hk.position] at hjoined
  obtain ⟨k', hk', hpath'⟩ := stands_of_joined hjoined htarget
  exact ⟨k', moved, hk', hpath', (hmove.mem_iff _).mpr ⟨item, hitem, hnext, rfl⟩⟩

/-! ## Derivations -/

variable {xs ys front back : List Nat} {syms : List Sym} {production : Production} {r d : Nat}

/-- Whether terminals can be chosen for the tokens of a job. -/
def Chosen (j : ParseJob) (xs : List Nat) : Prop :=
  ∀ {front back : List Nat}, xs = front ++ back →
    Composite.nextOf back ∈ j.terminalsAt front.length

/-- The symbol behind the place of an item, and what is left behind it. -/
theorem nextSymbol?_of_drop {sym : Sym} (hr : j.table.productions[r]? = some production)
    (hshort : production.Short) (hdrop : production.rhs.drop d = sym :: syms) :
    j.table.nextSymbol? (.behind r d) = some sym ∧ production.rhs.drop (d + 1) = syms ∧
      d + 1 ≤ production.rhs.length ∧ production.rhs = production.rhs.take d ++ sym :: syms := by
  have hhead : production.rhs[d]? = some sym := by
    have hfirst : (production.rhs.drop d)[0]? = some sym := by rw [hdrop]; rfl
    rwa [List.getElem?_drop, Nat.add_zero] at hfirst
  have hlt : d < production.rhs.length := (List.getElem?_eq_some_iff.mp hhead).1
  refine ⟨(Composite.nextSymbol?_behind hr (Nat.lt_trans hlt hshort)).mpr hhead, ?_, hlt, ?_⟩
  · rw [← List.drop_drop, hdrop]
    rfl
  · rw [← hdrop, List.take_append_drop]

/-- **What was generated in front of the position has been parsed.** -/
theorem Complete.exists_path (h : j.Complete read (read + 1) s) (ht : j.table.Canonical)
    (hu : j.table.Unpruned) (hxs : j.Chosen xs) (hg : j.table.GeneratesBy Production.Short syms ys) :
    ∀ {front back : List Nat} {b r d : Nat} {kernel : List Item} {production : Production},
      xs = front ++ (ys ++ back) → j.Stands s b front.length kernel →
      j.table.InState kernel (.behind r d) → j.table.productions[r]? = some production →
      production.Short → d ≤ production.rhs.length → production.rhs.drop d = syms →
      front.length + ys.length ≤ read →
      j.table.Follows production.lhs (Composite.nextOf back) →
      ∃ k kernel', j.Stands s k (front ++ ys).length kernel' ∧ s.Path k syms.length b ∧
        j.table.InState kernel' (.behind r production.rhs.length) := by
  induction hg with
  | nil =>
    intro front back b r d kernel production _ hb hitem _ _ hd hdrop _ _
    obtain rfl : d = production.rhs.length := Nat.le_antisymm hd (List.drop_eq_nil_iff.mp hdrop)
    rw [List.append_nil]
    exact ⟨b, kernel, hb, rfl, hitem⟩
  | @terminal x syms ys _ ih =>
    intro front back b r d kernel production hsplit hb hitem hr hshort hd hdrop hle hfollow
    obtain ⟨hnext, hrest, hd, _⟩ := nextSymbol?_of_drop hr hshort hdrop
    rw [List.length_cons] at hle
    -- The terminal has been read, and the rest goes on from there.
    obtain ⟨k, moved, hk, hpath, hadvance⟩ :=
      h.over_terminal ht hu hb (by omega) (hxs hsplit) hitem hnext
    rw [Item.advance_behind] at hadvance
    have hlength : front.length + 1 = (front ++ [x]).length := by
      rw [List.length_append]
      rfl
    rw [hlength] at hk
    obtain ⟨k', kernel', hk', hpath', hend⟩ := ih (by simpa using hsplit)
      hk (.kernel hadvance) hr hshort hd hrest (by omega) hfollow
    refine ⟨k', kernel', ?_, hpath'.trans hpath, hend⟩
    rwa [List.append_assoc] at hk'
  | @rule q p syms inside ys hq hp _ hrestg ihinside ih =>
    intro front back b r d kernel production hsplit hb hitem hr hshort hd hdrop hle hfollow
    obtain ⟨hnext, hrest, hd, hrhs⟩ := nextSymbol?_of_drop hr hshort hdrop
    rw [List.length_append] at hle
    rw [List.append_assoc] at hsplit
    have hbehind : j.table.Follows p.lhs (Composite.nextOf (ys ++ back)) :=
      hrestg.follows ht.wellFormed hr hrhs fun _ => hfollow
    -- First the inside of the nonterminal, from the same node.
    obtain ⟨k, kernel', hk, hpath, hend⟩ := ihinside (d := 0) hsplit hb (.begun hitem hnext hq) hq hp
      (Nat.zero_le _) List.drop_zero (by omega) hbehind
    have hsplit' : xs = front ++ inside ++ (ys ++ back) := by rw [hsplit, List.append_assoc]
    have hlength : (front ++ inside).length = front.length + inside.length := List.length_append
    -- Then the production is finished, back down to that node.
    obtain ⟨k', moved, hk', hpath', hadvance⟩ := h.over_nonterminal ht hu hb hq hp hitem hnext hk
      hpath hend (by omega) (hxs hsplit') hbehind
    rw [Item.advance_behind] at hadvance
    obtain ⟨k'', kernel'', hk'', hpath'', hend'⟩ := ih hsplit' hk' (.kernel hadvance) hr hshort hd
      hrest (by omega) hfollow
    refine ⟨k'', kernel'', ?_, hpath''.trans hpath', hend'⟩
    rwa [List.append_assoc] at hk''

/-- **Where the position lies inside of what is generated, its terminal can be read.** -/
theorem Complete.exists_shift (h : j.Complete read (read + 1) s) (ht : j.table.Canonical)
    (hu : j.table.Unpruned) (hxs : j.Chosen xs) (hg : j.table.GeneratesBy Production.Short syms ys) :
    ∀ {front back : List Nat} {b r d : Nat} {kernel : List Item} {production : Production},
      xs = front ++ (ys ++ back) → j.Stands s b front.length kernel →
      j.table.InState kernel (.behind r d) → j.table.productions[r]? = some production →
      production.Short → d ≤ production.rhs.length → production.rhs.drop d = syms →
      front.length ≤ read → read < front.length + ys.length →
      ∃ k kernel' step, j.Stands s k read kernel' ∧ step ∈ j.shifts (s.face k).state read := by
  induction hg with
  | nil =>
    intro front back b r d kernel production _ _ _ _ _ _ _ hle hlt
    exact absurd hle (Nat.not_le.mpr hlt)
  | @terminal x syms ys _ ih =>
    intro front back b r d kernel production hsplit hb hitem hr hshort hd hdrop hle hlt
    obtain ⟨hnext, hrest, hd, _⟩ := nextSymbol?_of_drop hr hshort hdrop
    rw [List.length_cons] at hlt
    rcases Nat.lt_or_eq_of_le hle with hle | rfl
    · -- The terminal lies in front of the position.
      obtain ⟨k, moved, hk, _, hadvance⟩ :=
        h.over_terminal ht hu hb hle (hxs hsplit) hitem hnext
      rw [Item.advance_behind] at hadvance
      have hlength : front.length + 1 = (front ++ [x]).length := by
        rw [List.length_append]
        rfl
      rw [hlength] at hk
      exact ih (by simpa using hsplit) hk (.kernel hadvance) hr hshort hd hrest (by omega)
        (by omega)
    · -- It is the one at the position.
      obtain ⟨target, _, hshift, _⟩ := hb.exists_shift ht hu (hxs hsplit) hitem hnext
      exact ⟨b, kernel, _, hb, hshift⟩
  | @rule q p syms inside ys hq hp hinside hrestg ihinside ih =>
    intro front back b r d kernel production hsplit hb hitem hr hshort hd hdrop hle hlt
    obtain ⟨hnext, hrest, hd, hrhs⟩ := nextSymbol?_of_drop hr hshort hdrop
    rw [List.length_append] at hlt
    rw [List.append_assoc] at hsplit
    rcases Nat.lt_or_ge read (front.length + inside.length) with hin | hout
    · exact ihinside (d := 0) hsplit hb (.begun hitem hnext hq) hq hp (Nat.zero_le _) List.drop_zero
        hle hin
    · -- Something is left behind the nonterminal, so there is a next symbol that follows it.
      have hbehind : j.table.Follows p.lhs (Composite.nextOf (ys ++ back)) := by
        refine hrestg.follows ht.wellFormed hr hrhs fun hnil => ?_
        subst hnil
        cases hrestg
        exact absurd hlt (by simpa using hout)
      obtain ⟨k, kernel', hk, hpath, hend⟩ := h.exists_path (d := 0) ht hu hxs hinside hsplit hb
        (.begun hitem hnext hq) hq hp (Nat.zero_le _) List.drop_zero hout hbehind
      have hsplit' : xs = front ++ inside ++ (ys ++ back) := by rw [hsplit, List.append_assoc]
      have hlength : (front ++ inside).length = front.length + inside.length := List.length_append
      obtain ⟨k', moved, hk', _, hadvance⟩ := h.over_nonterminal ht hu hb hq hp hitem hnext hk
        hpath hend (by omega) (hxs hsplit') hbehind
      rw [Item.advance_behind] at hadvance
      exact ih hsplit' hk' (.kernel hadvance) hr hshort hd hrest (by omega) (by omega)

/-! ## Runs -/

/-- Terminals that the tokens can be taken for, with the end of the text behind them. -/
theorem chosen_of_forall₂ (hj : j.Ready) (h : List.Forall₂ (fun x token =>
    x ∈ j.table.terminalsFor token.kind token.text) xs j.tokens.significantTokens) :
    j.Chosen xs := by
  have hlength : xs.length = j.finish := h.length_eq.trans hj.regular.length_significantTokens
  rintro front back rfl
  cases back with
  | nil =>
    rw [List.append_nil] at hlength
    rw [hlength, hj.terminals_finish]
    exact List.mem_cons_self
  | cons x back =>
    rw [List.length_append, List.length_cons] at hlength
    have hlt : front.length < j.tokens.significantTokens.length := by
      rw [hj.regular.length_significantTokens]
      show front.length < j.finish
      omega
    have hchosen : (front ++ x :: back)[front.length]? = some x := by
      rw [List.getElem?_append_right (Nat.le_refl _), Nat.sub_self]
      rfl
    obtain ⟨hlt', hchosen⟩ := List.getElem?_eq_some_iff.mp hchosen
    have hx : (front ++ x :: back)[front.length] ∈ j.table.terminalsFor
        j.tokens.significantTokens[front.length].kind
        j.tokens.significantTokens[front.length].text := h.get hlt' hlt
    rw [hchosen] at hx
    have htoken : j.tokens.get? front.length = some j.tokens.significantTokens[front.length] := by
      rw [← hj.regular.getElem?_significantTokens, List.getElem?_eq_getElem hlt]
    rw [hj.terminals htoken]
    exact hx

variable {entry : Entry} {p : Progress}

/-- The bottom of the stacks stands at the entry. -/
theorem stands_bottom (hp : p.Derived j entry) (ht : j.table.Canonical)
    (hentry : j.table.entry? j.grammar = some entry) :
    ∃ r production, j.Stands p.stack 0 0 [⟨r, 0⟩] ∧ j.table.productions[r]? = some production ∧
      production.Short ∧ production.rhs = [.n entry.start] ∧
      j.table.Follows production.lhs endOfText ∧
      ∀ {state : Nat} {kernel : List Item}, j.table.kernel? state = some kernel →
        ⟨r, 1⟩ ∈ kernel → .accept ∈ j.table.actionsAt state endOfText := by
  obtain ⟨r, hr, hstart, hkernel⟩ := ht.entry hentry
  obtain ⟨production, hproduction, hrhs, hroot⟩ := ht.wellFormed.root r hr
  have hlt := (ht.wellFormed.productions production (Array.mem_of_getElem? hproduction)).lhs_lt
  refine ⟨r.production, production, ⟨hp.some_node, ?_, ?_⟩, hproduction,
    ht.wellFormed.short_root hr hproduction, hstart ▸ hrhs, .root hlt hroot,
    fun hstate hmem => ht.accept_exists hstate hr hmem⟩
  · rw [hp.bottom]
  · rw [hp.bottom]
    exact hkernel

/-- **A parse is not stuck** where a node accepts at the end of the text, or can read the token. -/
theorem not_stuck_of_node (hj : j.Ready) (ht : j.table.Canonical) (hp : p.Derived j entry)
    (haccept : p.position = j.finish → ∃ k < (p.reduceAll j).stack.nodes.size,
      ((p.reduceAll j).stack.face k).position = p.position ∧ (p.reduceAll j).stack.edges k ≠ [] ∧
        .accept ∈ j.table.actionsAt ((p.reduceAll j).stack.face k).state endOfText)
    (hread : p.position ≠ j.finish → ∃ k < (p.reduceAll j).stack.nodes.size,
      ((p.reduceAll j).stack.face k).position = p.position ∧
        ∃ step, step ∈ j.shifts ((p.reduceAll j).stack.face k).state p.position)
    {p' : Progress} : ¬ p.Stuck j p' := by
  have hp' := hp.reduceAll ht
  obtain ⟨base, hfresh, holder⟩ := hp'.fresh
  -- A node at the position is a head.
  have hhead : ∀ {k}, ((p.reduceAll j).stack.face k).position = p.position → base ≤ k := by
    intro k hk
    rcases Nat.lt_or_ge k base with hlt | hge
    · exact absurd hk (Nat.ne_of_lt (holder k hlt))
    · exact hge
  intro hstuck
  cases hstuck with
  | finish hfinish hnone =>
    obtain ⟨k, hlt, hk, hne, haccept⟩ := haccept hfinish
    exact Progress.accepted?_ne_none (hfresh.mem_heads.mpr ⟨hhead hk, hlt⟩) haccept hne hnone
  | token hne hno =>
    have hlt : (p.reduceAll j).position < j.finish := Nat.lt_of_le_of_ne hp.position_le hne
    obtain ⟨k, hklt, hk, step, hstep⟩ := hread hne
    rcases shift_spec (closedUnderShift_derivesBetween hj ht hlt) hfresh.standing hp'.edges with
      ⟨_, hnil, _⟩ | ⟨hreads, _⟩
    · have hheads := hfresh.mem_heads.mpr ⟨hhead hk, hklt⟩
      have hcount := (hfresh.top k (hhead hk) hklt).2
      have hmem : (k, step) ∈ j.stepsAt (p.reduceAll j).stack p.position :=
        (mem_stepsAt hfresh.standing).mpr ⟨hheads, hklt, hk, hcount, hstep⟩
      have hnil : j.stepsAt (p.reduceAll j).stack p.position = [] := hnil
      rw [hnil] at hmem
      cases hmem
    · rw [hno] at hreads
      cases hreads

/-- **The parse of a sentence is never stuck.** -/
theorem not_stuck (hj : j.Ready) (ht : j.table.Canonical) (hu : j.table.Unpruned)
    (hentry : j.table.entry? j.grammar = some entry) (hxs : j.Chosen xs)
    (hlength : xs.length = j.finish)
    (hg : j.table.GeneratesBy Production.Short [.n entry.start] xs)
    (hp : p.Derived j entry) (h : j.Complete p.position p.position p.stack) {p' : Progress} :
    ¬ p.Stuck j p' := by
  have hall := reduceAll_complete ht hp h
  obtain ⟨r, production, hb, hr, hshort, hrhs, hfollow, haccept⟩ :=
    stands_bottom (hp.reduceAll ht) ht hentry
  have hitem : j.table.InState [⟨r, 0⟩] (.behind r 0) := .kernel List.mem_cons_self
  have hsplit : xs = [] ++ (xs ++ []) := by rw [List.append_nil, List.nil_append]
  refine not_stuck_of_node hj ht hp (fun hfinish => ?_) fun hne => ?_
  · obtain ⟨k, kernel, hk, hpath, hend⟩ := hall.exists_path ht hu hxs hg hsplit hb hitem hr
      hshort (Nat.zero_le _) (by rw [hrhs]; rfl) (by rw [List.length_nil]; omega) hfollow
    rw [List.nil_append, hlength, ← hfinish] at hk
    have hpos : production.rhs.length ≠ 0 := by rw [hrhs]; exact Nat.one_ne_zero
    have hmem := hend.mem_of_pos (Item.behind_ne_zero hpos hshort)
    rw [hrhs] at hmem
    have hne : (p.reduceAll j).stack.edges k ≠ [] := by
      obtain ⟨e, he, _⟩ := hpath
      exact List.ne_nil_of_mem he
    exact ⟨k, hk.lt, hk.position, hne, haccept hk.kernel hmem⟩
  · have hlt : p.position < j.finish := Nat.lt_of_le_of_ne hp.position_le hne
    obtain ⟨k, kernel, step, hk, hstep⟩ := hall.exists_shift ht hu hxs hg hsplit hb hitem hr
      hshort (Nat.zero_le _) (by rw [hrhs]; rfl) (Nat.zero_le _)
      (by rw [List.length_nil, Nat.zero_add, hlength]; exact hlt)
    exact ⟨k, hk.lt, hk.position, step, hstep⟩

/-- What is kept while a sentence is parsed; the turns that are left are enough to come to the end.
    -/
def Completing (j : ParseJob) (entry : Entry) (fuel : Nat) (s : Progress) : Prop :=
  s.Plain ∧ s.repairCount = 0 ∧ s.Derived j entry ∧
    j.Complete s.position s.position s.stack ∧ j.finish - s.position < fuel

/-- **A parse that is never stuck has no repairs.** -/
theorem run_of_not_stuck [Limits] (hj : j.Ready) (ht : j.table.Canonical) (hreuse : j.reuse = none)
    (hentry : j.table.entry? j.grammar = some entry) (hpos : j.finish ≠ 0)
    (hgoes : ∀ s s' : Progress, s.Derived j entry → j.Complete s.position s.position s.stack →
      ¬ s.Stuck j s') : j.run.counts.repairs = 0 := by
  have hrule : ∀ fuel s, j.Completing entry fuel s → (s.run j fuel).counts.repairs = 0 := by
    refine Progress.run_rule (P := fun fuel s => j.Completing entry fuel s)
      (Q := fun r => r.counts.repairs = 0) hreuse
      (fun _ s hs => hs.1) (fun s hs => hs.2.1) (fun _ s _ hs _ _ => hs.2.1) ?_ ?_
    · -- Reading on keeps everything.
      rintro fuel s ⟨hplain, hcount, hs, hc, hfuel⟩ hne hreads
      obtain ⟨hs', hposition⟩ := (hs.reduceAll ht).shift hj ht hne hreads
      have hposition : ((s.reduceAll j).shift j).2.position = s.position + 1 := hposition
      have hle := hs.position_le
      refine ⟨Progress.plain_shift hplain.checkpoint hreads,
        (Progress.repairCount_shift _ _).trans hcount, hs', ?_, by omega⟩
      rw [hposition]
      exact shift_complete hj ht (hs.reduceAll ht) hne hreads (reduceAll_complete ht hs hc)
    · rintro fuel s s' ⟨_, _, hs, hc, _⟩ hstuck
      exact absurd hstuck (hgoes s s' hs hc)
  rw [run_eq hentry hpos]
  refine hrule _ _ ⟨entered_plain j entry.state, rfl, Progress.derived_entered j entry,
    ⟨fun _ hlt => absurd hlt (Nat.not_lt_zero _), fun _ hlt => absurd hlt (Nat.not_lt_zero _)⟩, ?_⟩
  have hposition : (j.entered entry.state).position = 0 := rfl
  unfold turnBound
  omega

/-- **A sentence is parsed without repairs.** -/
theorem run_completes [Limits] (hj : j.Ready) (ht : j.table.Canonical) (hu : j.table.Unpruned)
    (hreuse : j.reuse = none) (hentry : j.table.entry? j.grammar = some entry)
    (hpos : j.finish ≠ 0) (hchosen : List.Forall₂ (fun x token =>
      x ∈ j.table.terminalsFor token.kind token.text) xs j.tokens.significantTokens)
    (hg : j.table.GeneratesBy Production.Short [.n entry.start] xs) :
    j.run.counts.repairs = 0 := by
  have hxs : j.Chosen xs := chosen_of_forall₂ hj hchosen
  have hlength : xs.length = j.finish :=
    hchosen.length_eq.trans hj.regular.length_significantTokens
  exact run_of_not_stuck hj ht hreuse hentry hpos fun s s' hs hc =>
    not_stuck hj ht hu hentry hxs hlength hg hs hc

end ParseJob

end LayeredSyntax
