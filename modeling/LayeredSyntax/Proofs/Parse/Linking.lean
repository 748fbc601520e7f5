/-
  LINKS — what a subtree says of the two nodes that it stands between.

  A subtree on an edge begins at the position of the lower node and ends where the upper node is
  covered up to, it is as long as the text in between, and **the state of the upper node is the one
  behind the symbol of the subtree** (`ParseJob.Links`).

  1. Finishing a production goes over the nonterminal to the state behind it, and begins where its
     first piece begins (`closed_links`).  Reading a token goes over a terminal
     (`closedUnderShift_links`); there is only one state behind it (`stateBehind?_of_shift`).
  2. A symbol that is made up leads to the state behind it by the way it was found
     (`insertions_spec`).
  3. Tokens are counted and measured stretch by stretch (`Regular.count_stretch`,
     `Regular.size_stretch`), so a subtree that reads a stretch is known to be as long
     (`Links.tokenCount`, `Links.size`).
-/
import LayeredSyntax.Proofs.Parse.Recovering

namespace LayeredSyntax

/-- The symbol that a subtree stands for. -/
def Node.symbol? : Node → Option Sym
  | .rule _ _ nonterminal .. => some (.n nonterminal)
  | .leaf _ _ _ terminal _ => some (.t terminal)
  | .missing _ _ symbol => some symbol
  | _ => none

namespace TokenStream

variable {s : TokenStream} {first stop : Nat}

/-! ## Tokens and bytes of a stretch -/

/-- **A stretch holds a token for each of its positions.** -/
theorem Regular.count_stretch (h : s.Regular) (hfirst : first ≤ stop) (hle : stop ≤ s.size) :
    (s.stretch first stop).countP (!·.isTrivia) = stop - first := by
  obtain ⟨n, rfl⟩ := Nat.exists_eq_add_of_le hfirst
  rw [Nat.add_sub_cancel_left]
  clear hfirst
  induction n with
  | zero =>
    rw [Nat.add_zero, stretch_self]
    rfl
  | succ n ih =>
    have hp : first + n < s.size := by omega
    obtain ⟨t, ht, _, htrivia⟩ := h.token (first + n) hp
    have hone : (s.stretch (first + n) (first + n + 1)).countP (!·.isTrivia) = 1 := by
      rw [h.stretch_succ ht hp, List.countP_singleton, htrivia]
      rfl
    rcases Nat.eq_zero_or_pos n with rfl | hpos
    · exact hone
    · have hlead : (s.lead (first + n)).countP (!·.isTrivia) = 0 := by
        refine List.countP_eq_zero.mpr fun x hx => ?_
        rw [h.isTrivia_of_mem_lead (Nat.le_of_lt hp) hx]
        exact Bool.false_ne_true
      rw [← Nat.add_assoc] at hle ⊢
      rw [← h.stretch_append (Nat.lt_add_of_pos_right hpos) (Nat.lt_succ_self _) hle,
        List.countP_append, List.countP_append, ih (Nat.le_of_lt hp), hlead, hone]

/-- **A stretch is as long as the text from its first token to its last one.** -/
theorem Regular.size_stretch (h : s.Regular) {start : Nat} (htiles : Tiles start s.tokens.toList)
    (hle : stop ≤ s.size) : ((s.stretch first stop).map Token.size).sum =
      if first < stop then s.stopByte (stop - 1) - s.startByte first else 0 := by
  split
  · next hlt =>
    obtain ⟨t, ht, _⟩ := h.token first (by omega)
    obtain ⟨z, hz, _⟩ := h.token (stop - 1) (by omega)
    have hhead := h.head?_stretch hlt hle
    have hlast := h.getLast?_stretch hlt hle
    -- The stretch is a slice of all tokens, so its tokens stand side by side.
    have hslice : ∃ start', Tiles start' (s.stretch first stop) := by
      have hsplit : s.tokens.toList = s.tokens.toList.take (s.tokenIndex first) ++
          (s.stretch first stop ++ s.tokens.toList.drop (s.indexAfter stop)) := by
        have hin := h.index_le_after hlt hle
        unfold stretch sliceOf
        rw [if_pos hlt, ← List.append_assoc]
        have htake : s.tokens.toList.take (s.tokenIndex first) =
            (s.tokens.toList.take (s.indexAfter stop)).take (s.tokenIndex first) := by
          rw [List.take_take, Nat.min_eq_left (by omega)]
        rw [htake, List.take_append_drop, List.take_append_drop]
      rw [hsplit] at htiles
      exact ⟨_, (tiles_append.mp (tiles_append.mp htiles).2).1⟩
    obtain ⟨start', hslice⟩ := hslice
    have hstop := hslice.stop_of_getLast? (hlast.trans hz)
    have hstart : t.start = start' := by
      obtain ⟨rest, hcons⟩ := List.head?_eq_some_iff.mp (hhead.trans ht)
      rw [hcons] at hslice
      exact hslice.1
    unfold startByte stopByte
    rw [ht, hz]
    show _ = z.stop - t.start
    omega
  · next hnot =>
    have hnil : s.stretch first stop = [] := if_neg hnot
    rw [hnil]
    rfl

end TokenStream

namespace ParseJob

variable {j : ParseJob} {regions : Regions} {p c : Nat}

/-! ## States behind symbols -/

/-- **The state that a token leads to is the only one behind its terminal.** -/
theorem stateBehind?_of_shift (ht : j.table.Canonical) {state x target : Nat}
    (h : .shift target ∈ j.table.actionsAt state x) :
    j.stateBehind? state (.t x) = some target := by
  obtain ⟨kernel, moved, hkernel, hmoved, hmove⟩ := ht.shift h
  -- The end of the text is never read.
  have hx : x ≠ endOfText := Nat.ne_of_gt (hmove.hasSymbol ht.wellFormed).1
  unfold ParseJob.stateBehind?
  dsimp only
  rw [if_neg hx]
  generalize hfound : (j.table.actionsAt state x).findSome? _ = found
  cases found with
  | none => exact absurd (List.findSome?_eq_none_iff.mp hfound _ h) (Option.some_ne_none _)
  | some target' =>
    obtain ⟨a, ha, heq⟩ := List.exists_of_findSome?_eq_some hfound
    obtain rfl : a = .shift target' := by
      cases a with
      | shift m => exact congrArg Action.shift (Option.some.inj heq)
      | reduce q => cases heq
      | accept => cases heq
    obtain ⟨kernel', moved', hkernel', hmoved', hmove'⟩ := ht.shift ha
    obtain rfl := Option.some.inj (hkernel.symm.trans hkernel')
    obtain rfl := hmove.unique hmove'
    exact congrArg some (ht.kernel_inj hmoved' hmoved)

/-! ## Links -/

/-- **How a subtree links two nodes of a stack.** -/
structure Links (j : ParseJob) (above below : Face) (label : Label) : Prop where
  reads : j.ReadsBetween above below label
  below_covered : below.covered ≤ below.position
  first_eq : below.position = label.first
  above_covered : above.covered ≤ above.position
  above_le : above.position ≤ j.finish
  symbol : ∃ s, label.node.symbol? = some s ∧ j.stateBehind? below.state s = some above.state

/-- **Finishing a production links the node at the bottom to the state behind the nonterminal.** -/
theorem closed_links (hj : j.Ready) (ht : j.table.Canonical) (hr : j.RegionsRead regions)
    (hp : p ≤ j.finish) (hc : c ≤ p) : j.ClosedUnder regions p c j.Links := by
  intro bottom top pieces q target htrail hposition hcovered hq hlength hgoto
  obtain ⟨hstop, hreads⟩ := closed_readsBetween hj ht hr hp hc (htrail.mono Links.reads) hposition
    hcovered hq hlength hgoto
  have hne : pieces ≠ [] := List.length_pos_iff.mp (hlength ▸ rhs_length_pos ht hq)
  obtain ⟨piece, rest, rfl⟩ := List.exists_cons_of_ne_nil hne
  obtain ⟨last, hlast⟩ := Option.isSome_iff_exists.mp (List.getLast?_isSome.mpr hne)
  obtain ⟨above, hfirst⟩ := htrail.first
  refine ⟨hstop, hreads, hfirst.below_covered, ?_, hc, hp, ?_⟩
  · rw [reduceLabel_eq List.head?_cons hlast]
    exact hfirst.first_eq
  · rw [reduceLabel_eq List.head?_cons hlast]
    exact ⟨_, rfl, hgoto⟩

/-- **Reading a token links a head to the state behind the terminal.** -/
theorem closedUnderShift_links (hj : j.Ready) (ht : j.table.Canonical) (hp : p < j.finish)
    (hc : c ≤ p) : j.ClosedUnderShift p c j.Links := by
  intro bottom x target target' state hposition hcovered hshift hshift'
  have hsymbol : (j.leaf p x target').symbol? = some (.t x) := by
    unfold leaf
    dsimp only
    split <;> rfl
  exact ⟨closedUnderShift_readsBetween hj hp hc hposition hcovered hshift hshift',
    by rw [hposition, hcovered]; exact hc, hposition, Nat.le_refl _, hp, _, hsymbol,
    stateBehind?_of_shift ht (mem_shifts.mp hshift).2⟩

variable {above below : Face} {label : Label}

theorem Links.stop_le (h : j.Links above below label) : label.stop ≤ j.finish := by
  rw [h.reads.stop_eq]
  exact Nat.le_trans h.above_covered h.above_le

/-- The subtree holds the tokens between its ends. -/
theorem Links.tokenCount (hj : j.Ready) (h : j.Links above below label) :
    label.node.tokenCount = label.stop - label.first := by
  have hmeasure := h.reads.reads.measure.2
  rw [hj.regular.count_stretch h.reads.first_le h.stop_le] at hmeasure
  rw [← hmeasure]
  exact (Nat.add_zero _).symm

/-- The subtree is as long as the text between its ends. -/
theorem Links.size (hj : j.Ready) (h : j.Links above below label) {start : Nat}
    (htiles : Tiles start j.tokens.tokens.toList) : label.node.size =
      if label.first < label.stop then
        j.tokens.stopByte (label.stop - 1) - j.tokens.startByte label.first
      else 0 := by
  have hmeasure := h.reads.reads.measure.1
  rw [hj.regular.size_stretch htiles h.stop_le] at hmeasure
  rw [← hmeasure]
  exact (Nat.add_zero _).symm

end ParseJob

end LayeredSyntax
