/-
  ROUNDS — the lookahead sets are what rounds over the productions settle on.

  The sets of a grammar can also be found without a graph: go over the productions, hand on what
  is known so far, and begin again until a round adds nothing.

  1. **Programs** — `firstRound` and `followRound` are such rounds.  They work on one row of sets,
     so what a production hands on can already be used by the next one, and `firstRound` skips
     productions that begin with their own nonterminal.

  2. **Specification** — `Settles`: the rounds come to an end, and wherever they end, the row is
     the given one.  FIRST is what `Begins` says, and FOLLOW is the least family of sets that obeys
     `FollowLaws` (`lower_lookahead_exact`).

  3. **The crux** (`Growing.settles`) — whatever the order in a round is, a rule only adds, and it
     adds no more to a smaller row than to a larger one.  So rounds stay within every row that all
     rules leave alone, and a row that a whole round leaves alone is left alone by every rule.
     A row that grows within another one gets there, as the sum of the sets grows with it.

  4. **Sentential forms** — what is behind a nonterminal anywhere in a row that a root can be
     rewritten to is in its FOLLOW set (`Sentential.follows`), by induction over the rewriting.
-/
import Mathlib.Algebra.Order.BigOperators.Group.Finset
import Mathlib.Data.List.Infix
import Mathlib.Logic.Function.Iterate
import Mathlib.Logic.Relation
import Mathlib.Order.Bounds.Basic
import LayeredSyntax.Proofs.Composition.Faithful
import LayeredSyntax.Proofs.Table.Items

namespace LayeredSyntax

/-! ## Rows of sets -/

/-- Whether a terminal is in a set of a row. -/
def InRow (sets : Array Nat) (i x : Nat) : Prop := (sets[i]?.getD 0).testBit x = true

/-- Every set of a row is part of the set at its place in another one. -/
structure Within (s t : Array Nat) : Prop where
  size : s.size = t.size
  inRow : ∀ i x, InRow s i x → InRow t i x

namespace Within

variable {s t u : Array Nat}

theorem refl (s : Array Nat) : Within s s := ⟨rfl, fun _ _ h => h⟩

theorem trans (h : Within s t) (h' : Within t u) : Within s u :=
  ⟨h.size.trans h'.size, fun i x hx => h'.inRow i x (h.inRow i x hx)⟩

theorem antisymm (h : Within s t) (h' : Within t s) : s = t := by
  refine Array.ext h.size fun i hi hi' => Nat.eq_of_testBit_eq fun x => ?_
  have hiff := Bool.eq_iff_iff.mpr ⟨h.inRow i x, h'.inRow i x⟩
  rwa [Array.getElem?_eq_getElem hi, Array.getElem?_eq_getElem hi'] at hiff

/-- A set that is part of another one is no larger as a number. -/
theorem getD_le (h : Within s t) (i : Nat) : s[i]?.getD 0 ≤ t[i]?.getD 0 := by
  have hand : s[i]?.getD 0 &&& t[i]?.getD 0 = s[i]?.getD 0 := by
    refine Nat.eq_of_testBit_eq fun x => ?_
    rw [Nat.testBit_and, Bool.and_eq_left_iff_imp]
    exact h.inRow i x
  rw [← hand]
  exact Nat.and_le_right

/-- The sum of the sets of a row. -/
def total (s : Array Nat) : Nat := ∑ i ∈ Finset.range s.size, s[i]?.getD 0

theorem total_le (h : Within s t) : total s ≤ total t := by
  unfold total
  rw [h.size]
  exact Finset.sum_le_sum fun i _ => h.getD_le i

/-- **What grows has a larger sum.** -/
theorem total_lt (h : Within s t) (hne : s ≠ t) : total s < total t := by
  obtain ⟨i, hi, hlt⟩ : ∃ i ∈ Finset.range t.size, s[i]?.getD 0 < t[i]?.getD 0 := by
    by_contra hno
    push Not at hno
    refine hne (Array.ext h.size fun i hi hi' => ?_)
    have heq := Nat.le_antisymm (h.getD_le i) (hno i (Finset.mem_range.mpr hi'))
    rwa [Array.getElem?_eq_getElem hi, Array.getElem?_eq_getElem hi'] at heq
  unfold total
  rw [h.size]
  exact Finset.sum_lt_sum (fun i _ => h.getD_le i) ⟨i, hi, hlt⟩

end Within

/-! ## Rounds that only add -/

/-- **Rounds come to an end**, and wherever they end, the row is the given one.  That a round
    leaves a row alone is where a loop of rounds stops. -/
structure Settles (round : Array Nat → Array Nat) (start out : Array Nat) : Prop where
  ends : ∃ n, round (round^[n] start) = round^[n] start
  eq_of_end : ∀ n, round (round^[n] start) = round^[n] start → round^[n] start = out

/-- A row that grows within another one stops growing. -/
theorem exists_end {round : Array Nat → Array Nat} {out : Array Nat}
    (grow : ∀ s, Within s (round s)) (bound : ∀ s, Within s out → Within (round s) out) :
    ∀ s, Within s out → ∃ n, round (round^[n] s) = round^[n] s := by
  intro s
  induction hm : Within.total out - Within.total s using Nat.strong_induction_on generalizing s with
  | _ m ih =>
    intro hs
    by_cases hfix : round s = s
    · exact ⟨0, hfix⟩
    · have hlt := (grow s).total_lt (Ne.symm hfix)
      have hle := (bound s hs).total_le
      obtain ⟨n, hn⟩ := ih _ (by omega) (round s) rfl (bound s hs)
      exact ⟨n + 1, hn⟩

/-- Add a set to one of a row, if there is anything to hand on. -/
def handOn (sets : Array Nat) : Option (Nat × Nat) → Array Nat
  | some (a, s) => sets.modify a (· ||| s)
  | none => sets

/-- A round over some rules.  A rule says, by the row as it is, which set to add to and what. -/
def roundOf {α : Type} (share : Array Nat → α → Option (Nat × Nat)) (rules : List α)
    (sets : Array Nat) : Array Nat :=
  rules.foldl (fun sets r => handOn sets (share sets r)) sets

/-- Whether a rule hands on a terminal to a set. -/
def Gives {α : Type} (share : Array Nat → α → Option (Nat × Nat)) (sets : Array Nat) (r : α)
    (i x : Nat) : Prop :=
  ∃ s, share sets r = some (i, s) ∧ s.testBit x = true

/-- A row to which no rule adds anything. -/
def Closed {α : Type} (share : Array Nat → α → Option (Nat × Nat)) (rules : List α)
    (sets : Array Nat) : Prop :=
  ∀ r ∈ rules, ∀ i x, Gives share sets r i x → i < sets.size → InRow sets i x

/-- What is handed on by a smaller row is handed on by a larger one. -/
def Growing {α : Type} (share : Array Nat → α → Option (Nat × Nat)) : Prop :=
  ∀ s t, Within s t → ∀ r i x, Gives share s r i x → Gives share t r i x

section

variable {α : Type} {share : Array Nat → α → Option (Nat × Nat)} {rules : List α}
  {s start out : Array Nat}

theorem size_handOn (s : Array Nat) (given : Option (Nat × Nat)) :
    (handOn s given).size = s.size := by
  unfold handOn
  split
  · exact Array.size_modify
  · rfl

theorem inRow_handOn {r : α} {i x : Nat} :
    InRow (handOn s (share s r)) i x ↔ (Gives share s r i x ∧ i < s.size) ∨ InRow s i x := by
  unfold handOn Gives InRow
  split
  · next a u hshare =>
    rw [testBit_modify_or, hshare]
    constructor
    · rintro (⟨rfl, hx, hi⟩ | hx)
      · exact .inl ⟨⟨u, rfl, hx⟩, hi⟩
      · exact .inr hx
    · rintro (⟨⟨_, heq, hx⟩, hi⟩ | hx)
      · cases heq
        exact .inl ⟨rfl, hx, hi⟩
      · exact .inr hx
  · next hshare => simp [hshare]

theorem within_handOn (s : Array Nat) (r : α) : Within s (handOn s (share s r)) :=
  ⟨(size_handOn s _).symm, fun _ _ hx => inRow_handOn.mpr (.inr hx)⟩

theorem within_roundOf (rules : List α) (s : Array Nat) : Within s (roundOf share rules s) := by
  induction rules generalizing s with
  | nil => exact .refl s
  | cons r rules ih => exact (within_handOn s r).trans (ih _)

/-- A round stays within a row to which no rule adds anything. -/
theorem Growing.roundOf_within (h : Growing share) (hout : Closed share rules out)
    (hs : Within s out) : Within (roundOf share rules s) out := by
  induction rules generalizing s with
  | nil => exact hs
  | cons r rules ih =>
    refine ih (fun r' hr' => hout r' (List.mem_cons_of_mem r hr'))
      ⟨(size_handOn s _).trans hs.size, fun i x hx => ?_⟩
    rcases inRow_handOn.mp hx with ⟨hgives, hi⟩ | hx
    · exact hout r List.mem_cons_self i x (h s out hs r i x hgives) (hs.size ▸ hi)
    · exact hs.inRow i x hx

/-- **What a round leaves alone is left alone by every rule of it.** -/
theorem closed_of_roundOf_eq (hfix : roundOf share rules s = s) : Closed share rules s := by
  induction rules with
  | nil => exact fun r hr => absurd hr List.not_mem_nil
  | cons r rules ih =>
    -- What the first rule adds is not taken back later, so it adds nothing.
    have hlater : Within (handOn s (share s r)) (roundOf share (r :: rules) s) :=
      within_roundOf rules _
    rw [hfix] at hlater
    have hstep : handOn s (share s r) = s := hlater.antisymm (within_handOn s r)
    have hrest : roundOf share rules s = s := by
      conv_rhs => rw [← hfix]
      show _ = roundOf share rules (handOn s (share s r))
      rw [hstep]
    intro r' hr' i x hgives hi
    rcases List.mem_cons.mp hr' with rfl | hr'
    · rw [← hstep]
      exact inRow_handOn.mpr (.inl ⟨hgives, hi⟩)
    · exact ih hrest r' hr' i x hgives hi

/-- **Rounds settle on the least row that is closed.** -/
theorem Growing.settles (h : Growing share) (hstart : Within start out)
    (hclosed : Closed share rules out)
    (hleast : ∀ s, Within start s → Closed share rules s → Within out s) :
    Settles (roundOf share rules) start out := by
  have grow : ∀ n, Within start ((roundOf share rules)^[n] start) := fun n => by
    induction n with
    | zero => exact .refl start
    | succ n ih =>
      rw [Function.iterate_succ_apply']
      exact ih.trans (within_roundOf rules _)
  have bound : ∀ n, Within ((roundOf share rules)^[n] start) out := fun n => by
    induction n with
    | zero => exact hstart
    | succ n ih =>
      rw [Function.iterate_succ_apply']
      exact h.roundOf_within hclosed ih
  exact ⟨exists_end (within_roundOf rules) (fun s => h.roundOf_within hclosed) start hstart,
    fun n hn => (bound n).antisymm (hleast _ (grow n) (closed_of_roundOf_eq hn))⟩

end

namespace Composite

variable {c : Composite} {i a x : Nat}

/-! ## Roots -/

/-- Every nonterminal that is a root has its place among the roots of texts. -/
def Entered (c : Composite) : Prop :=
  ∀ a, a < c.nonterminals.size → (c.nonterminal a).isRoot = true →
    ∃ r ∈ c.roots, ∃ p, c.productions[r.production]? = some p ∧ p.lhs = a

theorem Entered.addRoot {d : Composite} {g : Grammar} (hc : c.Entered)
    (h : c.addRoot g = .ok d) : d.Entered := by
  obtain ⟨start, hd⟩ := addRoot_rooted h
  intro a ha hroot
  rw [hd.roots]
  rw [hd.nonterminals, Array.size_push] at ha
  rcases Nat.lt_or_ge a c.nonterminals.size with hlt | hge
  · rw [nonterminal_push hd.nonterminals hlt] at hroot
    obtain ⟨r, hr, p, hp, hlhs⟩ := hc a hlt hroot
    exact ⟨r, List.mem_append_left _ hr, p,
      (hd.old (Array.getElem?_eq_some_iff.mp hp).1).trans hp, hlhs⟩
  · exact ⟨_, List.mem_append_right _ (List.mem_singleton.mpr rfl), _, hd.last,
      show c.nonterminals.size = a by omega⟩

/-- Lowering the rules of a grammar adds no nonterminals. -/
theorem lowerGrammar_onlyRules {grammars : List Grammar} {g : Grammar} {d : Composite}
    (hne : ∀ r ∈ g.rules, ∀ a ∈ r.alternatives, a.symbols ≠ []) (hc : c.OnlyRules)
    (h : lowerGrammar grammars c g = .ok d) : d.OnlyRules ∧ d.nonterminals = c.nonterminals := by
  refine foldlM_keeps (P := fun d => d.OnlyRules ∧ d.nonterminals = c.nonterminals) ?_ c d
    ⟨hc, rfl⟩ h
  intro b r b' hr hb hstep
  obtain ⟨hrules, hsame⟩ := lowerRule_onlyRules hb.1 (hne r hr) hstep
  exact ⟨hrules, hsame.trans hb.2⟩

/-- Lowering gives no other roots than those of the grammars. -/
theorem lower_entered {grammars : List Grammar} {levels : MergedLevels}
    (hne : ∀ g ∈ grammars, ∀ r ∈ g.rules, ∀ a ∈ r.alternatives, a.symbols ≠ [])
    (h : lower grammars levels = .ok c) : c.Entered := by
  unfold lower at h
  obtain ⟨d, hd, h⟩ := Except.bind_eq_ok.mp h
  obtain ⟨_, hsame⟩ := foldlM_keeps (P := fun b : Composite =>
      b.OnlyRules ∧ b.nonterminals = (grammars.flatMap nonterminalsOf).toArray)
    (fun b g b' hg hb hstep =>
      have hstep' := lowerGrammar_onlyRules (hne g hg) hb.1 hstep
      ⟨hstep'.1, hstep'.2.trans hb.2⟩) _ d
    ⟨⟨fun p hp => absurd hp (Array.not_mem_empty p), rfl⟩, rfl⟩ hd
  refine foldlM_keeps (P := Entered) (fun b g b' _ hb hstep => hb.addRoot hstep) d c ?_ h
  -- Before the first root is added, there are the rules only.
  intro a ha hroot
  have hmem : d.nonterminals[a] ∈ grammars.flatMap nonterminalsOf := by
    rw [← List.mem_toArray, ← hsame]
    exact Array.getElem_mem ha
  obtain ⟨g, _, hn⟩ := List.mem_flatMap.mp hmem
  obtain ⟨r, _, heq⟩ := List.mem_map.mp hn
  unfold nonterminal at hroot
  rw [Array.getElem?_eq_getElem ha, ← heq] at hroot
  cases hroot

/-! ## First -/

/-- What a production hands on to its nonterminal: what it can begin with so far. -/
def firstShare (sets : Array Nat) (p : Production) : Option (Nat × Nat) :=
  match p.rhs with
  | .t x :: _ => some (p.lhs, terminalSet x)
  | .n b :: _ => if b = p.lhs then none else some (p.lhs, sets[b]?.getD 0)
  | [] => none

/-- A round over the productions, nonterminal by nonterminal. -/
def firstRound (c : Composite) : Array Nat → Array Nat :=
  roundOf firstShare (c.productionsByLhs.toList.flatten.map c.production)

theorem gives_firstShare {sets : Array Nat} {p : Production} : Gives firstShare sets p i x ↔
    p.lhs = i ∧ ((∃ rest, p.rhs = .t x :: rest) ∨
      ∃ b rest, p.rhs = .n b :: rest ∧ b ≠ p.lhs ∧ InRow sets b x) := by
  unfold Gives firstShare InRow
  split
  · next y rest hrhs =>
    rw [hrhs]
    simp [testBit_terminalSet, and_assoc]
  · next b rest hrhs =>
    rw [hrhs]
    split
    · next hself => simp [hself]
    · next hne => simp [hne, and_assoc]
  · next hrhs => simp [hrhs]

theorem growing_firstShare : Growing firstShare := by
  intro s t hst p i x h
  obtain ⟨hlhs, hterminal | ⟨b, rest, hrhs, hne, hb⟩⟩ := gives_firstShare.mp h
  · exact gives_firstShare.mpr ⟨hlhs, .inl hterminal⟩
  · exact gives_firstShare.mpr ⟨hlhs, .inr ⟨b, rest, hrhs, hne, hst.inRow b x hb⟩⟩

/-- The row of a round begins with empty sets. -/
theorem not_inRow_replicate (n i x : Nat) : ¬ InRow (Array.replicate n 0) i x := by
  unfold InRow
  rw [getD_replicate_zero, Nat.zero_testBit]
  exact Bool.false_ne_true

/-- Nonterminal by nonterminal, every production has its turn. -/
theorem mem_byLhs (hc : c.WellFormed) {p : Production} :
    p ∈ c.productionsByLhs.toList.flatten.map c.production ↔ p ∈ c.productions.toList := by
  rw [List.mem_map]
  constructor
  · rintro ⟨q, hq, rfl⟩
    obtain ⟨row, hrow, hq⟩ := List.mem_flatten.mp hq
    obtain ⟨i, hi⟩ := List.getElem?_of_mem hrow
    rw [Array.getElem?_toList] at hi
    have hmem : q ∈ c.productionsByLhs[i]?.getD [] := by rwa [hi]
    obtain ⟨_, p, hp, _⟩ := mem_productionsByLhs.mp hmem
    rw [production_eq hp]
    exact Array.mem_toList_iff.mpr (Array.mem_of_getElem? hp)
  · intro hp
    obtain ⟨q, hq⟩ := List.getElem?_of_mem hp
    rw [Array.getElem?_toList] at hq
    have hlt := (hc.productions p (Array.mem_toList_iff.mp hp)).lhs_lt
    have hmem : q ∈ c.productionsByLhs[p.lhs]?.getD [] := mem_productionsByLhs.mpr ⟨hlt, p, hq, rfl⟩
    refine ⟨q, List.mem_flatten.mpr ?_, production_eq hq⟩
    cases hrow : c.productionsByLhs[p.lhs]? with
    | none =>
      rw [hrow] at hmem
      exact absurd hmem List.not_mem_nil
    | some row =>
      rw [hrow] at hmem
      exact ⟨row, Array.mem_toList_iff.mpr (Array.mem_of_getElem? hrow), hmem⟩

theorem size_unionOverReached (graph : Array (List Nat)) (sets : Array Nat) :
    (unionOverReached graph sets).size = sets.size := by
  unfold unionOverReached
  rw [Array.size_map, Array.size_range]

/-- **Rounds over the productions settle on FIRST.** -/
theorem firstRound_settles (hc : c.WellFormed) :
    Settles c.firstRound (Array.replicate c.nonterminals.size 0) c.firstSets := by
  have hsize : c.firstSets.size = c.nonterminals.size := by
    unfold firstSets
    rw [size_unionOverReached, leadingTerminals_spec.1]
  have hstart : Within (Array.replicate c.nonterminals.size 0) c.firstSets :=
    ⟨Array.size_replicate.trans hsize.symm,
      fun i x hx => absurd hx (not_inRow_replicate _ i x)⟩
  refine growing_firstShare.settles hstart ?_ ?_
  · intro p hp i x hgives _
    obtain ⟨rfl, ⟨rest, hrhs⟩ | ⟨b, rest, hrhs, _, hb⟩⟩ := gives_firstShare.mp hgives
    · exact (testBit_firstSets hc).mpr (.rule ((mem_byLhs hc).mp hp) hrhs (.terminal x))
    · exact (testBit_firstSets hc).mpr
        (.rule ((mem_byLhs hc).mp hp) hrhs ((testBit_firstSets hc).mp hb))
  · intro s hs hclosed
    refine ⟨hsize.trans (Array.size_replicate.symm.trans hs.size), fun a x hx => ?_⟩
    have hbegins := (testBit_firstSets hc).mp hx
    generalize hsym : Sym.n a = sym at hbegins
    clear hx
    induction hbegins generalizing a with
    | terminal x => cases hsym
    | @rule p sym rest x hp hrhs hsub ih =>
      cases hsym
      have hlt : p.lhs < s.size := by
        rw [← hs.size, Array.size_replicate]
        exact (hc.productions p (Array.mem_toList_iff.mp hp)).lhs_lt
      have hadds := fun hgives =>
        hclosed p ((mem_byLhs hc).mpr hp) p.lhs x (gives_firstShare.mpr hgives) hlt
      cases sym with
      | t y =>
        cases hsub
        exact hadds ⟨rfl, .inl ⟨rest, hrhs⟩⟩
      | n b =>
        -- A production that begins with its own nonterminal can be skipped.
        have hb := ih b rfl
        by_cases hself : b = p.lhs
        · exact hself ▸ hb
        · exact hadds ⟨rfl, .inr ⟨b, rest, hrhs, hself, hb⟩⟩

/-! ## Follow -/

/-- What a part of a production hands on to the nonterminal at its front: what comes behind it. -/
def followShare (first sets : Array Nat) (lhs : Nat) : List Sym → Option (Nat × Nat)
  | .n a :: .t x :: _ => some (a, terminalSet x)
  | .n a :: .n b :: _ => some (a, first[b]?.getD 0)
  | [.n a] => some (a, sets[lhs]?.getD 0)
  | _ => none

/-- A round over the symbols of all productions. -/
def followRound (c : Composite) (first : Array Nat) : Array Nat → Array Nat :=
  roundOf (fun sets r => followShare first sets r.1 r.2)
    (c.productions.toList.flatMap fun p => p.rhs.tails.map (p.lhs, ·))

/-- The row that rounds of FOLLOW begin with: the end of the text comes behind the roots. -/
def followStart (c : Composite) : Array Nat :=
  c.roots.foldl (fun sets r =>
    sets.modify (c.production r.production).lhs (· ||| terminalSet endOfText))
    (Array.replicate c.nonterminals.size 0)

theorem gives_followShare {first sets : Array Nat} {lhs : Nat} {row : List Sym} :
    Gives (fun sets r => followShare first sets r.1 r.2) sets (lhs, row) i x ↔
      (∃ rest, row = .n i :: .t x :: rest) ∨
        (∃ b rest, row = .n i :: .n b :: rest ∧ InRow first b x) ∨
        (row = [.n i] ∧ InRow sets lhs x) := by
  unfold Gives InRow
  dsimp only
  fun_cases followShare first sets lhs row with
  | case1 a y rest => simp [testBit_terminalSet]
  | case2 a b rest => simp
  | case3 a => simp
  | case4 row hterminal hnonterminal hlast =>
    constructor
    · rintro ⟨_, hnone, _⟩
      cases hnone
    · rintro (⟨_, heq⟩ | ⟨_, _, heq, _⟩ | ⟨heq, _⟩)
      · exact absurd heq (hterminal _ _ _)
      · exact absurd heq (hnonterminal _ _ _)
      · exact absurd heq (hlast _)

theorem growing_followShare (first : Array Nat) :
    Growing fun sets (r : Nat × List Sym) => followShare first sets r.1 r.2 := by
  intro s t hst r i x h
  obtain hterminal | hnonterminal | ⟨hrow, hx⟩ := gives_followShare.mp h
  · exact gives_followShare.mpr (.inl hterminal)
  · exact gives_followShare.mpr (.inr (.inl hnonterminal))
  · exact gives_followShare.mpr (.inr (.inr ⟨hrow, hst.inRow _ _ hx⟩))

theorem followStart_spec : c.followStart.size = c.nonterminals.size ∧
    ∀ i x, InRow c.followStart i x ↔ i < c.nonterminals.size ∧
      ∃ r ∈ c.roots, (c.production r.production).lhs = i ∧ x = endOfText := by
  have hadd : ∀ (t : Array Nat) (r : Root) (i x : Nat),
      ((t.modify (c.production r.production).lhs (· ||| terminalSet endOfText))[i]?.getD 0).testBit
        x = true ↔ (((c.production r.production).lhs = i ∧ x = endOfText) ∧ i < t.size) ∨
          (t[i]?.getD 0).testBit x = true := by
    intro t r i x
    rw [testBit_modify_or, testBit_terminalSet, eq_comm, @eq_comm _ endOfText, and_assoc]
  obtain ⟨hsize, hbit⟩ := testBit_foldl_table
    (fun (r : Root) i x => (c.production r.production).lhs = i ∧ x = endOfText)
    (fun t r => Array.size_modify) hadd c.roots (Array.replicate c.nonterminals.size 0)
  refine ⟨hsize.trans Array.size_replicate, fun i x => (hbit i x).trans ?_⟩
  rw [Array.size_replicate]
  exact or_iff_left (not_inRow_replicate _ i x)

/-- **Rounds over the symbols settle on FOLLOW.** -/
theorem followRound_settles (hc : c.WellFormed) (hroots : c.Entered) :
    Settles (c.followRound c.firstSets) c.followStart c.followSets := by
  have hsize : c.followSets.size = c.nonterminals.size := by
    unfold followSets
    rw [size_unionOverReached, (neighbourSets_spec hc).1]
  have hrules : ∀ {lhs row}, (lhs, row) ∈ (c.productions.toList.flatMap fun p =>
      p.rhs.tails.map (p.lhs, ·)) ↔ ∃ p ∈ c.productions.toList, p.lhs = lhs ∧ row <:+ p.rhs := by
    intro lhs row
    simp only [List.mem_flatMap, List.mem_map, List.mem_tails, Prod.mk.injEq]
    constructor
    · rintro ⟨p, hp, _, hrow, rfl, rfl⟩
      exact ⟨p, hp, rfl, hrow⟩
    · rintro ⟨p, hp, rfl, hrow⟩
      exact ⟨p, hp, row, hrow, rfl, rfl⟩
  refine (growing_followShare c.firstSets).settles
    ⟨followStart_spec.1.trans hsize.symm, fun a x hx => ?_⟩ ?_ ?_
  · obtain ⟨ha, r, hr, rfl, rfl⟩ := (followStart_spec.2 a x).mp hx
    obtain ⟨p, hp, _, hroot⟩ := hc.root r hr
    refine (testBit_followSets hc).mpr (.root ha ?_)
    rwa [production_eq hp]
  · rintro ⟨lhs, row⟩ hr a x hgives _
    obtain ⟨p, hp, rfl, pre, hrhs⟩ := hrules.mp hr
    rcases gives_followShare.mp hgives with ⟨rest, rfl⟩ | ⟨b, rest, rfl, hb⟩ | ⟨rfl, hx⟩
    · exact (testBit_followSets hc).mpr (.next hp hrhs.symm (.terminal x))
    · exact (testBit_followSets hc).mpr (.next hp hrhs.symm ((testBit_firstSets hc).mp hb))
    · exact (testBit_followSets hc).mpr (.last hp hrhs.symm ((testBit_followSets hc).mp hx))
  · intro s hs hclosed
    have hs' : s.size = c.nonterminals.size := hs.size.symm.trans followStart_spec.1
    refine ⟨hsize.trans hs'.symm, fun a x hx => ?_⟩
    have hfollows := (testBit_followSets hc).mp hx
    clear hx
    induction hfollows with
    | @root a ha hroot =>
      obtain ⟨r, hr, p, hp, rfl⟩ := hroots a ha hroot
      refine hs.inRow _ _ ((followStart_spec.2 _ _).mpr ⟨ha, r, hr, ?_, rfl⟩)
      rw [production_eq hp]
    | @next p a x sym pre post hp hrhs hx =>
      have ha : a < s.size := hs' ▸ hc.lt_of_mem_rhs hp (by rw [hrhs]; simp)
      have hr := hrules.mpr ⟨p, hp, rfl, pre, hrhs.symm⟩
      cases sym with
      | t y =>
        cases hx
        exact hclosed _ hr a x (gives_followShare.mpr (.inl ⟨post, rfl⟩)) ha
      | n b =>
        have hb := (testBit_firstSets hc).mpr hx
        exact hclosed _ hr a x (gives_followShare.mpr (.inr (.inl ⟨b, post, rfl, hb⟩))) ha
    | @last p a x pre hp hrhs _ ih =>
      have ha : a < s.size := hs' ▸ hc.lt_of_mem_rhs hp (by rw [hrhs]; simp)
      have hr := hrules.mpr ⟨p, hp, rfl, pre, hrhs.symm⟩
      exact hclosed _ hr a x (gives_followShare.mpr (.inr (.inr ⟨rfl, ih⟩))) ha

/-! ## The least family -/

/-- **What a family of sets has to hold behind each nonterminal.** -/
structure FollowLaws (c : Composite) (F : Nat → Set Nat) : Prop where
  /-- The end of the text comes behind a root. -/
  root : ∀ a, a < c.nonterminals.size → (c.nonterminal a).isRoot = true → endOfText ∈ F a
  /-- A terminal that is directly behind a nonterminal. -/
  terminal : ∀ p ∈ c.productions.toList, ∀ pre a x post,
    p.rhs = pre ++ .n a :: .t x :: post → x ∈ F a
  /-- What a nonterminal can begin with that is directly behind one. -/
  nonterminal : ∀ p ∈ c.productions.toList, ∀ pre a b post,
    p.rhs = pre ++ .n a :: .n b :: post → {x | InRow c.firstSets b x} ⊆ F a
  /-- Where a nonterminal ends a production, what comes behind the production. -/
  last : ∀ p ∈ c.productions.toList, ∀ pre a, p.rhs = pre ++ [.n a] → F p.lhs ⊆ F a

/-- **FOLLOW is the least family that obeys the laws.** -/
theorem isLeast_followSets (hc : c.WellFormed) :
    IsLeast {F | c.FollowLaws F} fun a => {x | InRow c.followSets a x} := by
  refine ⟨⟨fun a ha hroot => ?_, fun p hp pre a x post hrhs => ?_,
    fun p hp pre a b post hrhs x hx => ?_, fun p hp pre a hrhs x hx => ?_⟩, fun F hF a x hx => ?_⟩
  · exact (testBit_followSets hc).mpr (.root ha hroot)
  · exact (testBit_followSets hc).mpr (.next hp hrhs (.terminal x))
  · exact (testBit_followSets hc).mpr (.next hp hrhs ((testBit_firstSets hc).mp hx))
  · exact (testBit_followSets hc).mpr (.last hp hrhs ((testBit_followSets hc).mp hx))
  · have hfollows := (testBit_followSets hc).mp hx
    clear hx
    induction hfollows with
    | @root a ha hroot => exact hF.root a ha hroot
    | @next p a x sym pre post hp hrhs hx =>
      cases sym with
      | t y =>
        cases hx
        exact hF.terminal p hp pre a x post hrhs
      | n b => exact hF.nonterminal p hp pre a b post hrhs ((testBit_firstSets hc).mpr hx)
    | @last p a x pre hp hrhs _ ih => exact hF.last p hp pre a hrhs ih

/-! ## Sentential forms -/

/-- A nonterminal in a row of symbols gives way to one of its productions. -/
inductive Rewrites (c : Composite) : List Sym → List Sym → Prop
  | rule {p : Production} (hp : p ∈ c.productions.toList) (front back : List Sym) :
      Rewrites c (front ++ .n p.lhs :: back) (front ++ (p.rhs ++ back))

/-- **The rows of symbols that the roots of texts can be rewritten to.** -/
def Sentential (c : Composite) (row : List Sym) : Prop :=
  ∃ r ∈ c.roots,
    Relation.ReflTransGen c.Rewrites [.n (c.production r.production).lhs] row

/-- What can come first in a row of symbols; behind the last symbol, the end of the text. -/
def ComesNext (c : Composite) : List Sym → Nat → Prop
  | [], x => x = endOfText
  | s :: _, x => c.Begins s x

/-- A place in one row behind another one is in the first or in the second. -/
theorem append_eq_around {xs ys front back : List Sym} {s : Sym}
    (h : xs ++ ys = front ++ s :: back) :
    (∃ mid, xs = front ++ s :: mid ∧ back = mid ++ ys) ∨
      ∃ mid, ys = mid ++ s :: back ∧ front = xs ++ mid := by
  rcases List.append_eq_append_iff.mp h with ⟨mid, hfront, hys⟩ | ⟨mid, hxs, hback⟩
  · exact .inr ⟨mid, hys, hfront⟩
  · cases mid with
    | nil => exact .inr ⟨[], by simpa using hback.symm, by simpa using hxs.symm⟩
    | cons t mid =>
      obtain ⟨rfl, rfl⟩ := List.cons.inj hback
      exact .inl ⟨mid, hxs, rfl⟩

/-- **What is ahead behind a nonterminal is in its FOLLOW set**, and a step keeps it so. -/
theorem Rewrites.follows (hc : c.WellFormed) {row row' : List Sym} (h : c.Rewrites row row')
    (hrow : ∀ front a back, row = front ++ .n a :: back → ∀ x, c.ComesNext back x → c.Follows a x) :
    ∀ front a back, row' = front ++ .n a :: back → ∀ x, c.ComesNext back x → c.Follows a x := by
  obtain @⟨p, hp, before, behind⟩ := h
  intro front a back heq x hx
  rcases append_eq_around heq with ⟨mid, rfl, rfl⟩ | ⟨mid, hmid, rfl⟩
  · -- In front of the nonterminal that gives way.
    refine hrow front a (mid ++ .n p.lhs :: behind) (by simp) x ?_
    cases mid with
    | nil =>
      obtain ⟨s, rest, hrhs⟩ := List.exists_cons_of_ne_nil
        (hc.productions p (Array.mem_toList_iff.mp hp)).rhs_ne_nil
      rw [hrhs] at hx
      exact .rule hp hrhs hx
    | cons s mid => exact hx
  · rcases append_eq_around hmid with ⟨rest, hrhs, rfl⟩ | ⟨rest, rfl, rfl⟩
    · -- Inside the production.
      cases rest with
      | nil => exact .last hp hrhs (hrow before p.lhs behind rfl x hx)
      | cons s rest => exact .next hp hrhs hx
    · -- Behind it.
      exact hrow (before ++ .n p.lhs :: rest) a back (by simp) x hx

theorem Sentential.follows (hc : c.WellFormed) {row : List Sym} (h : c.Sentential row) :
    ∀ front a back, row = front ++ .n a :: back → ∀ x, c.ComesNext back x → c.Follows a x := by
  obtain ⟨r, hr, hrow⟩ := h
  induction hrow with
  | refl =>
    intro front a back heq x hx
    obtain ⟨p, hp, _, hroot⟩ := hc.root r hr
    rw [production_eq hp] at heq
    cases front with
    | nil =>
      cases heq
      cases hx
      exact .root (hc.productions p (Array.mem_of_getElem? hp)).lhs_lt hroot
    | cons s front => simp at heq
  | tail _ hstep ih => exact hstep.follows hc ih

/-! ## Main results -/

/-- **The lookahead sets of lowered grammars are exact.**  Rounds over the productions come to an
    end with them.  FIRST holds what a chain of leftmost symbols leads to, and FOLLOW is the least
    family that obeys its laws.  So in whatever the root of a grammar can be rewritten to, FOLLOW
    of a nonterminal holds the terminal that comes right behind it, or the end of the text. -/
theorem lower_lookahead_exact {grammars : List Grammar} {levels : MergedLevels}
    (hne : ∀ g ∈ grammars, ∀ r ∈ g.rules, ∀ a ∈ r.alternatives, a.symbols ≠ [])
    (h : lower grammars levels = .ok c) :
    Settles c.firstRound (Array.replicate c.nonterminals.size 0) c.firstSets ∧
    Settles (c.followRound c.firstSets) c.followStart c.followSets ∧
    (∀ a x, InRow c.firstSets a x ↔ c.Begins (.n a) x) ∧
    IsLeast {F | c.FollowLaws F} (fun a => {x | InRow c.followSets a x}) ∧
    ∀ row, c.Sentential row →
      (∀ front a x back, row = front ++ .n a :: .t x :: back → InRow c.followSets a x) ∧
      ∀ front a, row = front ++ [.n a] → InRow c.followSets a endOfText := by
  have hc := lower_wellFormed hne h
  refine ⟨firstRound_settles hc, followRound_settles hc (lower_entered hne h),
    fun a x => testBit_firstSets hc, isLeast_followSets hc, fun row hrow => ⟨?_, ?_⟩⟩
  · intro front a x back heq
    exact (testBit_followSets hc).mpr (hrow.follows hc front a _ heq x (.terminal x))
  · intro front a heq
    exact (testBit_followSets hc).mpr (hrow.follows hc front a _ heq _ rfl)

/-- The grammar of sums on common numbers.  Its second production begins with its own
    nonterminal. -/
def sums : Composite where
  grammars := [⟨"sums"⟩]
  terminals := #[.kind .number, .sym "+"]
  nonterminals := #[⟨"sums::sum", "sum", ⟨"sums"⟩, false, false⟩,
    ⟨"sums::sum'", "source_file", ⟨"sums"⟩, false, true⟩]
  productions := #[⟨0, [.t 1], ⟨"sums"⟩, none, none, false⟩,
    ⟨0, [.n 0, .t 2, .n 0], ⟨"sums"⟩, some ⟨0, .left⟩, none, true⟩,
    ⟨1, [.n 0], ⟨"sums"⟩, none, none, false⟩]
  roots := [⟨⟨"sums"⟩, 2, 0⟩]
  resync := [(⟨"sums"⟩, [])]
  levels := ⟨⟨[("+", .left)], [("+", 0)]⟩, [(⟨"sums"⟩, [])]⟩

/-- **Behind a sum** comes its operator or the end of the text. -/
theorem lower_lookahead_exact_sums :
    lower [.sums [⟨"+", .left, ["+"]⟩]] sums.levels = .ok sums ∧
      InRow sums.followSets 0 2 ∧ InRow sums.followSets 0 endOfText := by
  have hlower : lower [.sums [⟨"+", .left, ["+"]⟩]] sums.levels = .ok sums := by cbv
  obtain ⟨-, -, -, -, hforms⟩ :=
    lower_lookahead_exact (by simp [Grammar.sums, Alternative.plain]) hlower
  have hr : ⟨⟨"sums"⟩, 2, 0⟩ ∈ sums.roots := List.mem_singleton.mpr rfl
  have hone : Relation.ReflTransGen sums.Rewrites [.n 1] [.n 0] :=
    .single (.rule (p := sums.production 2) (by decide) [] [])
  have htwo : Relation.ReflTransGen sums.Rewrites [.n 1] [.n 0, .t 2, .n 0] :=
    hone.tail (.rule (p := sums.production 1) (by decide) [] [])
  exact ⟨hlower, (hforms _ ⟨_, hr, htwo⟩).1 [] 0 2 [.n 0] rfl, (hforms _ ⟨_, hr, hone⟩).2 [] 0 rfl⟩

end Composite

end LayeredSyntax
