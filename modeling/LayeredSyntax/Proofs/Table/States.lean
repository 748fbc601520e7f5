/-
  THE STATES — every state is found, and its moves lead where they should.

  `Explored` gathers what is known of the automaton of a composite: it begins with the states of the
  roots, every state has been seen to, and the moves of a state are just those of its kernel.

  1. While states are numbered, a kernel and its number determine each other (`Numbered`), so there
     are never two states of one kernel.
  2. A state that has been seen to keeps its moves (`MovesFit`).

  **The crux** is that the search ends before its fuel does.  Each round sees to one more state, the
  kernels are different ordered lists of items, and there are no more of them than sets of items.
-/
import Mathlib.Data.Finset.Powerset
import LayeredSyntax.Proofs.Table.Items

namespace LayeredSyntax

/-! ## How many states there can be -/

namespace Composite

/-- All items of a composite. -/
def allItems (c : Composite) : List Item :=
  c.productions.toList.zipIdx.flatMap fun p =>
    (List.range (p.1.rhs.length + 1)).map (Item.behind p.2 ·)

theorem HasItem.mem_allItems {c : Composite} {i : Item} (h : c.HasItem i) : i ∈ c.allItems := by
  obtain ⟨p, hp, hd⟩ := h
  rw [← Array.getElem?_toList] at hp
  exact List.mem_flatMap.mpr ⟨(p, i.production), List.mem_zipIdx_iff_getElem?.mpr hp,
    List.mem_map.mpr ⟨i.dot.toNat, List.mem_range.mpr (Nat.lt_succ_of_le hd), i.eq_behind.symm⟩⟩

theorem length_allItems (c : Composite) : c.allItems.length = (ItemGraph.of c).itemCount := by
  have hfold : ∀ (ps : List Production) (k n : Nat),
      ps.foldl (fun n p => n + p.rhs.length + 1) n = n + ((ps.zipIdx k).flatMap fun p =>
        (List.range (p.1.rhs.length + 1)).map (Item.behind p.2 ·)).length := by
    intro ps
    induction ps with
    | nil => intro k n; rfl
    | cons p ps ih =>
      intro k n
      rw [List.foldl_cons, ih (k + 1), List.zipIdx_cons, List.flatMap_cons, List.length_append,
        List.length_map, List.length_range]
      dsimp only
      omega
  unfold allItems ItemGraph.itemCount
  rw [← Array.foldl_toList]
  have := hfold c.productions.toList 0 0
  rw [Nat.zero_add] at this
  exact this.symm

/-- Different ordered lists of items are no more than the sets of items. -/
theorem length_le_of_ordered {c : Composite} {kernels : List (List Item)} (hnodup : kernels.Nodup)
    (h : ∀ k ∈ kernels, Ordered k ∧ ∀ i ∈ k, c.HasItem i) :
    kernels.length ≤ 2 ^ (ItemGraph.of c).itemCount := by
  have hmap : (kernels.map List.toFinset).Nodup := by
    refine hnodup.map_on fun a ha b hb hab => ?_
    refine (h a ha).1.ext (h b hb).1 fun i => ?_
    rw [← List.mem_toFinset, hab, List.mem_toFinset]
  have hsub : (kernels.map List.toFinset).toFinset ⊆ c.allItems.toFinset.powerset := by
    intro s hs
    obtain ⟨k, hk, rfl⟩ := List.mem_map.mp (List.mem_toFinset.mp hs)
    refine Finset.mem_powerset.mpr fun i hi => ?_
    exact List.mem_toFinset.mpr ((h k hk).2 i (List.mem_toFinset.mp hi)).mem_allItems
  calc kernels.length = (kernels.map List.toFinset).toFinset.card := by
        rw [List.toFinset_card_of_nodup hmap, List.length_map]
    _ ≤ c.allItems.toFinset.powerset.card := Finset.card_le_card hsub
    _ = 2 ^ c.allItems.toFinset.card := Finset.card_powerset _
    _ ≤ 2 ^ (ItemGraph.of c).itemCount := by
        rw [← length_allItems]
        exact Nat.pow_le_pow_right (by omega) (List.toFinset_card_le _)

end Composite

namespace Automaton

/-! ## Numbering -/

/-- A kernel and its number determine each other. -/
def Numbered (a : Automaton) : Prop := ∀ (kernel : List Item) (n : Nat),
  a.numbers[kernel]? = some n ↔ a.kernels[n]? = some kernel

/-- One automaton has the states of another one, with the same numbers. -/
def Extends (a b : Automaton) : Prop := ∀ (n : Nat) (kernel : List Item),
  a.kernels[n]? = some kernel → b.kernels[n]? = some kernel

theorem Extends.refl (a : Automaton) : Extends a a := fun _ _ h => h

theorem Extends.trans {a b d : Automaton} (h : Extends a b) (h' : Extends b d) : Extends a d :=
  fun n k hk => h' n k (h n k hk)

/-- The kernels of an automaton are different. -/
theorem Numbered.nodup {a : Automaton} (h : a.Numbered) : a.kernels.toList.Nodup := by
  rw [List.nodup_iff_getElem?_ne_getElem?]
  intro i j hij hj heq
  rw [Array.getElem?_toList, Array.getElem?_toList] at heq
  have hlt : j < a.kernels.size := hj
  have hgj := Array.getElem?_eq_getElem hlt
  have hi := (h _ i).mpr (heq.trans hgj)
  have hj' := (h _ j).mpr hgj
  have : i = j := Option.some.inj (hi.symm.trans hj')
  omega

/-- What numbering a kernel comes to. -/
theorem number_spec {a b : Automaton} {kernel : List Item} {n : Nat} (h : a.Numbered)
    (hn : a.number kernel = (n, b)) :
    b.Numbered ∧ Extends a b ∧ b.kernels[n]? = some kernel ∧ b.moves = a.moves ∧
      ∀ k ∈ b.kernels, k ∈ a.kernels ∨ k = kernel := by
  unfold number at hn
  split at hn
  · next m hm =>
    cases hn
    exact ⟨h, Extends.refl a, (h _ _).mp hm, rfl, fun k hk => .inl hk⟩
  · next hnone =>
    cases hn
    -- The kernel has no number yet, so no older one is given to it.
    have hfresh : ∀ m : Nat, a.kernels[m]? ≠ some kernel := by
      intro m hm
      have := (h _ _).mpr hm
      rw [hnone] at this
      cases this
    refine ⟨fun k m => ?_, fun m k hk => ?_, ?_, rfl, fun k hk => ?_⟩
    · show (a.numbers.insert kernel a.kernels.size)[k]? = some m ↔
        (a.kernels.push kernel)[m]? = some k
      rw [Std.HashMap.getElem?_insert, Array.getElem?_push]
      by_cases hk : kernel = k
      · subst hk
        rw [if_pos (beq_self_eq_true _)]
        constructor
        · intro heq
          rw [if_pos (Option.some.inj heq).symm]
        · intro heq
          split at heq
          · next hm => rw [hm]
          · exact absurd heq (hfresh m)
      · rw [if_neg (by simpa using hk)]
        split
        · next hm =>
          refine ⟨fun heq => ?_, fun heq => absurd (Option.some.inj heq) hk⟩
          have := (Array.getElem?_eq_some_iff.mp ((h _ _).mp heq)).1
          omega
        · exact h k m
    · show (a.kernels.push kernel)[m]? = some k
      have hlt := (Array.getElem?_eq_some_iff.mp hk).1
      rw [Array.getElem?_push_lt hlt, ← Array.getElem?_eq_getElem hlt]
      exact hk
    · exact Array.getElem?_push_size
    · exact Array.mem_push.mp hk

/-- The states of a row of kernels, symbol for symbol. -/
def RowFits (a : Automaton) : List (Sym × Nat) → List (Sym × List Item) → Prop :=
  List.Forall₂ fun x y => x.1 = y.1 ∧ a.kernels[x.2]? = some y.2

theorem RowFits.extend {a b : Automaton} (h : Extends a b) {xs : List (Sym × Nat)}
    {ys : List (Sym × List Item)} (hxs : a.RowFits xs ys) : b.RowFits xs ys :=
  hxs.imp fun _ _ hxy => ⟨hxy.1, h _ _ hxy.2⟩

/-- What numbering several kernels comes to. -/
theorem numberAll_spec {row : List (Sym × List Item)} :
    ∀ {a b : Automaton} {done moves : List (Sym × Nat)} {front : List (Sym × List Item)},
      a.Numbered → a.RowFits done.reverse front → a.numberAll done row = (moves, b) →
      b.Numbered ∧ Extends a b ∧ b.RowFits moves (front ++ row) ∧ b.moves = a.moves ∧
        ∀ k ∈ b.kernels, k ∈ a.kernels ∨ ∃ s, (s, k) ∈ row := by
  induction row with
  | nil =>
    intro a b done moves front h hdone hrow
    cases hrow
    rw [List.append_nil]
    exact ⟨h, Extends.refl _, hdone, rfl, fun k hk => .inl hk⟩
  | cons y row ih =>
    obtain ⟨s, kernel⟩ := y
    intro a b done moves front h hdone hrow
    unfold numberAll at hrow
    generalize hnum : a.number kernel = r at hrow
    obtain ⟨n, d⟩ := r
    dsimp only at hrow
    obtain ⟨hd, hext, hn, hmoves, hnew⟩ := number_spec h hnum
    have hdone' : d.RowFits ((s, n) :: done).reverse (front ++ [(s, kernel)]) := by
      rw [List.reverse_cons]
      exact List.rel_append (hdone.extend hext) (.cons ⟨rfl, hn⟩ .nil)
    obtain ⟨hb, hext', hfits, hmoves', hnew'⟩ := ih hd hdone' hrow
    refine ⟨hb, hext.trans hext', by simpa using hfits, hmoves'.trans hmoves, fun k hk => ?_⟩
    rcases hnew' k hk with hk | ⟨s', hs'⟩
    · rcases hnew k hk with hk | rfl
      · exact .inl hk
      · exact .inr ⟨s, List.mem_cons_self⟩
    · exact .inr ⟨s', List.mem_cons_of_mem _ hs'⟩

/-! ## Seeing to states -/

/-- The moves of a state that has been seen to. -/
def MovesFit (g : ItemGraph) (a : Automaton) (n : Nat) : Prop :=
  ∃ kernel moves, a.kernels[n]? = some kernel ∧ a.moves[n]? = some moves ∧
    a.RowFits moves (g.moves kernel)

/-- **What holds all through the search.** -/
structure Searching (c : Composite) (a : Automaton) : Prop where
  numbered : a.Numbered
  kernels : ∀ k ∈ a.kernels, k ≠ [] ∧ Ordered k ∧ ∀ i ∈ k, c.HasItem i
  moves_le : a.moves.size ≤ a.kernels.size
  fits : ∀ n, n < a.moves.size → MovesFit (.of c) a n

/-- Seeing to one more state. -/
theorem Searching.step {c : Composite} (hc : c.WellFormed) {a b : Automaton}
    {kernel : List Item} {moves : List (Sym × Nat)} (h : Searching c a)
    (hkernel : a.kernels[a.moves.size]? = some kernel)
    (hrow : a.numberAll [] ((ItemGraph.of c).moves kernel) = (moves, b)) :
    Searching c { b with moves := b.moves.push moves } ∧ Extends a b ∧ b.moves = a.moves := by
  obtain ⟨hb, hext, hfits, hmoves, hnew⟩ := @numberAll_spec _ a b [] moves [] h.numbered .nil hrow
  have hle : a.moves.size < b.kernels.size :=
    (Array.getElem?_eq_some_iff.mp (hext _ _ hkernel)).1
  refine ⟨⟨hb, fun k hk => ?_, ?_, fun n hn => ?_⟩, hext, hmoves⟩
  · rcases hnew k hk with hk | ⟨s, hs⟩
    · exact h.kernels k hk
    · have hmove := (Composite.mem_moves hc).mp hs
      refine ⟨hmove.ne_nil, hmove.ordered, fun i hi => ?_⟩
      obtain ⟨j, _, hnext, rfl⟩ := (hmove.mem_iff i).mp hi
      exact Composite.HasItem.advance hnext
  · show (b.moves.push moves).size ≤ b.kernels.size
    rw [Array.size_push, hmoves]
    exact hle
  · have hn' : n < a.moves.size + 1 := by
      have : n < (b.moves.push moves).size := hn
      rwa [Array.size_push, hmoves] at this
    rcases Nat.lt_succ_iff_lt_or_eq.mp hn' with hlt | rfl
    · obtain ⟨k, ms, hk, hms, hfit⟩ := h.fits n hlt
      refine ⟨k, ms, hext _ _ hk, ?_, hfit.extend hext⟩
      show (b.moves.push moves)[n]? = some ms
      rw [hmoves, Array.getElem?_push_lt hlt, ← Array.getElem?_eq_getElem hlt]
      exact hms
    · refine ⟨kernel, moves, hext _ _ hkernel, ?_, hfits⟩
      show (b.moves.push moves)[a.moves.size]? = some moves
      rw [← hmoves, Array.getElem?_push_size]

/-- The search keeps what it has found, and ends with all states seen to or with its fuel used. -/
theorem explore_spec {c : Composite} (hc : c.WellFormed) (fuel : Nat) :
    ∀ a : Automaton, Searching c a →
      Searching c (explore (.of c) a fuel) ∧ Extends a (explore (.of c) a fuel) ∧
        ((explore (.of c) a fuel).moves.size = (explore (.of c) a fuel).kernels.size ∨
          a.moves.size + fuel ≤ (explore (.of c) a fuel).moves.size) := by
  induction fuel with
  | zero =>
    intro a h
    exact ⟨h, Extends.refl a, .inr (Nat.le_refl _)⟩
  | succ fuel ih =>
    intro a h
    unfold explore
    split
    · next hnone =>
      refine ⟨h, Extends.refl a, .inl ?_⟩
      -- No state is left to be seen to.
      have := Array.getElem?_eq_none_iff.mp hnone
      have := h.moves_le
      omega
    · next kernel hkernel =>
      generalize hrow : a.numberAll [] ((ItemGraph.of c).moves kernel) = r
      obtain ⟨moves, b⟩ := r
      obtain ⟨hb, hext, hmoves⟩ := h.step hc hkernel hrow
      obtain ⟨hfin, hext', hend⟩ := ih _ hb
      refine ⟨hfin, hext.trans hext', ?_⟩
      rcases hend with hend | hend
      · exact .inl hend
      · refine .inr ?_
        have hsize : (b.moves.push moves).size = a.moves.size + 1 := by
          rw [Array.size_push, hmoves]
        dsimp only at hend ⊢
        omega

/-! ## The roots -/

/-- The kernel of a root. -/
def rootKernel (r : Root) : List Item := [⟨r.production, 0⟩]

/-- The states of roots with different productions have the numbers of the roots. -/
theorem start_spec (rs : List Root) :
    ∀ (a : Automaton) (front : List Root), a.Numbered → a.moves = #[] →
      a.kernels.toList = front.map rootKernel → ((front ++ rs).map (·.production)).Nodup →
      ∃ b, rs.foldl (fun a r => (a.number [⟨r.production, 0⟩]).2) a = b ∧ b.Numbered ∧
        b.moves = #[] ∧ b.kernels.toList = (front ++ rs).map rootKernel := by
  induction rs with
  | nil =>
    intro a front ha hmoves hkernels _
    exact ⟨a, rfl, ha, hmoves, by rw [List.append_nil]; exact hkernels⟩
  | cons r rs ih =>
    intro a front ha hmoves hkernels hnodup
    rw [List.foldl_cons]
    -- The root is new, for its production is.
    have hfresh : a.numbers[rootKernel r]? = none := by
      cases hnum : a.numbers[rootKernel r]? with
      | none => rfl
      | some n =>
        have hmem := List.mem_of_getElem? ((Array.getElem?_toList).trans ((ha _ _).mp hnum))
        rw [hkernels] at hmem
        obtain ⟨r', hr', heq⟩ := List.mem_map.mp hmem
        have hprod : r'.production = r.production := by
          unfold rootKernel at heq
          simpa using heq
        rw [List.map_append, List.map_cons, List.nodup_append] at hnodup
        exact absurd hprod
          (hnodup.2.2 _ (List.mem_map_of_mem hr') _ List.mem_cons_self)
    have hnumber : a.number [⟨r.production, 0⟩] = (a.kernels.size,
        { a with
          kernels := a.kernels.push (rootKernel r)
          numbers := a.numbers.insert (rootKernel r) a.kernels.size }) := by
      unfold number
      rw [show a.numbers[[(⟨r.production, 0⟩ : Item)]]? = none from hfresh]
      rfl
    obtain ⟨hb, _, _, hbmoves, _⟩ := number_spec ha hnumber
    rw [hnumber]
    obtain ⟨d, hd, hdnum, hdmoves, hdkernels⟩ := ih _ (front ++ [r]) hb (hbmoves.trans hmoves)
      (by simp [hkernels]) (by simpa using hnodup)
    exact ⟨d, hd, hdnum, hdmoves, by simpa using hdkernels⟩

/-! ## The automaton -/

/-- **What is known of an automaton.** -/
structure Explored (c : Composite) (a : Automaton) : Prop where
  roots : ∀ (i : Nat) (r : Root), c.roots[i]? = some r → a.kernels[i]? = some [⟨r.production, 0⟩]
  nodup : a.kernels.toList.Nodup
  kernels : ∀ k ∈ a.kernels, k ≠ [] ∧ ∀ i ∈ k, c.HasItem i
  moves_size : a.moves.size = a.kernels.size
  /-- A move leads to the state of the kernel behind the symbol. -/
  sound : ∀ (n : Nat) kernel moves s m, a.kernels[n]? = some kernel → a.moves[n]? = some moves →
    (s, m) ∈ moves → ∃ target, a.kernels[m]? = some target ∧ c.IsMove kernel s target
  /-- A state has a move over every symbol that has a kernel behind it. -/
  complete : ∀ (n : Nat) kernel moves s target, a.kernels[n]? = some kernel →
    a.moves[n]? = some moves → c.IsMove kernel s target →
    ∃ m, (s, m) ∈ moves ∧ a.kernels[m]? = some target

namespace Explored

variable {c : Composite} {a : Automaton} {n : Nat} {kernel target : List Item} {s : Sym}

/-- Every state has been seen to. -/
theorem exists_moves (h : Explored c a) (hn : a.kernels[n]? = some kernel) :
    ∃ moves, a.moves[n]? = some moves := by
  have hlt := (Array.getElem?_eq_some_iff.mp hn).1
  rw [← h.moves_size] at hlt
  exact ⟨_, Array.getElem?_eq_getElem hlt⟩

/-- **A kernel behind a symbol of a state has a state**, and the symbol leads there. -/
theorem exists_state (h : Explored c a) (hn : a.kernels[n]? = some kernel)
    (hmove : c.IsMove kernel s target) :
    ∃ moves m, a.moves[n]? = some moves ∧ (s, m) ∈ moves ∧ a.kernels[m]? = some target := by
  obtain ⟨moves, hmoves⟩ := h.exists_moves hn
  obtain ⟨m, hm, htarget⟩ := h.complete n kernel moves s target hn hmoves hmove
  exact ⟨moves, m, hmoves, hm, htarget⟩

end Explored

theorem RowFits.sound {a : Automaton} {xs : List (Sym × Nat)} {ys : List (Sym × List Item)}
    (h : a.RowFits xs ys) {s : Sym} {m : Nat} (hm : (s, m) ∈ xs) :
    ∃ target, a.kernels[m]? = some target ∧ (s, target) ∈ ys := by
  induction h with
  | nil => cases hm
  | @cons x y xs ys hxy _ ih =>
    rcases List.mem_cons.mp hm with rfl | hm
    · refine ⟨y.2, hxy.2, List.mem_cons.mpr (.inl ?_)⟩
      exact Prod.ext hxy.1 rfl
    · obtain ⟨target, ht, hmem⟩ := ih hm
      exact ⟨target, ht, List.mem_cons_of_mem _ hmem⟩

theorem RowFits.complete {a : Automaton} {xs : List (Sym × Nat)} {ys : List (Sym × List Item)}
    (h : a.RowFits xs ys) {s : Sym} {target : List Item} (ht : (s, target) ∈ ys) :
    ∃ m, (s, m) ∈ xs ∧ a.kernels[m]? = some target := by
  induction h with
  | nil => cases ht
  | @cons x y xs ys hxy _ ih =>
    rcases List.mem_cons.mp ht with rfl | ht
    · exact ⟨x.2, List.mem_cons.mpr (.inl (Prod.ext hxy.1.symm rfl)), hxy.2⟩
    · obtain ⟨m, hm, hk⟩ := ih ht
      exact ⟨m, List.mem_cons_of_mem _ hm, hk⟩

theorem numbered_empty : Numbered empty := by
  intro kernel n
  show (∅ : Std.HashMap (List Item) Nat)[kernel]? = some n ↔ (#[] : Array (List Item))[n]? = _
  simp

/-- **The search ends with all states seen to**, and it begins with those of the roots. -/
theorem of_searching {c : Composite} (hc : c.WellFormed) :
    Searching c (of (.of c)) ∧ (of (.of c)).moves.size = (of (.of c)).kernels.size ∧
      ∀ (i : Nat) (r : Root), c.roots[i]? = some r →
        (of (.of c)).kernels[i]? = some (rootKernel r) := by
  obtain ⟨start, hstart, hnum, hmoves, hkernels⟩ := start_spec c.roots empty [] numbered_empty rfl
    rfl hc.roots_nodup
  have hsearch : Searching c start := by
    refine ⟨hnum, fun k hk => ?_, by rw [hmoves]; exact Nat.zero_le _, fun n hn => ?_⟩
    · rw [← Array.mem_toList_iff, hkernels] at hk
      obtain ⟨r, hr, rfl⟩ := List.mem_map.mp hk
      refine ⟨List.cons_ne_nil _ _, List.pairwise_singleton _ _, fun i hi => ?_⟩
      obtain rfl := List.mem_singleton.mp hi
      obtain ⟨p, hp, _⟩ := hc.root r hr
      exact ⟨p, hp, Nat.zero_le _⟩
    · rw [hmoves] at hn
      exact absurd hn (Nat.not_lt_zero n)
  obtain ⟨hfin, hext, hend⟩ := explore_spec hc (2 ^ (ItemGraph.of c).itemCount + 1) start hsearch
  have hof : of (.of c) = explore (.of c) start (2 ^ (ItemGraph.of c).itemCount + 1) := by
    unfold of
    rw [← hstart, Nat.one_shiftLeft]
    rfl
  rw [hof]
  have hsize := hfin.moves_le
  have hbound := Composite.length_le_of_ordered (c := c) hfin.numbered.nodup fun k hk =>
    (hfin.kernels k (Array.mem_toList_iff.mp hk)).2
  rw [Array.length_toList] at hbound
  refine ⟨hfin, ?_, fun i r hr => hext _ _ ?_⟩
  · rcases hend with hend | hend
    · exact hend
    · omega
  · rw [← Array.getElem?_toList, hkernels, List.nil_append, List.getElem?_map, hr]
    rfl

/-- **The automaton of a composite has all states, and every state has all its moves.** -/
theorem of_explored {c : Composite} (hc : c.WellFormed) : Explored c (of (.of c)) := by
  obtain ⟨hfin, hsize, hroots⟩ := of_searching hc
  refine ⟨hroots, hfin.numbered.nodup,
    fun k hk => ⟨(hfin.kernels k hk).1, (hfin.kernels k hk).2.2⟩, hsize, ?_, ?_⟩
  · intro n kernel moves s m hn hms hm
    obtain ⟨k, ms, hk, hms', hfit⟩ := hfin.fits n (Array.getElem?_eq_some_iff.mp hms).1
    obtain rfl : k = kernel := Option.some.inj (hk.symm.trans hn)
    obtain rfl : ms = moves := Option.some.inj (hms'.symm.trans hms)
    obtain ⟨target, ht, hmem⟩ := hfit.sound hm
    exact ⟨target, ht, (Composite.mem_moves hc).mp hmem⟩
  · intro n kernel moves s target hn hms hmove
    obtain ⟨k, ms, hk, hms', hfit⟩ := hfin.fits n (Array.getElem?_eq_some_iff.mp hms).1
    obtain rfl : k = kernel := Option.some.inj (hk.symm.trans hn)
    obtain rfl : ms = moves := Option.some.inj (hms'.symm.trans hms)
    exact hfit.complete ((Composite.mem_moves hc).mpr hmove)

end Automaton

end LayeredSyntax
