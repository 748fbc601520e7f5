/-
  THE CANONICAL COLLECTION — the automaton of lowered grammars, said without its construction.

  `IsCollection` says of an automaton:

  1. It is all there: there is no state left to see to, and however long the search goes on, it adds
     nothing.
  2. Its kernels are different sets of items, and every state can be reached from that of a root.
  3. There is one transition over a symbol where an item of the state has the symbol behind its
     place, and no other; it leads to the items that have it, with their places moved over it.  In
     an alternative of fewer than 2^16 symbols that is the place behind the symbol.  Places have 16
     bits, so in a longer alternative the last place is followed by the first one, and it is not
     true of all grammars that every place is moved to the next one (`not_leadsBehind_rowOf`).
  4. The items of a state are the least set that holds the kernel and all beginnings of what its
     items are in front of.
  5. No transition leads to the state of a root.

  **The crux** is that kernels are kept in order, so that a kernel and its set of items are the same
  thing: states with the same items are one state (`Ordered.ext`, `Numbered`), and a transition is
  known by the items it leads to (`IsMove.unique`).  That every state can be reached is carried
  along the search (`kernels_rule`), for a state is only numbered when a transition leads there.
-/
import Mathlib.Logic.Relation
import Mathlib.Order.Bounds.Basic
import LayeredSyntax.Proofs.Table.LongRows
import LayeredSyntax.Proofs.Table.Rounds
import LayeredSyntax.Proofs.Table.Spots

namespace LayeredSyntax

/-- Whether an item is another one with its place moved over one symbol. -/
def Item.IsBehind (i j : Item) : Prop :=
  i.production = j.production ∧ i.dot.toNat = j.dot.toNat + 1

/-! ## Closures -/

namespace Composite

variable {c : Composite}

/-- A set of items that holds a kernel, and in front of a nonterminal the beginnings of all its
    productions. -/
structure ClosedOver (c : Composite) (kernel : List Item) (I : Set Item) : Prop where
  kernel : ∀ i ∈ kernel, i ∈ I
  begun : ∀ i ∈ I, ∀ (q : Nat) (p : Production), c.nextSymbol? i = some (.n p.lhs) →
    c.productions[q]? = some p → ⟨q, 0⟩ ∈ I

/-- **A closure is the least set that is closed over its kernel.** -/
theorem isLeast_closure (hc : c.WellFormed) (kernel : List Item) :
    IsLeast {I | c.ClosedOver kernel I} {i | i ∈ (ItemGraph.of c).closure kernel} := by
  refine ⟨⟨fun i hi => ?_, fun i hi q p hnext hp => ?_⟩, fun I hI i hi => ?_⟩
  · exact (mem_closure hc).mpr (.kernel hi)
  · exact (mem_closure hc).mpr (.begun ((mem_closure hc).mp hi) hnext hp)
  · have hstate := (mem_closure hc).mp hi
    clear hi
    induction hstate with
    | kernel h => exact hI.kernel _ h
    | begun _ hnext hp ih => exact hI.begun _ ih _ _ hnext hp

/-- What moves are filed under are different symbols. -/
theorem nodup_moves (c : Composite) (kernel : List Item) :
    (((ItemGraph.of c).moves kernel).map (·.1)).Nodup := by
  have hplaces : (c.filed kernel).toList.zipIdx.Pairwise fun p q => p.2 ≠ q.2 := by
    rw [← List.pairwise_map, List.zipIdx_map_snd]
    exact List.nodup_range'
  unfold ItemGraph.moves List.Nodup
  rw [List.pairwise_map, List.pairwise_filterMap]
  refine hplaces.imp fun {p q} hne x hx y hy heq => hne ?_
  -- A symbol is known by its place.
  have hsymbol : ∀ {p : List Item × Nat} {x : Sym × List Item},
      (if p.1.isEmpty then none else some ((ItemGraph.of c).symbolAt p.2, p.1)) = some x →
      (ItemGraph.of c).place x.1 = p.2 := by
    intro p x hx
    split at hx
    · cases hx
    · cases hx
      exact place_symbolAt p.2
  rw [← hsymbol hx, ← hsymbol hy, heq]

end Composite

namespace Automaton

variable {c : Composite} {a : Automaton}

/-! ## States and transitions -/

/-- Whether there is a transition from one state to another. -/
def Leads (a : Automaton) (n m : Nat) : Prop :=
  ∃ moves s, a.moves[n]? = some moves ∧ (s, m) ∈ moves

/-- **The canonical collection of a composite.** -/
structure IsCollection (c : Composite) (a : Automaton) : Prop where
  /-- However long the search goes on, it adds nothing. -/
  finished : ∀ fuel, explore (.of c) a fuel = a
  moves_size : a.moves.size = a.kernels.size
  /-- The first states are those of the roots. -/
  entry : ∀ (i : Nat) (r : Root), c.roots[i]? = some r → a.kernels[i]? = some [⟨r.production, 0⟩]
  /-- States with the same items are one state. -/
  distinct : ∀ (n m : Nat) (k l : List Item), a.kernels[n]? = some k → a.kernels[m]? = some l →
    (∀ i, i ∈ k ↔ i ∈ l) → n = m
  reachable : ∀ n, n < a.kernels.size →
    ∃ i, i < c.roots.length ∧ Relation.ReflTransGen a.Leads i n
  closure : ∀ kernel, IsLeast {I | c.ClosedOver kernel I} {i | i ∈ (ItemGraph.of c).closure kernel}
  /-- No symbol has two transitions. -/
  once : ∀ moves ∈ a.moves, (moves.map (·.1)).Nodup
  transition : ∀ (n : Nat) kernel moves, a.kernels[n]? = some kernel → a.moves[n]? = some moves →
    ∀ s, (∃ m, (s, m) ∈ moves) ↔
      ∃ i ∈ (ItemGraph.of c).closure kernel, c.nextSymbol? i = some s
  target : ∀ (n : Nat) kernel moves, a.kernels[n]? = some kernel → a.moves[n]? = some moves →
    ∀ s m, (s, m) ∈ moves → ∃ target, a.kernels[m]? = some target ∧ ∀ i, i ∈ target ↔
      ∃ j ∈ (ItemGraph.of c).closure kernel, c.nextSymbol? j = some s ∧ i = j.advance
  /-- Places are counted up to the last one of 16 bits. -/
  wraps : ∀ j : Item, j.advance.production = j.production ∧
    j.advance.dot.toNat = (j.dot.toNat + 1) % UInt16.size
  /-- In a short alternative a place is moved to the one behind the symbol. -/
  advance : ∀ j s p, c.productions[j.production]? = some p → p.Short → c.nextSymbol? j = some s →
    j.advance.IsBehind j
  /-- No transition leads to the state of a root. -/
  entry_not_target : ∀ n m, a.Leads n m → c.roots.length ≤ m

/-- Whether every transition over a symbol leads to the items that have it, each with its place
    behind the symbol. -/
def LeadsBehind (c : Composite) (a : Automaton) : Prop :=
  ∀ (n : Nat) kernel moves, a.kernels[n]? = some kernel → a.moves[n]? = some moves →
    ∀ s m, (s, m) ∈ moves → ∃ target, a.kernels[m]? = some target ∧ ∀ i, i ∈ target ↔
      ∃ j ∈ (ItemGraph.of c).closure kernel, c.nextSymbol? j = some s ∧ i.IsBehind j

/-- A search that has seen to all states does nothing. -/
theorem explore_eq_self (g : ItemGraph) (h : a.moves.size = a.kernels.size) (fuel : Nat) :
    explore g a fuel = a := by
  cases fuel with
  | zero => rfl
  | succ fuel =>
    unfold explore
    rw [Array.getElem?_eq_none (Nat.le_of_eq h.symm)]

theorem RowFits.map_fst {xs : List (Sym × Nat)} {ys : List (Sym × List Item)}
    (h : a.RowFits xs ys) : xs.map (·.1) = ys.map (·.1) := by
  induction h with
  | nil => rfl
  | cons hxy _ ih => rw [List.map_cons, List.map_cons, hxy.1, ih]

/-- Every state is reached over transitions from the state of a root. -/
theorem Explored.reachable (hc : c.WellFormed) (h : Explored c (of (.of c))) :
    ∀ kernel ∈ (of (.of c)).kernels, ∃ n i, (of (.of c)).kernels[n]? = some kernel ∧
      i < c.roots.length ∧ Relation.ReflTransGen (of (.of c)).Leads i n := by
  refine kernels_rule hc (fun r hr => ?_) fun kernel s target hkernel hmove => ?_
  · obtain ⟨i, hi⟩ := List.getElem?_of_mem hr
    exact ⟨i, i, h.roots i r hi, (List.getElem?_eq_some_iff.mp hi).1, .refl⟩
  · obtain ⟨n, i, hn, hi, hpath⟩ := hkernel
    obtain ⟨moves, m, hmoves, hm, htarget⟩ := h.exists_state hn hmove
    exact ⟨m, i, htarget, hi, hpath.tail ⟨_, s, hmoves, hm⟩⟩

/-- A kernel has one number. -/
theorem Numbered.eq_of_getElem? {kernel : List Item} {n m : Nat} (h : a.Numbered)
    (hn : a.kernels[n]? = some kernel) (hm : a.kernels[m]? = some kernel) : n = m :=
  Option.some.inj (((h kernel n).mpr hn).symm.trans ((h kernel m).mpr hm))

/-- **No transition leads back to the beginning of a text**: where one leads, the production of a
    root is past its beginning. -/
theorem Explored.length_le_of_leads (hc : c.WellFormed) (h : Explored c a) {n m : Nat}
    (hleads : a.Leads n m) : c.roots.length ≤ m := by
  obtain ⟨moves, s, hmoves, hm⟩ := hleads
  by_contra hlt
  have hroot := h.roots m _ (List.getElem?_eq_getElem (Nat.not_le.mp hlt))
  have hn : n < a.kernels.size := h.moves_size ▸ (Array.getElem?_eq_some_iff.mp hmoves).1
  obtain ⟨target, htarget, hmove⟩ := h.sound n _ moves s m (Array.getElem?_eq_getElem hn) hmoves hm
  obtain rfl := Option.some.inj (htarget.symm.trans hroot)
  obtain ⟨j, _, hnext, hj⟩ := (hmove.mem_iff _).mp List.mem_cons_self
  exact hc.advance_ne_root (List.getElem_mem _) hnext hj.symm

/-- **The automaton of a composite is its canonical collection.** -/
theorem of_isCollection (hc : c.WellFormed) : IsCollection c (of (.of c)) := by
  obtain ⟨hsearch, hsize, hroots⟩ := of_searching hc
  have h := of_explored hc
  refine ⟨explore_eq_self _ hsize, hsize, hroots, fun n m k l hk hl hkl => ?_, fun n hn => ?_,
    Composite.isLeast_closure hc, fun moves hmoves => ?_, fun n kernel moves hn hms s => ?_,
    fun n kernel moves hn hms s m hm => ?_, fun j => ⟨rfl, j.dot_advance⟩,
    fun j s p hp hshort hnext => ⟨rfl, Composite.dot_advance_of_short hp hshort hnext⟩,
    fun n m => h.length_le_of_leads hc⟩
  · have hordered : ∀ {n k}, (of (.of c)).kernels[n]? = some k → Ordered k := fun hk =>
      (hsearch.kernels _ (Array.mem_of_getElem? hk)).2.1
    obtain rfl := (hordered hk).ext (hordered hl) hkl
    exact hsearch.numbered.eq_of_getElem? hk hl
  · obtain ⟨m, i, hm, hi, hpath⟩ := h.reachable hc _ (Array.getElem_mem hn)
    obtain rfl := hsearch.numbered.eq_of_getElem? hm (Array.getElem?_eq_getElem hn)
    exact ⟨i, hi, hpath⟩
  · obtain ⟨n, hn⟩ := Array.getElem?_of_mem hmoves
    obtain ⟨kernel, row, _, hrow, hfits⟩ := hsearch.fits n (Array.getElem?_eq_some_iff.mp hn).1
    obtain rfl := Option.some.inj (hrow.symm.trans hn)
    rw [hfits.map_fst]
    exact c.nodup_moves kernel
  · constructor
    · rintro ⟨m, hm⟩
      obtain ⟨target, _, hmove⟩ := h.sound n kernel moves s m hn hms hm
      obtain ⟨j, hj, hnext⟩ := hmove.exists_item
      exact ⟨j, (Composite.mem_closure hc).mpr hj, hnext⟩
    · rintro ⟨j, hj, hnext⟩
      obtain ⟨target, hmove⟩ := Composite.exists_isMove hc ((Composite.mem_closure hc).mp hj) hnext
      obtain ⟨m, hm, _⟩ := h.complete n kernel moves s target hn hms hmove
      exact ⟨m, hm⟩
  · obtain ⟨target, htarget, hmove⟩ := h.sound n kernel moves s m hn hms hm
    refine ⟨target, htarget, fun i => ?_⟩
    simp only [hmove.mem_iff, Composite.mem_closure hc]

end Automaton

/-- **Lowering leads to the canonical collection.** -/
theorem compositeOf_isCollection {grammars : List Grammar} {c : Composite}
    (h : compositeOf grammars = .ok c) : Automaton.IsCollection c (.of (.of c)) :=
  Automaton.of_isCollection (compositeOf_wellFormed h)

/-- **The states of sums**, whose operator leads back into them. -/
theorem compositeOf_isCollection_sums :
    compositeOf [.sums [⟨"+", .left, ["+"]⟩]] = .ok .sums ∧
      Automaton.IsCollection .sums (.of (.of .sums)) := by
  have hlower : compositeOf [.sums [⟨"+", .left, ["+"]⟩]] = .ok .sums := by cbv
  exact ⟨hlower, compositeOf_isCollection hlower⟩

/-- **Behind the last place of all there is none**: in a row of 2^16 words, the last word leads back
    to the beginning of the row. -/
theorem not_leadsBehind_rowOf : ∃ c, compositeOf [.rowOf 65536] = .ok c ∧
    ¬ Automaton.LeadsBehind c (.of (.of c)) := by
  refine ⟨.rowOf 65536, Composite.compositeOf_rowOf 65535, fun hbehind => ?_⟩
  have hexplored := Automaton.of_explored (Composite.wellFormed_rowOf 65535)
  obtain ⟨n, hn⟩ := Composite.exists_kernel_row (n := 65535) 65534 (by decide) (by decide)
  have hmove : (Composite.rowOf 65536).IsMove [.behind 0 65535] (.t 1) [.behind 0 65536] :=
    Composite.isMove_row (by decide) (by decide)
  obtain ⟨moves, m, hmoves, hm, htarget⟩ := hexplored.exists_state hn hmove
  obtain ⟨target, htarget', hitems⟩ := hbehind n _ _ hn hmoves _ m hm
  obtain rfl := Option.some.inj (htarget.symm.trans htarget')
  obtain ⟨j, _, _, _, hdot⟩ := (hitems (.behind 0 65536)).mp List.mem_cons_self
  have hzero : (Item.behind 0 65536).dot.toNat = 0 := rfl
  rw [hzero] at hdot
  exact absurd hdot (Nat.succ_ne_zero _).symm

end LayeredSyntax
