/-
  WHAT A STATE STANDS FOR — items, closures and moves said without tables.

  `InState` says by two rules which items a state stands for: those of its kernel, and with an item
  in front of a nonterminal the beginnings of all productions of it.  `IsMove` says what kernel lies
  behind a symbol.  The closure and the moves that are computed are just these (`mem_closure`,
  `mem_moves`).

  1. Places have 16 bits.  In a production that has fewer symbols than there are places
     (`Production.Short`), moving a place over a symbol leads to the next one; behind the last of all
     places the first one comes again.
  2. The loop over the items of a state keeps `Closing`: the items are those of the state, and what
     has been gone over has begun what it stands in front of.
  3. **The crux** of the moves is that kernels are kept in order: two ordered lists of the same items
     are equal, so a kernel is known by its items.
-/
import LayeredSyntax.Proofs.Composition.Lowered
import LayeredSyntax.Proofs.Table.LookaheadSets
import LayeredSyntax.Table.Automaton

namespace LayeredSyntax

/-! ## The order of items -/

namespace Item

theorem before_iff {a b : Item} : a.before b = true ↔ a.production < b.production ∨
    (a.production = b.production ∧ a.dot.toNat < b.dot.toNat) := by
  unfold before
  simp [UInt16.lt_iff_toNat_lt]

theorem before_irrefl (a : Item) : ¬ a.before a = true := by
  rw [before_iff]
  omega

theorem before_trans {a b c : Item} (h : a.before b = true) (h' : b.before c = true) :
    a.before c = true := by
  rw [before_iff] at *
  omega

/-- Of two items one is before the other, unless they are the same. -/
theorem before_total {a b : Item} (hne : a ≠ b) (h : ¬ a.before b = true) : b.before a = true := by
  rw [before_iff] at *
  have hparts : ¬ (a.production = b.production ∧ a.dot.toNat = b.dot.toNat) := fun ⟨hp, hd⟩ => by
    cases a
    cases b
    obtain rfl := UInt16.toNat_inj.mp hd
    exact hne (by simp_all)
  omega

end Item

/-! ## Places -/

/-- Whether there are more places than the production has symbols. -/
def Production.Short (p : Production) : Prop := p.rhs.length < UInt16.size

namespace Item

/-- A production with its place behind some of its symbols. -/
def behind (q n : Nat) : Item := ⟨q, .ofNat n⟩

@[simp] theorem production_behind (q n : Nat) : (behind q n).production = q := rfl

theorem dot_behind {q n : Nat} (h : n < UInt16.size) : (behind q n).dot.toNat = n :=
  UInt16.toNat_ofNat_of_lt' h

theorem behind_ne_zero {q n : Nat} (hpos : n ≠ 0) (h : n < UInt16.size) : (behind q n).dot ≠ 0 := by
  intro hzero
  have hdot := dot_behind (q := q) h
  rw [hzero] at hdot
  exact hpos hdot.symm

/-- An item in range is known by the symbols in front of its place. -/
theorem eq_behind (i : Item) : i = behind i.production i.dot.toNat := by
  cases i
  exact congrArg (Item.mk _) UInt16.ofNat_toNat.symm

/-- **Moving a place over a symbol**: places are counted up to the last one. -/
theorem dot_advance (i : Item) : i.advance.dot.toNat = (i.dot.toNat + 1) % UInt16.size :=
  UInt16.toNat_add i.dot 1

theorem advance_behind (q n : Nat) : (behind q n).advance = behind q (n + 1) := by
  unfold behind advance
  rw [UInt16.ofNat_add]
  rfl

/-- What has been moved to a place comes from the place in front of it. -/
theorem eq_behind_of_advance {i : Item} {q n : Nat} (h : behind q (n + 1) = i.advance) :
    i = behind q n := by
  rw [← advance_behind] at h
  obtain ⟨hproduction, hdot⟩ := Item.mk.inj h
  cases i
  exact congr (congrArg Item.mk hproduction.symm) (UInt16.add_left_inj 1 |>.mp hdot).symm

end Item

/-! ## Ordered lists of items -/

/-- Whether a list of items is in order, without repetitions. -/
def Ordered (items : List Item) : Prop := items.Pairwise fun a b => a.before b = true

theorem mem_insertItem {item x : Item} {items : List Item} :
    x ∈ insertItem item items ↔ x = item ∨ x ∈ items := by
  induction items with
  | nil => simp [insertItem]
  | cons a rest ih =>
    unfold insertItem
    split
    · next h =>
      subst h
      simp
    · split
      · simp
      · simp only [List.mem_cons, ih]
        exact or_left_comm

theorem Ordered.insertItem {item : Item} {items : List Item} (h : Ordered items) :
    Ordered (insertItem item items) := by
  induction items with
  | nil => exact List.pairwise_singleton _ _
  | cons a rest ih =>
    obtain ⟨ha, hrest⟩ := List.pairwise_cons.mp h
    unfold LayeredSyntax.insertItem
    split
    · exact h
    · next hne =>
      split
      · next hlt =>
        refine List.pairwise_cons.mpr ⟨fun x hx => ?_, h⟩
        rcases List.mem_cons.mp hx with rfl | hx
        · exact hlt
        · exact Item.before_trans hlt (ha x hx)
      · next hge =>
        refine List.pairwise_cons.mpr ⟨fun x hx => ?_, ih hrest⟩
        rcases mem_insertItem.mp hx with rfl | hx
        · exact Item.before_total (Ne.symm hne) hge
        · exact ha x hx

/-- **An ordered list is known by its items.** -/
theorem Ordered.ext {xs ys : List Item} (hx : Ordered xs) (hy : Ordered ys)
    (h : ∀ i, i ∈ xs ↔ i ∈ ys) : xs = ys := by
  induction xs generalizing ys with
  | nil =>
    cases ys with
    | nil => rfl
    | cons b ys => exact absurd ((h b).mpr List.mem_cons_self) (List.not_mem_nil)
  | cons a xs ih =>
    cases ys with
    | nil => exact absurd ((h a).mp List.mem_cons_self) (List.not_mem_nil)
    | cons b ys =>
      obtain ⟨ha, hxs⟩ := List.pairwise_cons.mp hx
      obtain ⟨hb, hys⟩ := List.pairwise_cons.mp hy
      -- The least items are the same, as each is among the others.
      have hab : a = b := by
        rcases List.mem_cons.mp ((h a).mp List.mem_cons_self) with heq | hin
        · exact heq
        · rcases List.mem_cons.mp ((h b).mpr List.mem_cons_self) with heq | hin'
          · exact heq.symm
          · exact absurd (Item.before_trans (hb a hin) (ha b hin')) (Item.before_irrefl b)
      subst hab
      congr 1
      refine ih hxs hys fun i => ⟨fun hi => ?_, fun hi => ?_⟩
      · rcases List.mem_cons.mp ((h i).mp (List.mem_cons_of_mem _ hi)) with rfl | hi'
        · exact absurd (ha i hi) (Item.before_irrefl i)
        · exact hi'
      · rcases List.mem_cons.mp ((h i).mpr (List.mem_cons_of_mem _ hi)) with rfl | hi'
        · exact absurd (hb i hi) (Item.before_irrefl i)
        · exact hi'

namespace Composite

variable {c : Composite}

/-! ## Items in range -/

/-- A production is in the place of its number. -/
theorem production_eq {q : Nat} {p : Production} (h : c.productions[q]? = some p) :
    c.production q = p := by
  unfold production
  rw [h]
  rfl

/-- What stands behind the place of an item. -/
theorem nextSymbol?_eq_some {i : Item} {s : Sym} : c.nextSymbol? i = some s ↔
    ∃ p, c.productions[i.production]? = some p ∧ p.rhs[i.dot.toNat]? = some s := by
  unfold nextSymbol? production
  cases h : c.productions[i.production]? with
  | none =>
    show ([] : List Sym)[i.dot.toNat]? = some s ↔ _
    simp
  | some p => simp

/-- Behind some symbols of a production stands the next one. -/
theorem nextSymbol?_behind {q n : Nat} {p : Production} {s : Sym} (hp : c.productions[q]? = some p)
    (hn : n < UInt16.size) : c.nextSymbol? (.behind q n) = some s ↔ p.rhs[n]? = some s := by
  rw [nextSymbol?_eq_some, Item.dot_behind hn]
  constructor
  · rintro ⟨p', hp', hs⟩
    obtain rfl := Option.some.inj (hp.symm.trans hp')
    exact hs
  · exact fun hs => ⟨p, hp, hs⟩

/-- The symbol behind a place is in range. -/
theorem WellFormed.hasSymbol_next (hc : c.WellFormed) {i : Item} {s : Sym}
    (h : c.nextSymbol? i = some s) : c.HasSymbol s := by
  obtain ⟨p, hp, hs⟩ := nextSymbol?_eq_some.mp h
  exact (hc.productions p (Array.mem_of_getElem? hp)).symbols s (List.mem_of_getElem? hs)

/-- Whether an item is a production with a place in it or at its end. -/
def HasItem (c : Composite) (i : Item) : Prop :=
  ∃ p, c.productions[i.production]? = some p ∧ i.dot.toNat ≤ p.rhs.length

theorem HasItem.advance {i : Item} {s : Sym} (h : c.nextSymbol? i = some s) :
    c.HasItem i.advance := by
  obtain ⟨p, hp, hs⟩ := nextSymbol?_eq_some.mp h
  refine ⟨p, hp, ?_⟩
  rw [Item.dot_advance]
  exact Nat.le_trans (Nat.mod_le _ _) (List.getElem?_eq_some_iff.mp hs).1

/-- **In a short production a place is moved to the next one.** -/
theorem dot_advance_of_short {i : Item} {p : Production} {s : Sym}
    (hp : c.productions[i.production]? = some p) (hshort : p.Short)
    (h : c.nextSymbol? i = some s) : i.advance.dot.toNat = i.dot.toNat + 1 := by
  obtain ⟨p', hp', hs⟩ := nextSymbol?_eq_some.mp h
  obtain rfl := Option.some.inj (hp.symm.trans hp')
  rw [Item.dot_advance]
  exact Nat.mod_eq_of_lt (Nat.lt_of_le_of_lt (List.getElem?_eq_some_iff.mp hs).1 hshort)

/-- The production of a root is short. -/
theorem WellFormed.short_root (hc : c.WellFormed) {r : Root} {p : Production} (hr : r ∈ c.roots)
    (hp : c.productions[r.production]? = some p) : p.Short := by
  obtain ⟨p', hp', hrhs, _⟩ := hc.root r hr
  obtain rfl := Option.some.inj (hp.symm.trans hp')
  unfold Production.Short
  rw [hrhs]
  exact show 1 < UInt16.size by decide

/-- **No place is moved to the beginning of a root.** -/
theorem WellFormed.advance_ne_root (hc : c.WellFormed) {r : Root} (hr : r ∈ c.roots) {i : Item}
    {s : Sym} (h : c.nextSymbol? i = some s) : i.advance ≠ ⟨r.production, 0⟩ := by
  intro heq
  obtain ⟨p, hp, _⟩ := hc.root r hr
  have hsame : i.production = r.production := congrArg Item.production heq
  have hdot := dot_advance_of_short (hsame ▸ hp) (hc.short_root hr hp) h
  rw [heq] at hdot
  exact absurd hdot (Nat.succ_ne_zero _).symm

/-! ## Closures -/

/-- **The items that a state stands for**, by its kernel. -/
inductive InState (c : Composite) (kernel : List Item) : Item → Prop where
  | kernel {i : Item} (h : i ∈ kernel) : InState c kernel i
  /-- In front of a nonterminal all productions of it begin. -/
  | begun {i : Item} {q : Nat} {p : Production} (h : InState c kernel i)
      (hnext : c.nextSymbol? i = some (.n p.lhs)) (hp : c.productions[q]? = some p) :
      InState c kernel ⟨q, 0⟩

/-- Only the kernel has items that are past their beginning. -/
theorem InState.mem_of_pos {kernel : List Item} {i : Item} (h : c.InState kernel i)
    (hpos : i.dot ≠ 0) : i ∈ kernel := by
  cases h with
  | kernel h => exact h
  | begun => exact absurd rfl hpos

/-- **What holds all through the loop over the items of a state.**  The items up to the `i`-th one
    have been gone over, and what they stand in front of has been met. -/
structure Closing (c : Composite) (kernel : List Item) (met : Array Bool) (items : Array Item)
    (i : Nat) : Prop where
  size : met.size = c.nonterminals.size
  inState : ∀ x ∈ items, c.InState kernel x
  kernel : ∀ x ∈ kernel, x ∈ items
  begun : ∀ (a q : Nat), met[a]? = some true → q ∈ c.productionsByLhs[a]?.getD [] →
    (⟨q, 0⟩ : Item) ∈ items
  seen : ∀ (k : Nat) (x : Item) (a : Nat), k < i → items[k]? = some x →
    c.nextSymbol? x = some (.n a) → met[a]? = some true

namespace Closing

variable {kernel : List Item} {met : Array Bool} {items : Array Item} {i a : Nat}

/-- Before the loop there is the kernel. -/
theorem start (c : Composite) (kernel : List Item) :
    c.Closing kernel (Array.replicate c.nonterminals.size false) kernel.toArray 0 := by
  refine ⟨Array.size_replicate, fun x hx => .kernel (List.mem_toArray.mp hx),
    fun x hx => List.mem_toArray.mpr hx, fun a q ha => ?_, fun k _ _ hk => absurd hk (Nat.not_lt_zero k)⟩
  rw [Array.getElem?_replicate] at ha
  split at ha <;> cases ha

/-- Going over an item that stands in front of nothing new. -/
theorem skip (h : c.Closing kernel met items i)
    (hmet : ∀ x a, items[i]? = some x → c.nextSymbol? x = some (.n a) → met[a]? = some true) :
    c.Closing kernel met items (i + 1) :=
  { h with
    seen := fun k x a hk hx hnext => by
      rcases Nat.lt_succ_iff_lt_or_eq.mp hk with hlt | rfl
      · exact h.seen k x a hlt hx hnext
      · exact hmet x a hx hnext }

/-- **Going over an item in front of a nonterminal that is new**: its productions begin. -/
theorem meet (h : c.Closing kernel met items i) (hi : i < items.size)
    (hnext : c.nextSymbol? items[i] = some (.n a)) (hnew : met[a]? = some false) :
    c.Closing kernel (met.setIfInBounds a true)
      (items ++ ((c.productionsByLhs[a]?.getD []).map (Item.mk · 0)).toArray) (i + 1) := by
  have ha : a < met.size := (Array.getElem?_eq_some_iff.mp hnew).1
  have hitems : ∀ x, x ∈ items ++ ((c.productionsByLhs[a]?.getD []).map (Item.mk · 0)).toArray ↔
      x ∈ items ∨ ∃ q ∈ c.productionsByLhs[a]?.getD [], ⟨q, 0⟩ = x := fun x => by
    rw [Array.mem_append, @List.mem_toArray _ x (List.map _ _), List.mem_map]
  -- What had been met is still met, and the nonterminal is too.
  have hmet : ∀ b : Nat, (met.setIfInBounds a true)[b]? = some true ↔ b = a ∨ met[b]? = some true := by
    intro b
    rw [Array.getElem?_setIfInBounds]
    by_cases hb : a = b
    · simp [hb ▸ ha, hb]
    · simp [hb, Ne.symm hb]
  refine ⟨by rw [Array.size_setIfInBounds]; exact h.size, fun x hx => ?_,
    fun x hx => (hitems x).mpr (.inl (h.kernel x hx)), fun b q hb hq => ?_,
    fun k x b hk hx hb => (hmet b).mpr ?_⟩
  · rcases (hitems x).mp hx with hx | ⟨q, hq, rfl⟩
    · exact h.inState x hx
    · obtain ⟨_, p, hp, rfl⟩ := mem_productionsByLhs.mp hq
      exact .begun (h.inState _ (Array.getElem_mem hi)) hnext hp
  · rcases (hmet b).mp hb with rfl | hb
    · exact (hitems _).mpr (.inr ⟨q, hq, rfl⟩)
    · exact (hitems _).mpr (.inl (h.begun b q hb hq))
  · have hk' : k < items.size := Nat.lt_of_le_of_lt (Nat.le_of_lt_succ hk) hi
    have hold : items[k]? = some x := by
      rwa [Array.getElem?_append_left hk'] at hx
    rcases Nat.lt_succ_iff_lt_or_eq.mp hk with hlt | rfl
    · exact .inr (h.seen k x b hlt hold hb)
    · obtain rfl : items[k] = x := by
        rwa [Array.getElem?_eq_getElem hk', Option.some.injEq] at hold
      exact .inl (Sym.n.inj (Option.some.inj (hb.symm.trans hnext)))

/-- Behind the last item the items are those of the state. -/
theorem mem_iff (hc : c.WellFormed) (h : c.Closing kernel met items i) (hi : items.size ≤ i)
    (x : Item) : x ∈ items ↔ c.InState kernel x := by
  refine ⟨h.inState x, fun hx => ?_⟩
  induction hx with
  | kernel hx => exact h.kernel _ hx
  | @begun j q p _ hnext hp ih =>
    obtain ⟨k, hk⟩ := Array.getElem?_of_mem ih
    have hlt : k < i := Nat.lt_of_lt_of_le (Array.getElem?_eq_some_iff.mp hk).1 hi
    exact h.begun p.lhs q (h.seen k j p.lhs hlt hk hnext)
      (mem_productionsByLhs.mpr ⟨(hc.hasSymbol_next hnext).1, p, hp, rfl⟩)

end Closing

/-- **The loop ends with the items of the state.** -/
theorem mem_closureFrom (hc : c.WellFormed) {kernel : List Item} {met : Array Bool}
    {items : Array Item} {i : Nat} (h : c.Closing kernel met items i) (x : Item) :
    x ∈ (ItemGraph.of c).closureFrom met items i ↔ c.InState kernel x := by
  -- A nonterminal that is in range and not new has been met.
  have hold : ∀ {met : Array Bool} {items : Array Item} {i b : Nat}, c.Closing kernel met items i →
      (met[b]? = some false → False) → (∃ y, c.nextSymbol? y = some (.n b)) →
      met[b]? = some true := by
    rintro met items i b h hnot ⟨y, hy⟩
    have hb : b < met.size := h.size ▸ (hc.hasSymbol_next hy).1
    cases hmark : met[b] with
    | true => rw [Array.getElem?_eq_getElem hb, hmark]
    | false => exact (hnot (by rw [Array.getElem?_eq_getElem hb, hmark])).elim
  fun_induction (ItemGraph.of c).closureFrom met items i with
  | case1 met items i hi a hnext hnew ih =>
    rw [ItemGraph.nextSymbol?_eq] at hnext
    exact ih (h.meet hi hnext hnew)
  | case2 met items i hi a hnext hnot ih =>
    rw [ItemGraph.nextSymbol?_eq] at hnext
    refine ih (h.skip fun y b hy hb => ?_)
    obtain rfl : items[i] = y := by rwa [Array.getElem?_eq_getElem hi, Option.some.injEq] at hy
    obtain rfl := Sym.n.inj (Option.some.inj (hnext.symm.trans hb))
    exact hold h hnot ⟨_, hb⟩
  | case3 met items i hi hnot ih =>
    refine ih (h.skip fun y b hy hb => ?_)
    obtain rfl : items[i] = y := by rwa [Array.getElem?_eq_getElem hi, Option.some.injEq] at hy
    exact (hnot b ((ItemGraph.nextSymbol?_eq _ _).trans hb)).elim
  | case4 met items i hi => exact h.mem_iff hc (Nat.not_lt.mp hi) x

/-- **The closure holds the items that the state stands for.** -/
theorem mem_closure (hc : c.WellFormed) {kernel : List Item} {i : Item} :
    i ∈ (ItemGraph.of c).closure kernel ↔ c.InState kernel i := by
  unfold ItemGraph.closure
  rw [Array.mem_toList_iff]
  exact mem_closureFrom hc (.start c kernel) i

/-! ## Moves -/

/-- **The kernel behind a symbol**: the items of the state with their places moved over it. -/
structure IsMove (c : Composite) (kernel : List Item) (s : Sym) (target : List Item) : Prop where
  ordered : Ordered target
  ne_nil : target ≠ []
  mem_iff : ∀ i, i ∈ target ↔
    ∃ j, c.InState kernel j ∧ c.nextSymbol? j = some s ∧ i = j.advance

/-- There is one kernel behind a symbol. -/
theorem IsMove.unique {kernel target target' : List Item} {s : Sym}
    (h : c.IsMove kernel s target) (h' : c.IsMove kernel s target') : target = target' :=
  h.ordered.ext h'.ordered fun i => (h.mem_iff i).trans (h'.mem_iff i).symm

/-- A move is over the symbol that an item of the state stands before. -/
theorem IsMove.exists_item {kernel target : List Item} {s : Sym}
    (h : c.IsMove kernel s target) : ∃ j, c.InState kernel j ∧ c.nextSymbol? j = some s := by
  obtain ⟨i, hi⟩ := List.exists_mem_of_ne_nil target h.ne_nil
  obtain ⟨j, hj, hnext, _⟩ := (h.mem_iff i).mp hi
  exact ⟨j, hj, hnext⟩

theorem IsMove.hasSymbol {kernel target : List Item} {s : Sym} (h : c.IsMove kernel s target)
    (hc : c.WellFormed) : c.HasSymbol s := by
  obtain ⟨_, _, hnext⟩ := h.exists_item
  exact hc.hasSymbol_next hnext

theorem size_addMove (g : ItemGraph) (kernels : Array (List Item)) (i : Item) :
    (g.addMove kernels i).size = kernels.size := by
  unfold ItemGraph.addMove
  split
  · exact Array.size_modify
  · rfl

/-- Adding the move of one item. -/
theorem addMove_spec (g : ItemGraph) (kernels : Array (List Item)) (j : Item) (k : Nat) :
    ((∀ k : Nat, Ordered (kernels[k]?.getD [])) → Ordered ((g.addMove kernels j)[k]?.getD [])) ∧
      ∀ i, i ∈ (g.addMove kernels j)[k]?.getD [] ↔
        (k < kernels.size ∧ ∃ s, g.composite.nextSymbol? j = some s ∧ g.place s = k ∧
          i = j.advance) ∨ i ∈ kernels[k]?.getD [] := by
  rw [← g.nextSymbol?_eq]
  unfold ItemGraph.addMove
  split
  · next s hs =>
    rw [Array.getElem?_modify]
    rcases Nat.lt_or_ge k kernels.size with hk | hk
    · rw [Array.getElem?_eq_getElem hk]
      by_cases hplace : g.place s = k
      · rw [if_pos hplace]
        refine ⟨fun h => ?_, fun i => ?_⟩
        · have := h k
          rw [Array.getElem?_eq_getElem hk] at this
          exact this.insertItem
        · show i ∈ insertItem j.advance kernels[k] ↔ _
          rw [mem_insertItem]
          simp [hk, hs, hplace]
      · rw [if_neg hplace]
        refine ⟨fun h => ?_, fun i => ?_⟩
        · have := h k
          rwa [Array.getElem?_eq_getElem hk] at this
        · simp [hs, hplace]
    · rw [Array.getElem?_eq_none hk]
      have hk' : ¬ k < kernels.size := Nat.not_lt.mpr hk
      split
      · exact ⟨fun _ => List.Pairwise.nil, fun i => by simp [hk']⟩
      · exact ⟨fun _ => List.Pairwise.nil, fun i => by simp [hk']⟩
  · next hs => exact ⟨fun h => h k, fun i => by simp [hs]⟩

/-- The kernels behind all symbols, by the places of the symbols. -/
theorem foldl_addMove_spec (g : ItemGraph) (items : List Item) :
    ∀ kernels : Array (List Item), (∀ k : Nat, Ordered (kernels[k]?.getD [])) →
      (items.foldl g.addMove kernels).size = kernels.size ∧
      ∀ k : Nat, Ordered ((items.foldl g.addMove kernels)[k]?.getD []) ∧
        ∀ i, i ∈ (items.foldl g.addMove kernels)[k]?.getD [] ↔
          (k < kernels.size ∧ ∃ j ∈ items, ∃ s, g.composite.nextSymbol? j = some s ∧
            g.place s = k ∧ i = j.advance) ∨ i ∈ kernels[k]?.getD [] := by
  induction items with
  | nil => intro kernels h; simpa using h
  | cons a items ih =>
    intro kernels h
    obtain ⟨hsize, hspec⟩ := ih (g.addMove kernels a) fun k => (addMove_spec g kernels a k).1 h
    refine ⟨hsize.trans (size_addMove _ _ _), fun k => ⟨(hspec k).1, fun i => ?_⟩⟩
    rw [List.foldl_cons, (hspec k).2 i, size_addMove, (addMove_spec g kernels a k).2 i]
    constructor
    · rintro (⟨hk, j, hj, hrest⟩ | ⟨hk, hrest⟩ | hi)
      · exact .inl ⟨hk, j, List.mem_cons_of_mem _ hj, hrest⟩
      · exact .inl ⟨hk, a, List.mem_cons_self, hrest⟩
      · exact .inr hi
    · rintro (⟨hk, j, hj, hrest⟩ | hi)
      · rcases List.mem_cons.mp hj with rfl | hj
        · exact .inr (.inl ⟨hk, hrest⟩)
        · exact .inl ⟨hk, j, hj, hrest⟩
      · exact .inr (.inr hi)

/-- The symbol at the place of a symbol. -/
theorem symbolAt_place {s : Sym} (h : c.HasSymbol s) :
    (ItemGraph.of c).symbolAt ((ItemGraph.of c).place s) = s := by
  cases s with
  | t id =>
    have hlt : id < c.terminalCount := Nat.lt_succ_of_le h.2
    exact if_pos hlt
  | n id =>
    refine (if_neg (Nat.not_lt.mpr (Nat.le_add_right _ _))).trans ?_
    show Sym.n (c.terminalCount + id - c.terminalCount) = .n id
    rw [Nat.add_sub_cancel_left]

/-- The place of the symbol at a place. -/
theorem place_symbolAt (k : Nat) :
    (ItemGraph.of c).place ((ItemGraph.of c).symbolAt k) = k := by
  unfold ItemGraph.symbolAt
  split
  · rfl
  · next h =>
    show c.terminalCount + (k - c.terminalCount) = k
    have hle : c.terminalCount ≤ k := Nat.not_lt.mp h
    omega

theorem place_lt {s : Sym} (h : c.HasSymbol s) :
    (ItemGraph.of c).place s < (ItemGraph.of c).symbolCount := by
  cases s with
  | t id =>
    have hle : id ≤ c.terminals.size := h.2
    show id < c.terminals.size + 1 + c.nonterminals.size
    omega
  | n id =>
    have hlt : id < c.nonterminals.size := h.1
    show c.terminals.size + 1 + id < c.terminals.size + 1 + c.nonterminals.size
    omega

/-- What is filed for a state, by the places of the symbols. -/
def filed (c : Composite) (kernel : List Item) : Array (List Item) :=
  ((ItemGraph.of c).closure kernel).foldl (ItemGraph.of c).addMove
    (Array.replicate (ItemGraph.of c).symbolCount [])

theorem filed_spec (c : Composite) (kernel : List Item) :
    (c.filed kernel).size = (ItemGraph.of c).symbolCount ∧
      ∀ k : Nat, Ordered ((c.filed kernel)[k]?.getD []) ∧
        ∀ i, i ∈ (c.filed kernel)[k]?.getD [] ↔ k < (ItemGraph.of c).symbolCount ∧
          ∃ j ∈ (ItemGraph.of c).closure kernel, ∃ s, c.nextSymbol? j = some s ∧
            (ItemGraph.of c).place s = k ∧ i = j.advance := by
  have hempty : ∀ k : Nat,
      (Array.replicate (ItemGraph.of c).symbolCount ([] : List Item))[k]?.getD [] = [] := by
    intro k
    rw [Array.getElem?_replicate]
    split <;> rfl
  obtain ⟨hsize, hspec⟩ := foldl_addMove_spec (.of c) ((ItemGraph.of c).closure kernel)
    (Array.replicate (ItemGraph.of c).symbolCount []) fun k => by
      rw [hempty]
      exact List.Pairwise.nil
  refine ⟨hsize.trans Array.size_replicate, fun k => ⟨(hspec k).1, fun i => ?_⟩⟩
  refine ((hspec k).2 i).trans ?_
  rw [hempty, Array.size_replicate]
  simp only [List.not_mem_nil, or_false]
  exact Iff.rfl

/-- At the place of a symbol the kernel behind it is filed. -/
theorem mem_filed (hc : c.WellFormed) {kernel : List Item} {s : Sym} (hs : c.HasSymbol s)
    (i : Item) : i ∈ (c.filed kernel)[(ItemGraph.of c).place s]?.getD [] ↔
      ∃ j, c.InState kernel j ∧ c.nextSymbol? j = some s ∧ i = j.advance := by
  rw [((filed_spec c kernel).2 _).2 i]
  constructor
  · rintro ⟨_, j, hj, s', hnext, hplace, rfl⟩
    refine ⟨j, (mem_closure hc).mp hj, ?_, rfl⟩
    have heq := congrArg (ItemGraph.of c).symbolAt hplace
    rw [symbolAt_place (hc.hasSymbol_next hnext), symbolAt_place hs] at heq
    exact heq ▸ hnext
  · rintro ⟨j, hj, hnext, rfl⟩
    exact ⟨place_lt hs, j, (mem_closure hc).mpr hj, s, hnext, rfl, rfl⟩

/-- Where something is filed is the place of a symbol. -/
theorem hasSymbol_of_mem_filed (hc : c.WellFormed) {kernel : List Item} {k : Nat} {i : Item}
    (h : i ∈ (c.filed kernel)[k]?.getD []) : c.HasSymbol ((ItemGraph.of c).symbolAt k) := by
  obtain ⟨_, j, _, s, hnext, rfl, _⟩ := (((filed_spec c kernel).2 k).2 i).mp h
  have hs := hc.hasSymbol_next hnext
  rwa [symbolAt_place hs]

/-- The moves are what is filed and not empty. -/
theorem mem_moves_iff_filed {kernel target : List Item} {s : Sym} :
    (s, target) ∈ (ItemGraph.of c).moves kernel ↔
      ∃ k : Nat, (c.filed kernel)[k]? = some target ∧ target ≠ [] ∧
        (ItemGraph.of c).symbolAt k = s := by
  unfold ItemGraph.moves
  rw [List.mem_filterMap]
  constructor
  · rintro ⟨⟨t, k⟩, ht, h⟩
    dsimp only at h
    split at h
    · cases h
    · next hne =>
      cases h
      refine ⟨k, ?_, by simpa using hne, rfl⟩
      rw [← Array.getElem?_toList]
      exact List.mem_zipIdx_iff_getElem?.mp ht
  · rintro ⟨k, hk, hne, rfl⟩
    refine ⟨(target, k), ?_, ?_⟩
    · rw [← Array.getElem?_toList] at hk
      exact List.mem_zipIdx_iff_getElem?.mpr hk
    · dsimp only
      rw [if_neg (by simpa using hne)]

/-- What is filed at the place of a symbol is the kernel behind it. -/
theorem isMove_filed (hc : c.WellFormed) {kernel : List Item} {j : Item} {s : Sym}
    (hj : c.InState kernel j) (hnext : c.nextSymbol? j = some s) :
    c.IsMove kernel s ((c.filed kernel)[(ItemGraph.of c).place s]?.getD []) := by
  have hs := hc.hasSymbol_next hnext
  have hself := (mem_filed hc hs j.advance).mpr ⟨j, hj, hnext, rfl⟩
  exact ⟨((filed_spec c kernel).2 _).1, List.ne_nil_of_mem hself, mem_filed hc hs⟩

/-- **The moves of a state are the kernels behind the symbols.** -/
theorem mem_moves (hc : c.WellFormed) {kernel target : List Item} {s : Sym} :
    (s, target) ∈ (ItemGraph.of c).moves kernel ↔ c.IsMove kernel s target := by
  rw [mem_moves_iff_filed]
  constructor
  · rintro ⟨k, hk, hne, rfl⟩
    have hget : (c.filed kernel)[k]?.getD [] = target := by
      rw [hk]
      rfl
    obtain ⟨x, hx⟩ := List.exists_mem_of_ne_nil target hne
    have hsym := hasSymbol_of_mem_filed hc (hget.symm ▸ hx)
    have hmem := @mem_filed c hc kernel _ hsym
    rw [place_symbolAt, hget] at hmem
    exact ⟨hget ▸ ((filed_spec c kernel).2 k).1, hne, hmem⟩
  · intro h
    obtain ⟨j, hj, hnext⟩ := h.exists_item
    have heq := (isMove_filed hc hj hnext).unique h
    refine ⟨(ItemGraph.of c).place s, ?_, h.ne_nil, symbolAt_place (hc.hasSymbol_next hnext)⟩
    cases hget : (c.filed kernel)[(ItemGraph.of c).place s]? with
    | none =>
      rw [hget] at heq
      exact absurd heq.symm h.ne_nil
    | some k =>
      rw [hget] at heq
      exact congrArg some heq

/-- There is a move over every symbol that an item of the state waits for. -/
theorem exists_isMove (hc : c.WellFormed) {kernel : List Item} {j : Item} {s : Sym}
    (hj : c.InState kernel j) (hnext : c.nextSymbol? j = some s) :
    ∃ target, c.IsMove kernel s target :=
  ⟨_, isMove_filed hc hj hnext⟩

end Composite

end LayeredSyntax
