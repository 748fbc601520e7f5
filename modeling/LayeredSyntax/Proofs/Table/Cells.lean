/-
  WHAT A TABLE SAYS — every action and every next state has its reason in the items.

  `Canonical` gathers what a parse may rely on, whatever conflicts were settled:

  1. A state goes over a symbol only to the state whose kernel lies behind that symbol.
  2. A production is finished only where its last item is in the kernel, in front of what can stand
     behind its nonterminal, and never when it has as many symbols as there are places; a text is
     accepted only where the start of a grammar has been made.
  3. A state has a next state for every nonterminal that it waits for, and accepts where it can.

  `Unpruned` adds what is true only where no conflict was settled: **nothing that the items and
  FOLLOW allow is missing from a cell**.

  Nothing behind this module looks into how a table is built.
-/
import LayeredSyntax.Proofs.Table.States
import LayeredSyntax.Table.Lookup

namespace LayeredSyntax

namespace Table

/-- The kernel of a state. -/
def kernel? (t : Table) (state : Nat) : Option (List Item) := t.states[state]?.map (·.kernel)

/-- Whether a symbol leads from a state to another one, by their kernels. -/
def Leads (t : Table) (state : Nat) (s : Sym) (target : Nat) : Prop :=
  ∃ kernel moved, t.kernel? state = some kernel ∧ t.kernel? target = some moved ∧
    t.IsMove kernel s moved

/-- **What holds of every composed table.** -/
structure Canonical (t : Table) : Prop where
  wellFormed : t.WellFormed
  kernel_inj : ∀ {m m' : Nat} {kernel : List Item}, t.kernel? m = some kernel →
    t.kernel? m' = some kernel → m = m'
  kernel_items : ∀ {s : Nat} {kernel : List Item}, t.kernel? s = some kernel →
    kernel ≠ [] ∧ ∀ i ∈ kernel, t.HasItem i
  shift : ∀ {s x m : Nat}, .shift m ∈ t.actionsAt s x → t.Leads s (.t x) m
  goto : ∀ {s a m : Nat}, t.goto? s a = some m → t.Leads s (.n a) m
  goto_exists : ∀ {s a : Nat} {kernel target : List Item}, t.kernel? s = some kernel →
    t.IsMove kernel (.n a) target → ∃ m, t.goto? s a = some m ∧ t.kernel? m = some target
  reduce : ∀ {s x q : Nat}, .reduce q ∈ t.actionsAt s x → ∃ kernel p, t.kernel? s = some kernel ∧
    t.productions[q]? = some p ∧ p.Short ∧ .behind q p.rhs.length ∈ kernel ∧
    (t.nonterminal p.lhs).isRoot = false ∧ t.Follows p.lhs x
  accept : ∀ {s x : Nat}, .accept ∈ t.actionsAt s x → x = endOfText ∧
    ∃ kernel, t.kernel? s = some kernel ∧ ∃ r ∈ t.roots, ⟨r.production, 1⟩ ∈ kernel
  accept_exists : ∀ {s : Nat} {kernel : List Item} {r : Root}, t.kernel? s = some kernel →
    r ∈ t.roots → ⟨r.production, 1⟩ ∈ kernel → .accept ∈ t.actionsAt s endOfText
  entry : ∀ {g : GrammarId} {e : Entry}, t.entry? g = some e → ∃ r ∈ t.roots,
    e.start = r.start ∧ t.kernel? e.state = some [⟨r.production, 0⟩]

/-- **What holds where no conflict was settled.** -/
structure Unpruned (t : Table) : Prop where
  shift_exists : ∀ {s x : Nat} {kernel target : List Item}, t.kernel? s = some kernel →
    t.IsMove kernel (.t x) target → ∃ m, .shift m ∈ t.actionsAt s x ∧ t.kernel? m = some target
  reduce_exists : ∀ {s x q : Nat} {kernel : List Item} {p : Production},
    t.kernel? s = some kernel → t.productions[q]? = some p → p.Short →
    .behind q p.rhs.length ∈ kernel → (t.nonterminal p.lhs).isRoot = false →
    t.Follows p.lhs x → .reduce q ∈ t.actionsAt s x

end Table

namespace Composite

variable {c : Composite}

/-! ## Cells -/

/-- What is in a cell was there before its conflicts were settled. -/
theorem mem_prune {x : Nat} {shift : Option Nat} {reduces : List Nat} {accepts : Bool} {a : Action}
    (h : a ∈ (c.prune x shift reduces accepts).cell) :
    (∃ m, a = .shift m ∧ shift = some m) ∨ (∃ q ∈ reduces, a = .reduce q) ∨
      (a = .accept ∧ accepts = true) := by
  have htail : a ∈ (if accepts then [Action.accept] else []) → a = .accept ∧ accepts = true := by
    intro h
    split at h
    · next hacc => exact ⟨List.mem_singleton.mp h, hacc⟩
    · cases h
  unfold prune at h
  cases shift with
  | none =>
    rcases List.mem_append.mp h with h | h
    · obtain ⟨q, hq, rfl⟩ := List.mem_map.mp h
      exact .inr (.inl ⟨q, hq, rfl⟩)
    · exact .inr (.inr (htail h))
  | some m =>
    rcases List.mem_append.mp h with h | h
    · rcases List.mem_append.mp h with h | h
      · split at h
        · exact .inl ⟨m, List.mem_singleton.mp h, rfl⟩
        · cases h
      · obtain ⟨q, hq, rfl⟩ := List.mem_map.mp h
        obtain ⟨p, hp, rfl⟩ := List.mem_map.mp hq
        obtain ⟨q, hq', rfl⟩ := List.mem_map.mp (List.mem_filter.mp hp).1
        exact .inr (.inl ⟨q, hq', rfl⟩)
    · exact .inr (.inr (htail h))

/-- Accepting a text is never taken out. -/
theorem accept_mem_prune (c : Composite) (x : Nat) (shift : Option Nat) (reduces : List Nat) :
    .accept ∈ (c.prune x shift reduces true).cell := by
  unfold prune
  cases shift with
  | none => exact List.mem_append_right _ List.mem_cons_self
  | some m => exact List.mem_append_right _ List.mem_cons_self

/-- **Where nothing was settled, nothing was taken out.** -/
theorem prune_eq_of_settled {x : Nat} {shift : Option Nat} {reduces : List Nat} {accepts : Bool}
    (h : (c.prune x shift reduces accepts).settled = 0) :
    (∀ m, shift = some m → .shift m ∈ (c.prune x shift reduces accepts).cell) ∧
      ∀ q ∈ reduces, .reduce q ∈ (c.prune x shift reduces accepts).cell := by
  unfold prune at h ⊢
  cases shift with
  | none =>
    refine ⟨fun m hm => ?_, fun q hq => List.mem_append_left _ (List.mem_map_of_mem hq)⟩
    cases hm
  | some m =>
    -- No production of the cell is settled against the terminal.
    have hnone : ∀ p ∈ reduces.map fun p => (p, c.settle? x (c.production p)), p.2 = none := by
      intro p hp
      have hempty := List.length_eq_zero_iff.mp h
      have hnot := List.filter_eq_nil_iff.mp hempty p hp
      exact Option.not_isSome_iff_eq_none.mp hnot
    have hreads : ((reduces.map fun p => (p, c.settle? x (c.production p))).any fun p =>
        p.2.any Resolution.dropsShift) = false := by
      rw [List.any_eq_false]
      intro p hp
      rw [hnone p hp]
      exact Bool.false_ne_true
    refine ⟨fun m' hm' => ?_, fun q hq => ?_⟩
    · cases hm'
      dsimp only
      rw [hreads]
      exact List.mem_append_left _ (List.mem_append_left _ List.mem_cons_self)
    · refine List.mem_append_left _ (List.mem_append_right _ (List.mem_map_of_mem ?_))
      have hpair : (q, c.settle? x (c.production q)) ∈
          reduces.map fun p => (p, c.settle? x (c.production p)) := List.mem_map_of_mem hq
      refine List.mem_map.mpr ⟨_, List.mem_filter.mpr ⟨hpair, ?_⟩, rfl⟩
      rw [hnone _ hpair]
      rfl

/-! ## States -/

/-- With nothing behind it, a place is behind all symbols. -/
theorem HasItem.eq_behind {i : Item} (h : c.HasItem i) (hnone : c.nextSymbol? i = none) :
    ∃ p, c.productions[i.production]? = some p ∧ p.Short ∧
      i = .behind i.production p.rhs.length := by
  obtain ⟨p, hp, hdot⟩ := h
  have hlen : p.rhs.length ≤ i.dot.toNat := by
    refine List.getElem?_eq_none_iff.mp (Option.eq_none_iff_forall_ne_some.mpr fun s hs => ?_)
    have hnext := nextSymbol?_eq_some.mpr ⟨p, hp, hs⟩
    exact Option.some_ne_none s (hnext.symm.trans hnone)
  have hend : i.dot.toNat = p.rhs.length := Nat.le_antisymm hdot hlen
  exact ⟨p, hp, Nat.lt_of_le_of_lt hlen i.dot.toNat_lt, hend ▸ i.eq_behind⟩

/-- **What is complete in a state** has its last item in the kernel, and is short, for there is no
    place behind more symbols. -/
theorem mem_complete {kernel : List Item} (hitems : ∀ i ∈ kernel, c.HasItem i) {q : Nat} :
    q ∈ (ItemGraph.of c).complete kernel ↔
      ∃ p, c.productions[q]? = some p ∧ p.Short ∧ .behind q p.rhs.length ∈ kernel := by
  unfold ItemGraph.complete
  simp only [List.mem_map, List.mem_filter, Option.isNone_iff_eq_none, ItemGraph.nextSymbol?_eq]
  constructor
  · rintro ⟨i, ⟨hi, hnone⟩, rfl⟩
    obtain ⟨p, hp, hshort, heq⟩ := (hitems i hi).eq_behind hnone
    exact ⟨p, hp, hshort, heq ▸ hi⟩
  · rintro ⟨p, hp, hshort, hmem⟩
    refine ⟨_, ⟨hmem, Option.eq_none_iff_forall_ne_some.mpr fun s hs => ?_⟩, rfl⟩
    have hsome := (nextSymbol?_behind hp hshort).mp hs
    rw [List.getElem?_eq_none (Nat.le_refl _)] at hsome
    cases hsome

/-- The productions that a state may finish in front of a terminal, before conflicts. -/
def finishes (c : Composite) (follow : Array Nat) (kernel : List Item) (x : Nat) : List Nat :=
  let finished := ((ItemGraph.of c).complete kernel).filter fun p =>
    !(c.nonterminal (c.production p).lhs).isRoot
  (finished.map fun p => (p, follow[(c.production p).lhs]?.getD 0)).filter
    (fun p => p.2.testBit x) |>.map (·.1)

/-- Whether a state has made the start of a grammar. -/
def accepts (c : Composite) (kernel : List Item) : Bool :=
  ((ItemGraph.of c).complete kernel).any fun p => (c.nonterminal (c.production p).lhs).isRoot

theorem getElem?_cells {follow : Array Nat} {kernel : List Item} {moves : List (Sym × Nat)}
    {x : Nat} : (c.cells follow ((ItemGraph.of c).complete kernel) moves)[x]? =
      if x < c.terminalCount then
        some (c.prune x (nextState? moves (.t x)) (c.finishes follow kernel x)
          (c.accepts kernel && x == endOfText))
      else none := by
  unfold cells
  rw [Array.getElem?_map, Array.getElem?_range]
  split
  · rfl
  · rfl

theorem mem_finishes (hc : c.WellFormed) {kernel : List Item}
    (hitems : ∀ i ∈ kernel, c.HasItem i) {q x : Nat} :
    q ∈ c.finishes c.followSets kernel x ↔ ∃ p, c.productions[q]? = some p ∧ p.Short ∧
      .behind q p.rhs.length ∈ kernel ∧ (c.nonterminal p.lhs).isRoot = false ∧
        c.Follows p.lhs x := by
  unfold finishes
  simp only [List.mem_map, List.mem_filter]
  constructor
  · rintro ⟨_, ⟨⟨q, ⟨hq, hroot⟩, rfl⟩, hbit⟩, rfl⟩
    obtain ⟨p, hp, hshort, hmem⟩ := (mem_complete hitems).mp hq
    rw [production_eq hp] at hroot hbit
    exact ⟨p, hp, hshort, hmem, by simpa using hroot, (testBit_followSets hc).mp hbit⟩
  · rintro ⟨p, hp, hshort, hmem, hroot, hfollow⟩
    refine ⟨_, ⟨⟨q, ⟨(mem_complete hitems).mpr ⟨p, hp, hshort, hmem⟩, ?_⟩, rfl⟩, ?_⟩, rfl⟩
    · rw [production_eq hp, hroot]
      rfl
    · rw [production_eq hp]
      exact (testBit_followSets hc).mpr hfollow

theorem accepts_iff (hc : c.WellFormed) {kernel : List Item}
    (hitems : ∀ i ∈ kernel, c.HasItem i) :
    c.accepts kernel = true ↔ ∃ r ∈ c.roots, ⟨r.production, 1⟩ ∈ kernel := by
  unfold accepts
  rw [List.any_eq_true]
  constructor
  · rintro ⟨q, hq, hroot⟩
    obtain ⟨p, hp, _, hmem⟩ := (mem_complete hitems).mp hq
    rw [production_eq hp] at hroot
    obtain ⟨r, hr, rfl⟩ := hc.of_root q p hp hroot
    obtain ⟨p', hp', hrhs, _⟩ := hc.root r hr
    obtain rfl : p = p' := Option.some.inj (hp.symm.trans hp')
    rw [hrhs] at hmem
    exact ⟨r, hr, hmem⟩
  · rintro ⟨r, hr, hmem⟩
    obtain ⟨p, hp, hrhs, hroot⟩ := hc.root r hr
    refine ⟨r.production, (mem_complete hitems).mpr
      ⟨p, hp, hc.short_root hr hp, by rw [hrhs]; exact hmem⟩, ?_⟩
    rw [production_eq hp]
    exact hroot

/-- What can stand behind a nonterminal is in range. -/
theorem Follows.lt_terminalCount (hc : c.WellFormed) {a x : Nat} (h : c.Follows a x) :
    x < c.terminalCount := by
  have hbegins : ∀ {s y}, c.Begins s y → (s = .t y → c.HasSymbol s) → y < c.terminalCount := by
    intro s y hy
    induction hy with
    | terminal y => exact fun hs => Nat.lt_succ_of_le (hs rfl).2
    | @rule p s rest y hp hrhs _ ih =>
      refine fun _ => ih fun _ => ?_
      exact (hc.productions p (Array.mem_toList_iff.mp hp)).symbols s
        (by rw [hrhs]; exact List.mem_cons_self)
  induction h with
  | root => exact Nat.succ_pos _
  | @next p a x s pre post hp hrhs hx =>
    refine hbegins hx fun _ => (hc.productions p (Array.mem_toList_iff.mp hp)).symbols s ?_
    rw [hrhs]
    simp
  | last _ _ _ ih => exact ih

end Composite

/-! ## Tables -/

namespace Table

variable {c : Composite}

/-- What a row of the table is made of. -/
theorem states_eq_some {s : Nat} {row : TableState} :
    (Table.ofComposite c).states[s]? = some row ↔ ∃ kernel moves,
      (Automaton.of (.of c)).kernels[s]? = some kernel ∧
      (Automaton.of (.of c)).moves[s]? = some moves ∧
      row = ((ItemGraph.of c).tableState c.followSets kernel moves).1 := by
  have hrow : (Table.ofComposite c).states[s]? =
      ((((Automaton.of (.of c)).kernels.zip (Automaton.of (.of c)).moves).map
        fun p => (ItemGraph.of c).tableState c.followSets p.1 p.2).map (·.1))[s]? := rfl
  rw [hrow, Array.getElem?_map, Array.getElem?_map, Option.map_map, Option.map_eq_some_iff]
  constructor
  · rintro ⟨⟨kernel, moves⟩, hzip, rfl⟩
    obtain ⟨hk, hm⟩ := Array.getElem?_zip_eq_some.mp hzip
    exact ⟨kernel, moves, hk, hm, rfl⟩
  · rintro ⟨kernel, moves, hk, hm, rfl⟩
    exact ⟨(kernel, moves), Array.getElem?_zip_eq_some.mpr ⟨hk, hm⟩, rfl⟩

/-- A state has a row with the kernel and the moves of the automaton. -/
theorem kernel?_eq_some {s : Nat} {kernel : List Item} :
    (Table.ofComposite c).kernel? s = some kernel ↔ ∃ moves,
      (Automaton.of (.of c)).kernels[s]? = some kernel ∧
      (Automaton.of (.of c)).moves[s]? = some moves := by
  unfold kernel?
  rw [Option.map_eq_some_iff]
  constructor
  · rintro ⟨row, hrow, rfl⟩
    obtain ⟨kernel, moves, hk, hm, rfl⟩ := states_eq_some.mp hrow
    exact ⟨moves, hk, hm⟩
  · rintro ⟨moves, hk, hm⟩
    exact ⟨_, states_eq_some.mpr ⟨kernel, moves, hk, hm, rfl⟩, rfl⟩

theorem kernel?_of_kernels (hc : c.WellFormed) {s : Nat} {kernel : List Item}
    (h : (Automaton.of (.of c)).kernels[s]? = some kernel) :
    (Table.ofComposite c).kernel? s = some kernel := by
  obtain ⟨moves, hmoves⟩ := (Automaton.of_explored hc).exists_moves h
  exact kernel?_eq_some.mpr ⟨moves, h, hmoves⟩

/-- The cell of a state and a terminal. -/
theorem actionsAt_eq {s x : Nat} {kernel : List Item} {moves : List (Sym × Nat)}
    (hk : (Automaton.of (.of c)).kernels[s]? = some kernel)
    (hm : (Automaton.of (.of c)).moves[s]? = some moves) :
    (Table.ofComposite c).actionsAt s x =
      if x < c.terminalCount then
        (c.prune x (nextState? moves (.t x)) (c.finishes c.followSets kernel x)
          (c.accepts kernel && x == endOfText)).cell
      else [] := by
  unfold actionsAt
  rw [states_eq_some.mpr ⟨kernel, moves, hk, hm, rfl⟩]
  show ((c.cells c.followSets ((ItemGraph.of c).complete kernel) moves).map
    (·.cell))[x]?.getD [] = _
  rw [Array.getElem?_map, Composite.getElem?_cells]
  split <;> rfl

/-- An action is in the cell of a state. -/
theorem exists_of_mem_actionsAt {s x : Nat} {a : Action}
    (h : a ∈ (Table.ofComposite c).actionsAt s x) : ∃ kernel moves,
      (Automaton.of (.of c)).kernels[s]? = some kernel ∧
      (Automaton.of (.of c)).moves[s]? = some moves ∧ x < c.terminalCount ∧
      a ∈ (c.prune x (nextState? moves (.t x)) (c.finishes c.followSets kernel x)
          (c.accepts kernel && x == endOfText)).cell := by
  cases hrow : (Table.ofComposite c).states[s]? with
  | none =>
    unfold actionsAt at h
    rw [hrow] at h
    cases h
  | some row =>
    obtain ⟨kernel, moves, hk, hm, _⟩ := states_eq_some.mp hrow
    rw [actionsAt_eq hk hm] at h
    split at h
    · next hx => exact ⟨kernel, moves, hk, hm, hx, h⟩
    · cases h

theorem goto?_eq_some {s a m : Nat} : (Table.ofComposite c).goto? s a = some m ↔
    ∃ kernel moves, (Automaton.of (.of c)).kernels[s]? = some kernel ∧
      (Automaton.of (.of c)).moves[s]? = some moves ∧ a < c.nonterminals.size ∧
      nextState? moves (.n a) = some m := by
  have hgotos : ∀ moves : List (Sym × Nat), (((Array.range c.nonterminals.size).map fun n =>
      nextState? moves (.n n))[a]?).join = some m ↔
        a < c.nonterminals.size ∧ nextState? moves (.n a) = some m := by
    intro moves
    rw [Array.getElem?_map, Array.getElem?_range]
    split
    · next ha => exact ⟨fun h => ⟨ha, h⟩, And.right⟩
    · next ha =>
      refine ⟨fun h => ?_, fun h => absurd h.1 ha⟩
      cases h
  have hgoto : (Table.ofComposite c).goto? s a = some m ↔ ∃ row,
      (Table.ofComposite c).states[s]? = some row ∧ (row.gotos[a]?).join = some m :=
    Option.bind_eq_some_iff
  rw [hgoto]
  constructor
  · rintro ⟨row, hrow, h⟩
    obtain ⟨kernel, moves, hk, hm, rfl⟩ := states_eq_some.mp hrow
    exact ⟨kernel, moves, hk, hm, (hgotos moves).mp h⟩
  · rintro ⟨kernel, moves, hk, hm, h⟩
    exact ⟨_, states_eq_some.mpr ⟨kernel, moves, hk, hm, rfl⟩, (hgotos moves).mpr h⟩

/-- The next state behind a symbol is that of a move. -/
theorem mem_of_nextState? {moves : List (Sym × Nat)} {s : Sym} {m : Nat}
    (h : nextState? moves s = some m) : (s, m) ∈ moves := by
  obtain ⟨front, back, rfl, _⟩ := List.lookup_eq_some_iff.mp h
  simp

/-- Behind the symbol of a move there is a next state. -/
theorem exists_nextState? {moves : List (Sym × Nat)} {s : Sym} {m : Nat} (h : (s, m) ∈ moves) :
    ∃ m', nextState? moves s = some m' := by
  refine Option.isSome_iff_exists.mp (List.lookup_isSome_iff.mpr ⟨(s, m), h, ?_⟩)
  exact beq_self_eq_true s

/-- The next state behind a symbol is that of the kernel behind it. -/
theorem nextState?_sound (hc : c.WellFormed) {n m : Nat} {kernel : List Item}
    {moves : List (Sym × Nat)} {s : Sym} (hk : (Automaton.of (.of c)).kernels[n]? = some kernel)
    (hm : (Automaton.of (.of c)).moves[n]? = some moves) (h : nextState? moves s = some m) :
    (Table.ofComposite c).Leads n s m := by
  obtain ⟨target, ht, hmove⟩ :=
    (Automaton.of_explored hc).sound n kernel moves s m hk hm (mem_of_nextState? h)
  exact ⟨kernel, target, kernel?_of_kernels hc hk, kernel?_of_kernels hc ht, hmove⟩

/-- There is a next state behind every symbol with a kernel behind it. -/
theorem nextState?_complete (hc : c.WellFormed) {n : Nat} {kernel target : List Item}
    {moves : List (Sym × Nat)} {s : Sym} (hk : (Automaton.of (.of c)).kernels[n]? = some kernel)
    (hm : (Automaton.of (.of c)).moves[n]? = some moves) (hmove : c.IsMove kernel s target) :
    ∃ m, nextState? moves s = some m ∧ (Table.ofComposite c).kernel? m = some target := by
  obtain ⟨m₀, hm₀, _⟩ :=
    (Automaton.of_explored hc).complete n kernel moves s target hk hm hmove
  obtain ⟨m, hnext⟩ := exists_nextState? hm₀
  obtain ⟨target', ht', hmove'⟩ :=
    (Automaton.of_explored hc).sound n kernel moves s m hk hm (mem_of_nextState? hnext)
  exact ⟨m, hnext, kernel?_of_kernels hc (hmove.unique hmove' ▸ ht')⟩

/-- **A composed table says nothing without a reason.** -/
theorem ofComposite_canonical (hc : c.WellFormed) : (Table.ofComposite c).Canonical where
  wellFormed := hc
  kernel_inj := by
    intro m m' kernel h h'
    obtain ⟨_, hk, _⟩ := kernel?_eq_some.mp h
    obtain ⟨_, hk', _⟩ := kernel?_eq_some.mp h'
    rw [← Array.getElem?_toList] at hk hk'
    obtain ⟨hlt, _⟩ := List.getElem?_eq_some_iff.mp hk
    exact (List.getElem?_inj hlt (Automaton.of_explored hc).nodup).mp (hk.trans hk'.symm)
  kernel_items := by
    intro s kernel h
    obtain ⟨_, hk, _⟩ := kernel?_eq_some.mp h
    exact (Automaton.of_explored hc).kernels kernel (Array.mem_of_getElem? hk)
  shift := by
    intro s x m h
    obtain ⟨kernel, moves, hk, hm, _, h⟩ := exists_of_mem_actionsAt h
    rcases Composite.mem_prune h with ⟨m', heq, hnext⟩ | ⟨_, _, heq⟩ | ⟨heq, _⟩
    · cases heq
      exact nextState?_sound hc hk hm hnext
    · cases heq
    · cases heq
  goto := by
    intro s a m h
    obtain ⟨kernel, moves, hk, hm, _, hnext⟩ := goto?_eq_some.mp h
    exact nextState?_sound hc hk hm hnext
  goto_exists := by
    intro s a kernel target h hmove
    obtain ⟨moves, hk, hm⟩ := kernel?_eq_some.mp h
    obtain ⟨m, hnext, ht⟩ := nextState?_complete hc hk hm hmove
    exact ⟨m, goto?_eq_some.mpr ⟨kernel, moves, hk, hm, (hmove.hasSymbol hc).1, hnext⟩, ht⟩
  reduce := by
    intro s x q h
    obtain ⟨kernel, moves, hk, hm, _, h⟩ := exists_of_mem_actionsAt h
    have hitems := ((Automaton.of_explored hc).kernels kernel (Array.mem_of_getElem? hk)).2
    rcases Composite.mem_prune h with ⟨_, heq, _⟩ | ⟨q', hq', heq⟩ | ⟨heq, _⟩
    · cases heq
    · cases heq
      obtain ⟨p, hp, hrest⟩ := (Composite.mem_finishes hc hitems).mp hq'
      exact ⟨kernel, p, kernel?_of_kernels hc hk, hp, hrest⟩
    · cases heq
  accept := by
    intro s x h
    obtain ⟨kernel, moves, hk, hm, _, h⟩ := exists_of_mem_actionsAt h
    have hitems := ((Automaton.of_explored hc).kernels kernel (Array.mem_of_getElem? hk)).2
    rcases Composite.mem_prune h with ⟨_, heq, _⟩ | ⟨_, _, heq⟩ | ⟨_, hacc⟩
    · cases heq
    · cases heq
    · obtain ⟨hacc, hx⟩ := Bool.and_eq_true_iff.mp hacc
      exact ⟨eq_of_beq hx, kernel, kernel?_of_kernels hc hk,
        (Composite.accepts_iff hc hitems).mp hacc⟩
  accept_exists := by
    intro s kernel r h hr hmem
    obtain ⟨moves, hk, hm⟩ := kernel?_eq_some.mp h
    have hitems := ((Automaton.of_explored hc).kernels kernel (Array.mem_of_getElem? hk)).2
    rw [actionsAt_eq hk hm, if_pos (show endOfText < c.terminalCount from Nat.succ_pos _),
      (Composite.accepts_iff hc hitems).mpr ⟨r, hr, hmem⟩]
    exact Composite.accept_mem_prune c _ _ _
  entry := by
    intro g e h
    obtain ⟨⟨r, i⟩, hri, rfl⟩ := List.mem_map.mp (List.mem_of_find?_eq_some h)
    have hi := List.mem_zipIdx_iff_getElem?.mp hri
    exact ⟨r, List.mem_of_getElem? hi, rfl,
      kernel?_of_kernels hc ((Automaton.of_explored hc).roots i r hi)⟩

/-- A sum of which nothing is left has no part left. -/
theorem foldl_add_eq_zero {α : Type} {f : α → Nat} {xs : List α} {n : Nat}
    (h : xs.foldl (fun n a => n + f a) n = 0) : n = 0 ∧ ∀ a ∈ xs, f a = 0 := by
  induction xs generalizing n with
  | nil => exact ⟨h, fun _ ha => absurd ha List.not_mem_nil⟩
  | cons a xs ih =>
    obtain ⟨hn, hxs⟩ := ih h
    dsimp only at hn
    refine ⟨by omega, fun b hb => ?_⟩
    rcases List.mem_cons.mp hb with rfl | hb
    · omega
    · exact hxs b hb

/-- A sum without parts. -/
theorem foldl_add_zero {α : Type} {f : α → Nat} {xs : List α} (h : ∀ a ∈ xs, f a = 0) (n : Nat) :
    xs.foldl (fun n a => n + f a) n = n := by
  induction xs with
  | nil => rfl
  | cons a xs ih =>
    rw [List.foldl_cons, h a List.mem_cons_self]
    exact ih fun b hb => h b (List.mem_cons_of_mem _ hb)

/-- **Where nothing can be settled, no conflict is.** -/
theorem conflictsPruned_eq_zero (h : ∀ x q, c.settle? x (c.production q) = none) :
    (Table.ofComposite c).conflictsPruned = 0 := by
  have hprune : ∀ x shift reduces accepts, (c.prune x shift reduces accepts).settled = 0 := by
    intro x shift reduces accepts
    cases shift with
    | none => rfl
    | some m =>
      refine List.length_eq_zero_iff.mpr (List.filter_eq_nil_iff.mpr fun p hp => ?_)
      obtain ⟨q, _, rfl⟩ := List.mem_map.mp hp
      rw [h]
      exact Bool.false_ne_true
  have hrow : ∀ kernel moves, ((ItemGraph.of c).tableState c.followSets kernel moves).2 = 0 := by
    intro kernel moves
    show Array.foldl _ 0 _ = 0
    rw [← Array.foldl_toList]
    refine foldl_add_zero (fun cell hcell => ?_) 0
    obtain ⟨x, hx⟩ := Array.getElem?_of_mem (Array.mem_toList_iff.mp hcell)
    have hget := (@Composite.getElem?_cells c _ kernel _ x).symm.trans hx
    split at hget
    · rw [← Option.some.inj hget]
      exact hprune x _ _ _
    · cases hget
  show Array.foldl _ 0 _ = 0
  rw [← Array.foldl_toList]
  refine foldl_add_zero (fun row hrow' => ?_) 0
  obtain ⟨p, _, rfl⟩ := Array.mem_map.mp (Array.mem_toList_iff.mp hrow')
  exact hrow p.1 p.2

/-- Where no conflict was settled, none was settled in any cell. -/
theorem settled_eq_zero {s x : Nat} {kernel : List Item} {moves : List (Sym × Nat)}
    (h : (Table.ofComposite c).conflictsPruned = 0)
    (hk : (Automaton.of (.of c)).kernels[s]? = some kernel)
    (hm : (Automaton.of (.of c)).moves[s]? = some moves) (hx : x < c.terminalCount) :
    (c.prune x (nextState? moves (.t x)) (c.finishes c.followSets kernel x)
      (c.accepts kernel && x == endOfText)).settled = 0 := by
  have hrows : (((Automaton.of (.of c)).kernels.zip (Automaton.of (.of c)).moves).map fun p =>
      (ItemGraph.of c).tableState c.followSets p.1 p.2).foldl (fun n r => n + r.2) 0 = 0 := h
  rw [← Array.foldl_toList] at hrows
  have hrow := (foldl_add_eq_zero hrows).2 ((ItemGraph.of c).tableState c.followSets kernel moves)
    (Array.mem_toList_iff.mpr (Array.mem_map.mpr ⟨(kernel, moves),
      Array.mem_of_getElem? (Array.getElem?_zip_eq_some.mpr ⟨hk, hm⟩), rfl⟩))
  have hcells : (c.cells c.followSets ((ItemGraph.of c).complete kernel) moves).foldl
      (fun n p => n + p.settled) 0 = 0 := hrow
  rw [← Array.foldl_toList] at hcells
  have hcell := @Composite.getElem?_cells c c.followSets kernel moves x
  rw [if_pos hx] at hcell
  exact (foldl_add_eq_zero hcells).2 _ (Array.mem_toList_iff.mpr (Array.mem_of_getElem? hcell))

/-- **Where no conflict was settled, a table leaves nothing out.** -/
theorem ofComposite_unpruned (hc : c.WellFormed)
    (h : (Table.ofComposite c).conflictsPruned = 0) : (Table.ofComposite c).Unpruned where
  shift_exists := by
    intro s x kernel target hs hmove
    obtain ⟨moves, hk, hm⟩ := kernel?_eq_some.mp hs
    obtain ⟨m, hnext, ht⟩ := nextState?_complete hc hk hm hmove
    have hx : x < c.terminalCount := Nat.lt_succ_of_le (hmove.hasSymbol hc).2
    refine ⟨m, ?_, ht⟩
    rw [actionsAt_eq hk hm, if_pos hx]
    exact (Composite.prune_eq_of_settled (settled_eq_zero h hk hm hx)).1 m hnext
  reduce_exists := by
    intro s x q kernel p hs hp hshort hmem hroot hfollow
    obtain ⟨moves, hk, hm⟩ := kernel?_eq_some.mp hs
    have hitems := ((Automaton.of_explored hc).kernels kernel (Array.mem_of_getElem? hk)).2
    have hx := hfollow.lt_terminalCount hc
    rw [actionsAt_eq hk hm, if_pos hx]
    exact (Composite.prune_eq_of_settled (settled_eq_zero h hk hm hx)).2 q
      ((Composite.mem_finishes hc hitems).mpr ⟨p, hp, hshort, hmem, hroot, hfollow⟩)

end Table

/-- **A table that grammars were composed to is canonical.** -/
theorem compose_canonical {grammars : List Grammar} {t : Table} (h : compose grammars = .ok t) :
    t.Canonical := by
  obtain ⟨c, hc, rfl⟩ := compose_eq_ok h
  exact Table.ofComposite_canonical hc

/-- Where no conflict was settled, it leaves nothing out. -/
theorem compose_unpruned {grammars : List Grammar} {t : Table} (h : compose grammars = .ok t)
    (hpruned : t.conflictsPruned = 0) : t.Unpruned := by
  obtain ⟨c, hc, rfl⟩ := compose_eq_ok h
  exact Table.ofComposite_unpruned hc hpruned

end LayeredSyntax
