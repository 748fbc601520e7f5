/-
  SPOTS — the states of a table for expressions.

  A parse of an expression is always in one of a few SPOTS: in front of an expression or behind it,
  behind a number, or behind a closing parenthesis.  In front of an expression and behind it there
  is more to know, namely where the expression stands: by itself, in parentheses, or on the right
  of an operator (`Base`).

  1. A spot is known by the items of its state (`Spot.Holds`): one main item, and behind an
     expression one item for every operator that could come next.
  2. **A symbol leads from a spot to one other spot** (`Spot.Step`), and the states follow each
     other in the same way (`Spot.Holds.move`, `Spot.Holds.exists_move`).
  3. So **every state of the automaton is one of the spots** (`exists_spot`), since what holds of
     the roots and is kept by every move holds of all states (`Automaton.kernels_rule`).
-/
import LayeredSyntax.Proofs.Table.Cells
import LayeredSyntax.Proofs.Table.Signs

namespace LayeredSyntax

/-! ## What moves keep -/

namespace Automaton

variable {c : Composite} {P : List Item → Prop}

/-- What moves keep is kept while states are seen to. -/
theorem explore_rule (hc : c.WellFormed)
    (hmove : ∀ kernel s target, P kernel → c.IsMove kernel s target → P target) (fuel : Nat) :
    ∀ a : Automaton, a.Numbered → (∀ k ∈ a.kernels, P k) →
      ∀ k ∈ (explore (.of c) a fuel).kernels, P k := by
  induction fuel with
  | zero => exact fun a _ h => h
  | succ fuel ih =>
    intro a hnum h
    unfold explore
    split
    · exact h
    · next kernel hkernel =>
      generalize hrow : a.numberAll [] ((ItemGraph.of c).moves kernel) = r
      obtain ⟨moves, b⟩ := r
      have hempty : a.RowFits ([] : List (Sym × Nat)).reverse [] := .nil
      obtain ⟨hb, _, _, _, hnew⟩ := numberAll_spec hnum hempty hrow
      refine ih { b with moves := b.moves.push moves } hb fun k hk => ?_
      rcases hnew k hk with hk | ⟨s, hs⟩
      · exact h k hk
      · exact hmove kernel s k (h kernel (Array.mem_of_getElem? hkernel))
          ((Composite.mem_moves hc).mp hs)

/-- **What holds of the roots and is kept by moves** holds of all states. -/
theorem kernels_rule (hc : c.WellFormed) (hroot : ∀ r ∈ c.roots, P (rootKernel r))
    (hmove : ∀ kernel s target, P kernel → c.IsMove kernel s target → P target) :
    ∀ k ∈ (of (.of c)).kernels, P k := by
  obtain ⟨start, hstart, hnum, _, hkernels⟩ := start_spec c.roots empty [] numbered_empty rfl
    rfl hc.roots_nodup
  have hof : of (.of c) = explore (.of c) start ((1 <<< (ItemGraph.of c).itemCount) + 1) := by
    unfold of
    rw [← hstart]
    rfl
  rw [hof]
  refine explore_rule hc hmove _ start hnum fun k hk => ?_
  rw [← Array.mem_toList_iff, hkernels] at hk
  obtain ⟨r, hr, rfl⟩ := List.mem_map.mp hk
  exact hroot r hr

end Automaton

/-! ## Spots -/

/-- Where an expression stands. -/
inductive Base (n : Nat) where
  /-- By itself. -/
  | text
  /-- In parentheses. -/
  | paren
  /-- On the right of an operator. -/
  | operand (m : Fin n)

/-- Where a parse of an expression is. -/
inductive Spot (n : Nat) where
  | before (b : Base n)
  | after (b : Base n)
  | number | closed

variable {n : Nat}

/-- The item with its place in front of an expression. -/
def Base.item : Base n → Item
  | text => ⟨2 + n, 0⟩
  | paren => ⟨1, 1⟩
  | operand m => ⟨2 + m, 2⟩

namespace Spot

/-- The item that a spot is known by. -/
def main : Spot n → Item
  | before b => b.item
  | after b => b.item.advance
  | number => ⟨0, 1⟩
  | closed => ⟨1, 3⟩

/-- Whether an operator can come next. -/
def Joins : Spot n → Prop
  | after _ => True
  | _ => False

/-- **The symbols that lead from one spot to another.** -/
inductive Step : Spot n → Sym → Spot n → Prop where
  | number (b : Base n) : Step (before b) (.t 1) number
  | opening (b : Base n) : Step (before b) (.t 2) (before .paren)
  | expression (b : Base n) : Step (before b) (.n 0) (after b)
  | operator (b : Base n) (m : Fin n) : Step (after b) (.t (4 + m)) (before (.operand m))
  | closing : Step (after .paren) (.t 3) closed

/-- **Whether a state is at a spot**, by its kernel. -/
structure Holds (spot : Spot n) (kernel : List Item) : Prop where
  ordered : Ordered kernel
  mem_iff : ∀ i, i ∈ kernel ↔ i = spot.main ∨ (spot.Joins ∧ ∃ m : Fin n, i = ⟨2 + m, 1⟩)

theorem Holds.main_mem {spot : Spot n} {kernel : List Item} (h : spot.Holds kernel) :
    spot.main ∈ kernel := (h.mem_iff _).mpr (.inl rfl)

/-- Spots have different main items. -/
theorem main_inj {spot spot' : Spot n} (h : spot.main = spot'.main) : spot = spot' := by
  rcases spot with b | b | _ | _ <;> rcases spot' with b' | b' | _ | _ <;>
    (try rcases b with _ | _ | m) <;> (try rcases b' with _ | _ | m') <;>
    simp [main, Base.item, Item.advance] at h <;> first
      | rfl
      | (obtain rfl : m = m' := Fin.ext (by omega); rfl)
      | omega

/-- Items that wait for an operator are no main items. -/
theorem main_ne_waiting (spot : Spot n) (m : Fin n) : spot.main ≠ ⟨2 + m, 1⟩ := by
  intro h
  rcases spot with b | b | _ | _ <;> (try rcases b with _ | _ | m') <;>
    simp [main, Base.item, Item.advance] at h <;> omega

theorem main_dot_ne_zero {spot : Spot n} (h : ∀ b, spot ≠ before b) : spot.main.dot ≠ 0 := by
  rcases spot with b | b | _ | _
  · exact absurd rfl (h b)
  · rcases b with _ | _ | m
    · exact show (0 + 1 : UInt16) ≠ 0 by decide
    · exact show (1 + 1 : UInt16) ≠ 0 by decide
    · exact show (2 + 1 : UInt16) ≠ 0 by decide
  · exact show (1 : UInt16) ≠ 0 by decide
  · exact show (3 : UInt16) ≠ 0 by decide

/-- **The main item of a spot is found at no other one.** -/
theorem Holds.eq_of_mem {spot : Spot n} {kernel : List Item} (h : spot.Holds kernel)
    (spot' : Spot n) (hmem : spot'.main ∈ kernel) : spot = spot' := by
  rcases (h.mem_iff _).mp hmem with hsame | ⟨_, m, hno⟩
  · exact main_inj hsame.symm
  · exact absurd hno (main_ne_waiting spot' m)

end Spot

/-! ## Items -/

namespace Composite

variable {c : Composite} {id : GrammarId} {ops : List (String × Precedence)}

/-- The productions of an expression grammar by their numbers. -/
inductive ExpressionOf (id : GrammarId) (ops : List (String × Precedence)) :
    Nat → Production → Prop where
  | number : ExpressionOf id ops 0 ⟨0, [.t 1], id, none, none, false⟩
  | paren : ExpressionOf id ops 1 ⟨0, [.t 2, .n 0, .t 3], id, none, none, false⟩
  | joined (m : Fin ops.length) :
    ExpressionOf id ops (2 + m) (joinedBy id (4 + m) (precedenceIn ops m))
  | text : ExpressionOf id ops (2 + ops.length) ⟨1, [.n 0], id, none, none, false⟩

theorem ExpressionOf.grammar_eq {q : Nat} {p : Production} (h : ExpressionOf id ops q p) :
    p.grammar = id := by
  cases h <;> rfl

theorem ExpressionOf.short {q : Nat} {p : Production} (h : ExpressionOf id ops q p) : p.Short := by
  cases h with
  | number | text => exact show 1 < UInt16.size by decide
  | paren | joined => exact show 3 < UInt16.size by decide

theorem Climbs.productions_iff (hc : c.Climbs id ops) {q : Nat} {p : Production} :
    c.productions[q]? = some p ↔ ExpressionOf id ops q p := by
  rw [← Array.getElem?_toList, hc.productions]
  have hlength : (joiningFrom id 4 ops).length = ops.length := List.length_mapIdx
  have hjoined : ∀ m : Fin ops.length,
      (joiningFrom id 4 ops)[(m : Nat)]? = some (joinedBy id (4 + m) (precedenceIn ops m)) := by
    intro m
    unfold joiningFrom
    rw [List.getElem?_mapIdx, List.getElem?_eq_getElem m.isLt]
    rfl
  constructor
  · intro h
    match q, h with
    | 0, h =>
      obtain rfl := Option.some.inj h
      exact .number
    | 1, h =>
      obtain rfl := Option.some.inj h
      exact .paren
    | q + 2, h =>
      have hrest : (joiningFrom id 4 ops ++ [⟨1, [.n 0], id, none, none, false⟩])[q]? = some p := h
      rcases Nat.lt_trichotomy q ops.length with hlt | rfl | hgt
      · rw [List.getElem?_append_left (by omega), hjoined ⟨q, hlt⟩] at hrest
        obtain rfl := Option.some.inj hrest
        rw [Nat.add_comm]
        exact .joined ⟨q, hlt⟩
      · rw [List.getElem?_append_right (by omega), hlength, Nat.sub_self] at hrest
        obtain rfl := Option.some.inj hrest
        rw [Nat.add_comm]
        exact .text
      · rw [List.getElem?_append_right (by omega), hlength,
          List.getElem?_eq_none (by rw [List.length_singleton]; omega)] at hrest
        cases hrest
  · rintro (_ | _ | m | _)
    · rfl
    · rfl
    · rw [Nat.add_comm]
      show (joiningFrom id 4 ops ++ _)[(m : Nat)]? = _
      rw [List.getElem?_append_left (by omega), hjoined m]
    · rw [Nat.add_comm]
      show (joiningFrom id 4 ops ++ _)[ops.length]? = _
      rw [List.getElem?_append_right (by omega), hlength, Nat.sub_self]
      rfl

theorem Climbs.short (hc : c.Climbs id ops) {q : Nat} {p : Production}
    (hp : c.productions[q]? = some p) : p.Short := (hc.productions_iff.mp hp).short

/-- What stands behind the place of an item of an expression grammar. -/
inductive Ahead (n : Nat) : Item → Sym → Prop where
  | number : Ahead n ⟨0, 0⟩ (.t 1)
  | opening : Ahead n ⟨1, 0⟩ (.t 2)
  | closing : Ahead n ⟨1, 2⟩ (.t 3)
  | operator (m : Fin n) : Ahead n ⟨2 + m, 1⟩ (.t (4 + m))
  | left (m : Fin n) : Ahead n ⟨2 + m, 0⟩ (.n 0)
  | base (b : Base n) : Ahead n b.item (.n 0)

/-- Expressions are the only nonterminals in productions. -/
theorem Ahead.eq_zero {n : Nat} {i : Item} {a : Nat} (h : Ahead n i (.n a)) : a = 0 := by
  cases h <;> rfl

/-- The items with an expression behind their places. -/
theorem Ahead.of_expression {n : Nat} {i : Item} {a : Nat} (h : Ahead n i (.n a)) :
    (∃ m : Fin n, i = ⟨2 + m, 0⟩) ∨ ∃ b : Base n, i = b.item := by
  cases h with
  | left m => exact .inl ⟨m, rfl⟩
  | base b => exact .inr ⟨b, rfl⟩

/-- Past the beginning of a production it is the item of a base. -/
theorem Ahead.eq_item {n : Nat} {i : Item} {a : Nat} (h : Ahead n i (.n a)) (hpos : i.dot ≠ 0) :
    ∃ b : Base n, i = b.item := by
  rcases h.of_expression with ⟨m, rfl⟩ | hb
  · exact absurd rfl hpos
  · exact hb

/-- The items with a terminal behind their places. -/
theorem Ahead.of_terminal {n : Nat} {i : Item} {x : Nat} (h : Ahead n i (.t x)) :
    (x = 1 ∧ i = ⟨0, 0⟩) ∨ (x = 2 ∧ i = ⟨1, 0⟩) ∨ (x = 3 ∧ i = ⟨1, 2⟩) ∨
      ∃ m : Fin n, x = 4 + m ∧ i = ⟨2 + m, 1⟩ := by
  cases h with
  | number => exact .inl ⟨rfl, rfl⟩
  | opening => exact .inr (.inl ⟨rfl, rfl⟩)
  | closing => exact .inr (.inr (.inl ⟨rfl, rfl⟩))
  | operator m => exact .inr (.inr (.inr ⟨m, rfl, rfl⟩))

theorem Climbs.nextSymbol?_iff (hc : c.Climbs id ops) {i : Item} {s : Sym} :
    c.nextSymbol? i = some s ↔ Ahead ops.length i s := by
  rw [nextSymbol?_eq_some]
  constructor
  · rintro ⟨p, hp, hs⟩
    obtain ⟨q, d⟩ := i
    rcases hc.productions_iff.mp hp with _ | _ | m | _
    all_goals dsimp only at *
    · rcases d with _ | d
      · obtain rfl := Option.some.inj hs
        exact .number
      · cases hs
    · rcases d with _ | _ | _ | d
      · obtain rfl := Option.some.inj hs
        exact .opening
      · obtain rfl := Option.some.inj hs
        exact .base .paren
      · obtain rfl := Option.some.inj hs
        exact .closing
      · cases hs
    · rcases d with _ | _ | _ | d
      · obtain rfl := Option.some.inj hs
        exact .left m
      · obtain rfl := Option.some.inj hs
        exact .operator m
      · obtain rfl := Option.some.inj hs
        exact .base (.operand m)
      · cases hs
    · rcases d with _ | d
      · obtain rfl := Option.some.inj hs
        exact .base .text
      · cases hs
  · rintro (_ | _ | _ | m | m | b)
    · exact ⟨_, hc.productions_iff.mpr .number, rfl⟩
    · exact ⟨_, hc.productions_iff.mpr .paren, rfl⟩
    · exact ⟨_, hc.productions_iff.mpr .paren, rfl⟩
    · exact ⟨_, hc.productions_iff.mpr (.joined m), rfl⟩
    · exact ⟨_, hc.productions_iff.mpr (.joined m), rfl⟩
    · cases b with
      | text => exact ⟨_, hc.productions_iff.mpr .text, rfl⟩
      | paren => exact ⟨_, hc.productions_iff.mpr .paren, rfl⟩
      | operand m => exact ⟨_, hc.productions_iff.mpr (.joined m), rfl⟩

/-! ## The items of a spot -/

variable {kernel target : List Item} {spot spot' : Spot ops.length} {i : Item} {s : Sym}

/-- In front of an expression all productions of expressions begin. -/
theorem Climbs.inState_before (hc : c.Climbs id ops) {b : Base ops.length}
    (h : (Spot.before b).Holds kernel) :
    c.InState kernel i ↔ i = b.item ∨ ∃ q < 2 + ops.length, i = ⟨q, 0⟩ := by
  have hnext : c.nextSymbol? b.item = some (.n 0) := hc.nextSymbol?_iff.mpr (.base b)
  constructor
  · intro hi
    cases hi with
    | kernel hmem =>
      rcases (h.mem_iff _).mp hmem with rfl | ⟨hno, _⟩
      · exact .inl rfl
      · cases hno
    | @begun j q p hj hnext hp =>
      have hlhs : p.lhs = 0 := (hc.nextSymbol?_iff.mp hnext).eq_zero
      refine .inr ⟨q, ?_, rfl⟩
      rcases hc.productions_iff.mp hp with _ | _ | m | _
      · omega
      · omega
      · omega
      · cases hlhs
  · rintro (rfl | ⟨q, hq, rfl⟩)
    · exact .kernel h.main_mem
    · have hbegun : ∀ {p : Production}, ExpressionOf id ops q p → p.lhs = 0 →
          c.InState kernel ⟨q, 0⟩ := fun hp hlhs =>
        .begun (.kernel h.main_mem) (hlhs.symm ▸ hnext) (hc.productions_iff.mpr hp)
      match q, hq, @hbegun with
      | 0, _, hbegun => exact hbegun .number rfl
      | 1, _, hbegun => exact hbegun .paren rfl
      | m + 2, hq, hbegun =>
        rw [Nat.add_comm m 2] at hbegun ⊢
        exact hbegun (.joined ⟨m, by omega⟩) rfl

/-- At the other spots nothing begins. -/
theorem Climbs.inState_other (hc : c.Climbs id ops) (h : spot.Holds kernel)
    (hother : ∀ b, spot ≠ .before b) : c.InState kernel i ↔ i ∈ kernel := by
  refine ⟨fun hi => ?_, .kernel⟩
  induction hi with
  | kernel hmem => exact hmem
  | @begun j q p _ hnext _ ih =>
    have hahead := hc.nextSymbol?_iff.mp hnext
    rcases (h.mem_iff _).mp ih with rfl | ⟨_, m, rfl⟩
    · obtain ⟨b, hitem⟩ := hahead.eq_item (Spot.main_dot_ne_zero hother)
      exact (hother b (Spot.main_inj hitem)).elim
    · obtain ⟨b, hitem⟩ := hahead.eq_item (show (1 : UInt16) ≠ 0 by decide)
      exact absurd hitem.symm (Spot.main_ne_waiting (.before b) m)

/-- An item that has been moved over a symbol is one of the spot that the symbol leads to. -/
theorem Climbs.of_behind (hc : c.Climbs id ops) (h : spot.Holds kernel) (hstep : spot.Step s spot')
    {j : Item} (hj : c.InState kernel j) (hnext : c.nextSymbol? j = some s) :
    j.advance = spot'.main ∨ (spot'.Joins ∧ ∃ m : Fin ops.length, j.advance = ⟨2 + m, 1⟩) := by
  have hahead := hc.nextSymbol?_iff.mp hnext
  cases hstep with
  | number | opening =>
    rcases hahead.of_terminal with ⟨hx, rfl⟩ | ⟨hx, rfl⟩ | ⟨hx, rfl⟩ | ⟨m, hx, rfl⟩ <;>
      first | exact .inl rfl | omega
  | closing =>
    rcases hahead.of_terminal with ⟨hx, rfl⟩ | ⟨hx, rfl⟩ | ⟨hx, rfl⟩ | ⟨m, hx, rfl⟩ <;>
      first | exact .inl rfl | omega
  | operator b m =>
    rcases hahead.of_terminal with ⟨hx, rfl⟩ | ⟨hx, rfl⟩ | ⟨hx, rfl⟩ | ⟨m', hx, rfl⟩
    · omega
    · omega
    · omega
    · obtain rfl : m = m' := Fin.ext (by omega)
      exact .inl rfl
  | expression b =>
    rcases (hc.inState_before h).mp hj with rfl | ⟨q, hq, rfl⟩
    · exact .inl rfl
    · rcases hahead.of_expression with ⟨m, hitem⟩ | ⟨b', hitem⟩
      · rw [hitem]
        exact .inr ⟨trivial, m, rfl⟩
      · -- Of all bases only the text is at the beginning of a production.
        cases b' with
        | text =>
          obtain rfl : q = 2 + ops.length := (Item.mk.inj hitem).1
          exact absurd hq (Nat.lt_irrefl _)
        | paren | operand => cases (Item.mk.inj hitem).2

/-- The items of the spot that a symbol leads to have been moved over it. -/
theorem Climbs.exists_behind (hc : c.Climbs id ops) (h : spot.Holds kernel)
    (hstep : spot.Step s spot') :
    i = spot'.main ∨ (spot'.Joins ∧ ∃ m : Fin ops.length, i = ⟨2 + m, 1⟩) →
      ∃ j, c.InState kernel j ∧ c.nextSymbol? j = some s ∧ i = j.advance := by
  have hahead : ∀ {j : Item}, Ahead ops.length j s → c.nextSymbol? j = some s :=
    hc.nextSymbol?_iff.mpr
  cases hstep with
  | number b =>
    rintro (rfl | ⟨hno, _⟩)
    · exact ⟨⟨0, 0⟩, (hc.inState_before h).mpr (.inr ⟨0, by omega, rfl⟩), hahead .number, rfl⟩
    · cases hno
  | opening b =>
    rintro (rfl | ⟨hno, _⟩)
    · exact ⟨⟨1, 0⟩, (hc.inState_before h).mpr (.inr ⟨1, by omega, rfl⟩), hahead .opening, rfl⟩
    · cases hno
  | expression b =>
    rintro (rfl | ⟨_, m, rfl⟩)
    · exact ⟨b.item, .kernel h.main_mem, hahead (.base b), rfl⟩
    · exact ⟨⟨2 + m, 0⟩, (hc.inState_before h).mpr (.inr ⟨2 + m, by omega, rfl⟩),
        hahead (.left m), rfl⟩
  | operator b m =>
    rintro (rfl | ⟨hno, _⟩)
    · exact ⟨⟨2 + m, 1⟩, .kernel ((h.mem_iff _).mpr (.inr ⟨trivial, m, rfl⟩)),
        hahead (.operator m), rfl⟩
    · cases hno
  | closing =>
    rintro (rfl | ⟨hno, _⟩)
    · exact ⟨⟨1, 2⟩, .kernel h.main_mem, hahead .closing, rfl⟩
    · cases hno

/-- **What stands behind a symbol** are the items of the spot that it leads to. -/
theorem Climbs.behind_iff (hc : c.Climbs id ops) (h : spot.Holds kernel)
    (hstep : spot.Step s spot') :
    (∃ j, c.InState kernel j ∧ c.nextSymbol? j = some s ∧ i = j.advance) ↔
      i = spot'.main ∨ (spot'.Joins ∧ ∃ m : Fin ops.length, i = ⟨2 + m, 1⟩) := by
  refine ⟨?_, hc.exists_behind h hstep⟩
  rintro ⟨j, hj, hnext, rfl⟩
  exact hc.of_behind h hstep hj hnext

/-- A symbol behind an item of a spot leads on. -/
theorem Climbs.exists_step (hc : c.Climbs id ops) (h : spot.Holds kernel) {j : Item}
    (hj : c.InState kernel j) (hnext : c.nextSymbol? j = some s) :
    ∃ spot' : Spot ops.length, spot.Step s spot' := by
  have hahead := hc.nextSymbol?_iff.mp hnext
  by_cases hbefore : ∃ b, spot = .before b
  · obtain ⟨b, rfl⟩ := hbefore
    rcases (hc.inState_before h).mp hj with rfl | ⟨q, _, rfl⟩
    · obtain rfl := Option.some.inj (hnext.symm.trans (hc.nextSymbol?_iff.mpr (.base b)))
      exact ⟨_, .expression b⟩
    · cases s with
      | n a =>
        obtain rfl := hahead.eq_zero
        exact ⟨_, .expression b⟩
      | t x =>
        rcases hahead.of_terminal with ⟨rfl, _⟩ | ⟨rfl, _⟩ | ⟨_, hno⟩ | ⟨m, _, hno⟩
        · exact ⟨_, .number b⟩
        · exact ⟨_, .opening b⟩
        · cases (Item.mk.inj hno).2
        · cases (Item.mk.inj hno).2
  · have hother : ∀ b, spot ≠ .before b := fun b hb => hbefore ⟨b, hb⟩
    rcases (h.mem_iff _).mp ((hc.inState_other h hother).mp hj) with rfl | ⟨hjoins, m, rfl⟩
    · -- Behind the place of a main item only a closing parenthesis can stand.
      cases s with
      | n a =>
        obtain ⟨b, hitem⟩ := hahead.eq_item (Spot.main_dot_ne_zero hother)
        exact (hother b (Spot.main_inj hitem)).elim
      | t x =>
        have hpos := Spot.main_dot_ne_zero hother
        rcases hahead.of_terminal with ⟨_, hno⟩ | ⟨_, hno⟩ | ⟨rfl, hitem⟩ | ⟨m, _, hno⟩
        · rw [hno] at hpos
          exact absurd rfl hpos
        · rw [hno] at hpos
          exact absurd rfl hpos
        · obtain rfl : spot = .after .paren := Spot.main_inj hitem
          exact ⟨_, .closing⟩
        · exact absurd hno (Spot.main_ne_waiting spot m)
    · obtain rfl := Option.some.inj (hnext.symm.trans (hc.nextSymbol?_iff.mpr (.operator m)))
      cases spot with
      | after b => exact ⟨_, .operator b m⟩
      | before | number | closed => cases hjoins

/-- **Moves lead from spot to spot.** -/
theorem Climbs.move (hc : c.Climbs id ops) (h : spot.Holds kernel) (hm : c.IsMove kernel s target) :
    ∃ spot' : Spot ops.length, spot.Step s spot' ∧ spot'.Holds target := by
  obtain ⟨j, hj, hnext⟩ := hm.exists_item
  obtain ⟨spot', hstep⟩ := hc.exists_step h hj hnext
  exact ⟨spot', hstep, hm.ordered, fun i => (hm.mem_iff i).trans (hc.behind_iff h hstep)⟩

/-- **Every step is made by a move.** -/
theorem Climbs.exists_move (hc : c.Climbs id ops) (hw : c.WellFormed) (h : spot.Holds kernel)
    (hstep : spot.Step s spot') : ∃ target, c.IsMove kernel s target ∧ spot'.Holds target := by
  obtain ⟨j, hj, hnext, _⟩ := (hc.behind_iff h hstep).mpr (.inl rfl)
  obtain ⟨target, hm⟩ := exists_isMove hw hj hnext
  exact ⟨target, hm, hm.ordered, fun i => (hm.mem_iff i).trans (hc.behind_iff h hstep)⟩

/-- **Every state is at a spot.** -/
theorem Climbs.exists_spot (hc : c.Climbs id ops) (hw : c.WellFormed) :
    ∀ kernel ∈ (Automaton.of (.of c)).kernels, ∃ spot : Spot ops.length, spot.Holds kernel := by
  refine Automaton.kernels_rule hw (fun r hr => ?_) fun kernel s target h hm => ?_
  · rw [hc.roots] at hr
    obtain rfl := List.mem_singleton.mp hr
    refine ⟨.before .text, List.pairwise_singleton _ _, fun i => ?_⟩
    refine List.mem_singleton.trans ⟨.inl, ?_⟩
    rintro (hi | ⟨hno, _⟩)
    · exact hi
    · cases hno
  · obtain ⟨spot, h⟩ := h
    obtain ⟨spot', _, h'⟩ := hc.move h hm
    exact ⟨spot', h'⟩

end Composite

end LayeredSyntax
