/-
  WHAT THE LOOKAHEAD SETS HOLD — FIRST and FOLLOW said without tables.

  `Begins` and `Follows` say by rules what can stand at the beginning of a symbol and right behind
  a nonterminal.  The sets that are computed hold just that (`testBit_firstSets`,
  `testBit_followSets`).

  **The crux**: both tables are unions over what a graph reaches, and a chain of rules of `Begins`
  or of `Follows` is a way in that graph with one more rule at its end.  So each direction is an
  induction over the chain, and the graphs and the sets at their nodes are read off the productions
  by one lemma per table.
-/
import LayeredSyntax.Proofs.Composition.Lowered
import LayeredSyntax.Proofs.Table.Reached
import LayeredSyntax.Table.Lookahead

namespace LayeredSyntax

/-! ## Tables that are filled entry by entry -/

theorem getD_replicate_nil (n i : Nat) : (Array.replicate n ([] : List Nat))[i]?.getD [] = [] := by
  rw [Array.getElem?_replicate]
  split <;> rfl

theorem getD_replicate_zero (n i : Nat) : (Array.replicate n 0)[i]?.getD 0 = 0 := by
  rw [Array.getElem?_replicate]
  split <;> rfl

/-- Adding to one entry of a table of lists. -/
theorem mem_modify_cons {table : Array (List Nat)} {a x i y : Nat} :
    y ∈ (table.modify a (x :: ·))[i]?.getD [] ↔
      (i = a ∧ y = x ∧ i < table.size) ∨ y ∈ table[i]?.getD [] := by
  rw [Array.getElem?_modify]
  rcases Nat.lt_or_ge i table.size with hi | hi
  · rw [Array.getElem?_eq_getElem hi]
    by_cases ha : i = a
    · subst ha
      simp [hi]
    · rw [if_neg (Ne.symm ha)]
      simp [ha]
  · rw [Array.getElem?_eq_none hi]
    have hi' : ¬ i < table.size := Nat.not_lt.mpr hi
    split <;> simp [hi']

/-- Adding to one entry of a table of sets. -/
theorem testBit_modify_or {sets : Array Nat} {a s i x : Nat} :
    ((sets.modify a (· ||| s))[i]?.getD 0).testBit x = true ↔
      (i = a ∧ s.testBit x = true ∧ i < sets.size) ∨ (sets[i]?.getD 0).testBit x = true := by
  rw [Array.getElem?_modify]
  rcases Nat.lt_or_ge i sets.size with hi | hi
  · rw [Array.getElem?_eq_getElem hi]
    by_cases ha : i = a
    · subst ha
      simp [hi, or_comm]
    · rw [if_neg (Ne.symm ha)]
      simp [ha]
  · rw [Array.getElem?_eq_none hi]
    have hi' : ¬ i < sets.size := Nat.not_lt.mpr hi
    split <;> simp [hi']

theorem testBit_terminalSet {x y : Nat} : (terminalSet x).testBit y = true ↔ x = y := by
  unfold terminalSet
  rw [Nat.one_shiftLeft, Nat.testBit_two_pow, decide_eq_true_eq]

/-- What is in a table that was filled from the back, entry by entry. -/
theorem mem_foldr_table {α : Type} {f : α → Array (List Nat) → Array (List Nat)}
    (adds : α → Nat → Nat → Prop) (size : ∀ a t, (f a t).size = t.size)
    (hmem : ∀ a t i y, y ∈ (f a t)[i]?.getD [] ↔ (adds a i y ∧ i < t.size) ∨ y ∈ t[i]?.getD [])
    (n : Nat) (xs : List α) :
    (xs.foldr f (Array.replicate n [])).size = n ∧
      ∀ i y, y ∈ (xs.foldr f (Array.replicate n []))[i]?.getD [] ↔
        i < n ∧ ∃ a ∈ xs, adds a i y := by
  induction xs with
  | nil =>
    refine ⟨Array.size_replicate, fun i y => ?_⟩
    rw [List.foldr_nil, getD_replicate_nil]
    simp
  | cons a xs ih =>
    refine ⟨(size _ _).trans ih.1, fun i y => ?_⟩
    rw [List.foldr_cons, hmem, ih.1, ih.2]
    constructor
    · rintro (⟨h, hi⟩ | ⟨hi, b, hb, h⟩)
      · exact ⟨hi, a, List.mem_cons_self, h⟩
      · exact ⟨hi, b, List.mem_cons_of_mem _ hb, h⟩
    · rintro ⟨hi, b, hb, h⟩
      rcases List.mem_cons.mp hb with rfl | hb
      · exact .inl ⟨h, hi⟩
      · exact .inr ⟨hi, b, hb, h⟩

/-- What is in a table of sets that was filled entry by entry. -/
theorem testBit_foldl_table {α : Type} {f : Array Nat → α → Array Nat}
    (adds : α → Nat → Nat → Prop) (size : ∀ t a, (f t a).size = t.size)
    (hbit : ∀ t a i x, ((f t a)[i]?.getD 0).testBit x = true ↔
      (adds a i x ∧ i < t.size) ∨ (t[i]?.getD 0).testBit x = true) (xs : List α) :
    ∀ sets : Array Nat, (xs.foldl f sets).size = sets.size ∧
      ∀ i x, ((xs.foldl f sets)[i]?.getD 0).testBit x = true ↔
        (i < sets.size ∧ ∃ a ∈ xs, adds a i x) ∨ (sets[i]?.getD 0).testBit x = true := by
  induction xs with
  | nil => intro sets; simp
  | cons a xs ih =>
    intro sets
    obtain ⟨hsize, hmem⟩ := ih (f sets a)
    refine ⟨hsize.trans (size _ _), fun i x => ?_⟩
    rw [List.foldl_cons, hmem, size, hbit]
    constructor
    · rintro (⟨hi, b, hb, h⟩ | ⟨h, hi⟩ | h)
      · exact .inl ⟨hi, b, List.mem_cons_of_mem _ hb, h⟩
      · exact .inl ⟨hi, a, List.mem_cons_self, h⟩
      · exact .inr h
    · rintro (⟨hi, b, hb, h⟩ | h)
      · rcases List.mem_cons.mp hb with rfl | hb
        · exact .inr (.inl ⟨h, hi⟩)
        · exact .inl ⟨hi, b, hb, h⟩
      · exact .inr (.inr h)

namespace Composite

variable {c : Composite} {i j x y : Nat}

/-! ## The graphs -/

theorem mem_productionsByLhs : y ∈ c.productionsByLhs[i]?.getD [] ↔
    i < c.nonterminals.size ∧ ∃ p, c.productions[y]? = some p ∧ p.lhs = i := by
  unfold productionsByLhs
  rw [(mem_foldr_table (fun (p : Production × Nat) i y => p.1.lhs = i ∧ p.2 = y)
    (fun a t => Array.size_modify) (fun a t i y => ?_) _ _).2]
  · constructor
    · rintro ⟨hi, ⟨p, k⟩, hp, hlhs, rfl⟩
      exact ⟨hi, p, by simpa using List.mem_zipIdx_iff_getElem?.mp hp, hlhs⟩
    · rintro ⟨hi, p, hp, hlhs⟩
      exact ⟨hi, (p, y), List.mem_zipIdx_iff_getElem?.mpr (by simpa using hp), hlhs, rfl⟩
  · rw [mem_modify_cons, eq_comm, @eq_comm _ y, and_assoc]

theorem leadingNonterminals_spec :
    c.leadingNonterminals.size = c.nonterminals.size ∧
      ∀ i y, y ∈ c.leadingNonterminals[i]?.getD [] ↔
        i < c.nonterminals.size ∧
          ∃ p ∈ c.productions.toList, p.lhs = i ∧ ∃ rest, p.rhs = .n y :: rest := by
  unfold leadingNonterminals
  refine mem_foldr_table
    (fun (p : Production) i y => p.lhs = i ∧ ∃ rest, p.rhs = .n y :: rest) ?_ ?_ _ _
  · intro p t
    split
    · exact Array.size_modify
    · rfl
  · intro p t i y
    split
    · next id rest h =>
      rw [mem_modify_cons, h]
      constructor
      · rintro (⟨rfl, rfl, hi⟩ | h)
        · exact .inl ⟨⟨rfl, rest, rfl⟩, hi⟩
        · exact .inr h
      · rintro (⟨⟨rfl, _, heq⟩, hi⟩ | h)
        · cases heq
          exact .inl ⟨rfl, rfl, hi⟩
        · exact .inr h
    · next hno =>
      refine ⟨.inr, ?_⟩
      rintro (⟨⟨_, rest, h⟩, _⟩ | h)
      · exact absurd h (hno y rest)
      · exact h

theorem trailedBy_spec :
    c.trailedBy.size = c.nonterminals.size ∧
      ∀ i y, y ∈ c.trailedBy[i]?.getD [] ↔
        i < c.nonterminals.size ∧
          ∃ p ∈ c.productions.toList, p.rhs.getLast? = some (.n i) ∧ p.lhs = y := by
  unfold trailedBy
  refine mem_foldr_table
    (fun (p : Production) i y => p.rhs.getLast? = some (.n i) ∧ p.lhs = y) ?_ ?_ _ _
  · intro p t
    split
    · exact Array.size_modify
    · rfl
  · intro p t i y
    split
    · next id h =>
      rw [mem_modify_cons, h]
      constructor
      · rintro (⟨rfl, rfl, hi⟩ | h)
        · exact .inl ⟨⟨rfl, rfl⟩, hi⟩
        · exact .inr h
      · rintro (⟨⟨heq, rfl⟩, hi⟩ | h)
        · cases heq
          exact .inl ⟨rfl, rfl, hi⟩
        · exact .inr h
    · next hno =>
      refine ⟨.inr, ?_⟩
      rintro (⟨⟨h, _⟩, _⟩ | h)
      · exact absurd h (hno i)
      · exact h

/-! ## The sets at the nodes -/

/-- Note the terminal that a production begins with, if it is one. -/
def noteLeading (table : Array Nat) (p : Production) : Array Nat :=
  match p.rhs with
  | .t id :: _ => table.modify p.lhs (· ||| terminalSet id)
  | _ => table

theorem leadingTerminals_spec :
    c.leadingTerminals.size = c.nonterminals.size ∧
      ∀ i x, (c.leadingTerminals[i]?.getD 0).testBit x = true ↔
        i < c.nonterminals.size ∧
          ∃ p ∈ c.productions.toList, p.lhs = i ∧ ∃ rest, p.rhs = .t x :: rest := by
  let adds := fun (p : Production) i x => p.lhs = i ∧ ∃ rest, p.rhs = .t x :: rest
  have size : ∀ t p, (noteLeading t p).size = t.size := by
    intro t p
    unfold noteLeading
    split
    · exact Array.size_modify
    · rfl
  have hbit : ∀ t p i x, ((noteLeading t p)[i]?.getD 0).testBit x = true ↔
      (adds p i x ∧ i < t.size) ∨ (t[i]?.getD 0).testBit x = true := by
    intro t p i x
    unfold noteLeading
    dsimp only [adds]
    split
    · next id rest h =>
      rw [testBit_modify_or, h, testBit_terminalSet]
      constructor
      · rintro (⟨rfl, rfl, hi⟩ | h)
        · exact .inl ⟨⟨rfl, rest, rfl⟩, hi⟩
        · exact .inr h
      · rintro (⟨⟨rfl, _, heq⟩, hi⟩ | h)
        · cases heq
          exact .inl ⟨rfl, rfl, hi⟩
        · exact .inr h
    · next hno =>
      refine ⟨.inr, ?_⟩
      rintro (⟨⟨_, rest, h⟩, _⟩ | h)
      · exact absurd h (hno x rest)
      · exact h
  obtain ⟨hsize, hmem⟩ := testBit_foldl_table adds size hbit c.productions.toList
    (Array.replicate c.nonterminals.size 0)
  refine ⟨hsize.trans Array.size_replicate, fun i x => (hmem i x).trans ?_⟩
  rw [getD_replicate_zero, Array.size_replicate]
  simp [adds]

/-! ## Unions over what is reached -/

theorem testBit_unionOf {sets : Array Nat} {nodes : List Nat} :
    (unionOf sets nodes).testBit x = true ↔ ∃ j ∈ nodes, (sets[j]?.getD 0).testBit x = true := by
  have hfold : ∀ u, (nodes.foldl (fun u i => u ||| sets[i]?.getD 0) u).testBit x = true ↔
      u.testBit x = true ∨ ∃ j ∈ nodes, (sets[j]?.getD 0).testBit x = true := by
    induction nodes with
    | nil => intro u; simp
    | cons a nodes ih =>
      intro u
      rw [List.foldl_cons, ih]
      simp [or_assoc]
  unfold unionOf
  rw [hfold]
  simp

/-- The union over what a node reaches. -/
theorem testBit_unionOverReached {graph : Array (List Nat)} {sets : Array Nat}
    (hsize : graph.size = sets.size) :
    ((unionOverReached graph sets)[i]?.getD 0).testBit x = true ↔
      i < sets.size ∧ ∃ j, Reached (fun k => graph[k]?.getD []) [i] j ∧
        (sets[j]?.getD 0).testBit x = true := by
  have hnext : ∀ k, sets.size ≤ k → graph[k]?.getD [] = [] := by
    intro k hk
    rw [Array.getElem?_eq_none (by omega)]
    rfl
  unfold unionOverReached
  rw [Array.getElem?_map, Array.getElem?_range]
  by_cases hi : i < sets.size
  · rw [if_pos hi]
    show (unionOf sets _).testBit x = true ↔ _
    rw [testBit_unionOf]
    constructor
    · rintro ⟨j, hj, hx⟩
      exact ⟨hi, j, ((mem_marked_reach hnext).mp hj).2, hx⟩
    · rintro ⟨_, j, hj, hx⟩
      refine ⟨j, (mem_marked_reach hnext).mpr ⟨?_, hj⟩, hx⟩
      rcases Nat.lt_or_ge j sets.size with hlt | hge
      · exact hlt
      · rw [Array.getElem?_eq_none hge] at hx
        simp at hx
  · rw [if_neg hi]
    simp [hi]

/-! ## First -/

/-- **What a symbol can begin with.** -/
inductive Begins (c : Composite) : Sym → Nat → Prop where
  | terminal (x : Nat) : Begins c (.t x) x
  | rule {p : Production} {s : Sym} {rest : List Sym} {x : Nat} (hp : p ∈ c.productions.toList)
      (hrhs : p.rhs = s :: rest) (h : Begins c s x) : Begins c (.n p.lhs) x

/-- A leading nonterminal gives what it begins with to its rule. -/
theorem Begins.of_reached (h : Reached (fun k => c.leadingNonterminals[k]?.getD []) [i] j)
    (hx : c.Begins (.n j) x) : c.Begins (.n i) x := by
  induction h with
  | start hj =>
    obtain rfl := List.mem_singleton.mp hj
    exact hx
  | step _ hj ih =>
    obtain ⟨_, p, hp, rfl, rest, hrhs⟩ := (leadingNonterminals_spec.2 _ _).mp hj
    exact ih (.rule hp hrhs hx)

/-- **FIRST holds what a nonterminal can begin with.** -/
theorem testBit_firstSets (hc : c.WellFormed) :
    (c.firstSets[i]?.getD 0).testBit x = true ↔ c.Begins (.n i) x := by
  have hsize : c.leadingNonterminals.size = c.leadingTerminals.size :=
    leadingNonterminals_spec.1.trans leadingTerminals_spec.1.symm
  unfold firstSets
  rw [testBit_unionOverReached hsize, leadingTerminals_spec.1]
  constructor
  · rintro ⟨_, j, hj, hx⟩
    obtain ⟨_, p, hp, rfl, rest, hrhs⟩ := (leadingTerminals_spec.2 _ _).mp hx
    exact .of_reached hj (.rule hp hrhs (.terminal x))
  · intro h
    -- By what it begins with: the chain of leading nonterminals grows at its front.
    generalize hs : Sym.n i = s at h
    induction h generalizing i with
    | terminal x => cases hs
    | @rule p s rest x hp hrhs h ih =>
      cases hs
      have hlt : p.lhs < c.nonterminals.size :=
        (hc.productions p (Array.mem_toList_iff.mp hp)).lhs_lt
      refine ⟨hlt, ?_⟩
      cases s with
      | t y =>
        cases h
        exact ⟨p.lhs, .start List.mem_cons_self,
          (leadingTerminals_spec.2 _ _).mpr ⟨hlt, p, hp, rfl, rest, hrhs⟩⟩
      | n b =>
        obtain ⟨_, j, hj, hx⟩ := ih rfl
        exact ⟨j, hj.head ((leadingNonterminals_spec.2 _ _).mpr ⟨hlt, p, hp, rfl, rest, hrhs⟩), hx⟩

/-! ## Follow -/

/-- **What can stand right behind a nonterminal.** -/
inductive Follows (c : Composite) : Nat → Nat → Prop where
  /-- The end of the text comes behind a root. -/
  | root {a : Nat} (ha : a < c.nonterminals.size) (h : (c.nonterminal a).isRoot = true) :
      Follows c a endOfText
  /-- What comes next in a production. -/
  | next {p : Production} {a x : Nat} {s : Sym} {pre post : List Sym}
      (hp : p ∈ c.productions.toList) (hrhs : p.rhs = pre ++ .n a :: s :: post)
      (h : c.Begins s x) : Follows c a x
  /-- Where a nonterminal ends a production, what comes behind the production. -/
  | last {p : Production} {a x : Nat} {pre : List Sym} (hp : p ∈ c.productions.toList)
      (hrhs : p.rhs = pre ++ [.n a]) (h : Follows c p.lhs x) : Follows c a x

/-- What is directly behind a nonterminal in a row of symbols. -/
def Neighbour (c : Composite) (row : List Sym) (a x : Nat) : Prop :=
  ∃ pre s post, row = pre ++ .n a :: s :: post ∧ c.Begins s x

theorem neighbour_cons {row : List Sym} {s : Sym} {a : Nat} :
    c.Neighbour (s :: row) a x ↔
      (s = .n a ∧ ∃ r rest, row = r :: rest ∧ c.Begins r x) ∨ c.Neighbour row a x := by
  constructor
  · rintro ⟨pre, r, post, hrow, hx⟩
    cases pre with
    | nil =>
      cases hrow
      exact .inl ⟨rfl, r, post, rfl, hx⟩
    | cons _ pre =>
      cases hrow
      exact .inr ⟨pre, r, post, rfl, hx⟩
  · rintro (⟨rfl, r, rest, rfl, hx⟩ | ⟨pre, r, post, rfl, hx⟩)
    · exact ⟨[], r, rest, rfl, hx⟩
    · exact ⟨s :: pre, r, post, rfl, hx⟩

theorem size_addNeighbours (first sets : Array Nat) (row : List Sym) :
    (addNeighbours first sets row).size = sets.size := by
  fun_induction addNeighbours first sets row with
  | case1 sets a t rest ih => rw [ih, Array.size_modify]
  | case2 sets a b rest ih => rw [ih, Array.size_modify]
  | case3 sets s rest _ _ ih => exact ih
  | case4 sets => rfl

theorem testBit_addNeighbours (hc : c.WellFormed) {sets : Array Nat} {row : List Sym} :
    ((addNeighbours c.firstSets sets row)[i]?.getD 0).testBit x = true ↔
      (c.Neighbour row i x ∧ i < sets.size) ∨ (sets[i]?.getD 0).testBit x = true := by
  fun_induction addNeighbours c.firstSets sets row with
  | case1 sets a t rest ih =>
    rw [ih, Array.size_modify, testBit_modify_or, neighbour_cons (s := .n a), testBit_terminalSet]
    constructor
    · rintro (⟨h, hi⟩ | ⟨rfl, rfl, hi⟩ | h)
      · exact .inl ⟨Or.inr h, hi⟩
      · exact .inl ⟨Or.inl ⟨rfl, _, rest, rfl, .terminal t⟩, hi⟩
      · exact .inr h
    · rintro (⟨⟨heq, r, _, hr, hx⟩ | h, hi⟩ | h)
      · cases heq; cases hr; cases hx
        exact .inr (.inl ⟨rfl, rfl, hi⟩)
      · exact .inl ⟨h, hi⟩
      · exact .inr (.inr h)
  | case2 sets a b rest ih =>
    rw [ih, Array.size_modify, testBit_modify_or, neighbour_cons (s := .n a), testBit_firstSets hc]
    constructor
    · rintro (⟨h, hi⟩ | ⟨rfl, hx, hi⟩ | h)
      · exact .inl ⟨Or.inr h, hi⟩
      · exact .inl ⟨Or.inl ⟨rfl, _, rest, rfl, hx⟩, hi⟩
      · exact .inr h
    · rintro (⟨⟨heq, r, _, hr, hx⟩ | h, hi⟩ | h)
      · cases heq; cases hr
        exact .inr (.inl ⟨rfl, hx, hi⟩)
      · exact .inl ⟨h, hi⟩
      · exact .inr (.inr h)
  | case3 sets s rest hterminal hnonterminal ih =>
    rw [ih, neighbour_cons]
    constructor
    · rintro (⟨h, hi⟩ | h)
      · exact .inl ⟨Or.inr h, hi⟩
      · exact .inr h
    · rintro (⟨⟨rfl, r, _, rfl, _⟩ | h, hi⟩ | h)
      · cases r with
        | t y => exact absurd rfl (hterminal i y _ rfl)
        | n b => exact absurd rfl (hnonterminal i b _ rfl)
      · exact .inl ⟨h, hi⟩
      · exact .inr h
  | case4 sets =>
    refine ⟨.inr, ?_⟩
    rintro (⟨⟨pre, s, post, hrow, _⟩, _⟩ | h)
    · cases pre <;> cases hrow
    · exact h

theorem neighbourSets_spec (hc : c.WellFormed) :
    (c.neighbourSets c.firstSets).size = c.nonterminals.size ∧
      ∀ i x, ((c.neighbourSets c.firstSets)[i]?.getD 0).testBit x = true ↔
        i < c.nonterminals.size ∧ ((∃ p ∈ c.productions.toList, c.Neighbour p.rhs i x) ∨
          ((c.nonterminal i).isRoot = true ∧ x = endOfText)) := by
  unfold neighbourSets
  obtain ⟨hsize, hbit⟩ := testBit_foldl_table
    (f := fun sets (p : Production) => addNeighbours c.firstSets sets p.rhs)
    (fun (p : Production) i x => c.Neighbour p.rhs i x)
    (fun t p => size_addNeighbours _ _ _) (fun t p i x => testBit_addNeighbours hc)
    c.productions.toList (c.nonterminals.map fun n => if n.isRoot then terminalSet endOfText else 0)
  refine ⟨hsize.trans Array.size_map, fun i x => ?_⟩
  rw [hbit, Array.size_map, Array.getElem?_map]
  unfold nonterminal
  rcases Nat.lt_or_ge i c.nonterminals.size with hi | hi
  · rw [Array.getElem?_eq_getElem hi]
    show _ ∨ (if c.nonterminals[i].isRoot then terminalSet endOfText else 0).testBit x = true ↔
      _ ∧ (_ ∨ c.nonterminals[i].isRoot = true ∧ _)
    cases hroot : c.nonterminals[i].isRoot with
    | true => simp [hi, testBit_terminalSet, @eq_comm _ endOfText]
    | false => simp [hi]
  · rw [Array.getElem?_eq_none hi]
    have hi' : ¬ i < c.nonterminals.size := Nat.not_lt.mpr hi
    simp [hi']

/-- What comes behind a nonterminal comes behind what ends its productions. -/
theorem Follows.of_reached (h : Reached (fun k => c.trailedBy[k]?.getD []) [i] j)
    (hx : c.Follows j x) : c.Follows i x := by
  induction h with
  | start hj =>
    obtain rfl := List.mem_singleton.mp hj
    exact hx
  | step _ hj ih =>
    obtain ⟨_, p, hp, hlast, rfl⟩ := (trailedBy_spec.2 _ _).mp hj
    obtain ⟨pre, hrhs⟩ := List.getLast?_eq_some_iff.mp hlast
    exact ih (.last hp hrhs hx)

/-- A nonterminal of a production is in range. -/
theorem WellFormed.lt_of_mem_rhs (hc : c.WellFormed) {p : Production} {a : Nat}
    (hp : p ∈ c.productions.toList) (ha : Sym.n a ∈ p.rhs) : a < c.nonterminals.size :=
  ((hc.productions p (Array.mem_toList_iff.mp hp)).symbols _ ha).1

/-- **FOLLOW holds what can stand right behind a nonterminal.** -/
theorem testBit_followSets (hc : c.WellFormed) :
    (c.followSets[i]?.getD 0).testBit x = true ↔ c.Follows i x := by
  have hsize : c.trailedBy.size = (c.neighbourSets c.firstSets).size :=
    trailedBy_spec.1.trans (neighbourSets_spec hc).1.symm
  unfold followSets
  rw [testBit_unionOverReached hsize, (neighbourSets_spec hc).1]
  constructor
  · rintro ⟨_, j, hj, hx⟩
    refine .of_reached hj ?_
    obtain ⟨hlt, ⟨p, hp, pre, s, post, hrhs, hx⟩ | ⟨hroot, rfl⟩⟩ :=
      ((neighbourSets_spec hc).2 _ _).mp hx
    · exact .next hp hrhs hx
    · exact .root hlt hroot
  · intro h
    -- What ends a production hands on what follows it, so the chain grows at its front.
    induction h with
    | @root a ha hroot =>
      exact ⟨ha, a, .start List.mem_cons_self,
        ((neighbourSets_spec hc).2 _ _).mpr ⟨ha, .inr ⟨hroot, rfl⟩⟩⟩
    | @next p a x s pre post hp hrhs hx =>
      have ha := hc.lt_of_mem_rhs hp (show Sym.n a ∈ p.rhs by rw [hrhs]; simp)
      exact ⟨ha, a, .start List.mem_cons_self,
        ((neighbourSets_spec hc).2 _ _).mpr ⟨ha, .inl ⟨p, hp, pre, s, post, hrhs, hx⟩⟩⟩
    | @last p a x pre hp hrhs h ih =>
      have ha := hc.lt_of_mem_rhs hp (show Sym.n a ∈ p.rhs by rw [hrhs]; simp)
      obtain ⟨_, j, hj, hx⟩ := ih
      refine ⟨ha, j, hj.head ((trailedBy_spec.2 _ _).mpr ⟨ha, p, hp, ?_, rfl⟩), hx⟩
      rw [hrhs, List.getLast?_concat]

end Composite

end LayeredSyntax
