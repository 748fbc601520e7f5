/-
  LONG ROWS — an alternative of more symbols than there are places.

  Nothing bounds the length of an alternative, but places have 16 bits.  The grammar of one row of
  equal words (`Grammar.rowOf`) composes whatever its length is (`compositeOf_rowOf`), and no
  conflict of it is settled.

  1. Up to the last place, every place of the row has a state of its own (`exists_kernel`).
  2. From the last place a word leads back to the beginning of the row (`isMove_row` at that place),
     as the place behind it does not exist.
  3. **So a row of 2^16 words is never finished** (`not_reduce_rowOf`), although it is a sentence
     (`generates_rowOf`).
-/
import LayeredSyntax.Proofs.Composition.ClimbingGrammar
import LayeredSyntax.Proofs.Table.Cells
import LayeredSyntax.Proofs.Table.Sentences

namespace LayeredSyntax

/-- The grammar of one row of equal words. -/
def Grammar.rowOf (n : Nat) : Grammar :=
  ⟨⟨"row"⟩, "row", [⟨"row", [.plain (List.replicate n (.terminal (.keyword "a")))]⟩],
    [], [], [], [], []⟩

namespace Composite

/-- The production of a row. -/
def rowProduction (n : Nat) : Production :=
  ⟨0, List.replicate n (.t 1), ⟨"row"⟩, none, none, false⟩

/-- The production of the root. -/
def rowRoot : Production := ⟨1, [.n 0], ⟨"row"⟩, none, none, false⟩

/-- The rows of one length on numbers. -/
def rowOf (n : Nat) : Composite :=
  { Composite.empty with
    grammars := [⟨"row"⟩]
    terminals := #[.keyword "a"]
    nonterminals := (nonterminalsOf (.rowOf n)).toArray.push (rootOf (.rowOf n))
    productions := #[rowProduction n, rowRoot]
    roots := [⟨⟨"row"⟩, 1, 0⟩]
    resync := [(⟨"row"⟩, [])]
    levels := mergedAlone ⟨"row"⟩ [] }

/-! ## Composing -/

variable {n d : Nat}

theorem lowerSymbol_terminal {grammars : List Grammar} {g : Grammar} {rule : String}
    {c c' : Composite} {t : Terminal} {id : Nat} (h : c.number t = (id, c')) :
    lowerSymbol grammars g rule c (.terminal t) = .ok (.t id, c') := by
  unfold lowerSymbol
  dsimp only
  rw [h]

/-- **Symbols that are one terminal** all get its number. -/
theorem lowerSymbols_replicate {grammars : List Grammar} {g : Grammar} {rule : String}
    {c : Composite} {t : Terminal} {id : Nat} (h : c.number t = (id, c)) :
    ∀ (n : Nat) (done : List Sym), lowerSymbols grammars g rule c done
      (List.replicate n (.terminal t)) = .ok (done.reverse ++ List.replicate n (.t id), c) := by
  intro n
  induction n with
  | zero =>
    intro done
    show Except.ok _ = Except.ok (done.reverse ++ [], c)
    rw [List.append_nil]
  | succ n ih =>
    intro done
    refine Except.bind_eq_ok.mpr ⟨_, lowerSymbol_terminal h, (ih (.t id :: done)).trans ?_⟩
    rw [List.reverse_cons, List.append_assoc, List.replicate_succ]
    rfl

/-- What there is before a row is lowered. -/
def beforeRow (n : Nat) : Composite :=
  { Composite.empty with
    grammars := [⟨"row"⟩]
    nonterminals := (nonterminalsOf (.rowOf n)).toArray
    levels := mergedAlone ⟨"row"⟩ [] }

/-- What there is behind it. -/
def afterRow (n : Nat) : Composite :=
  { beforeRow n with terminals := #[.keyword "a"], productions := #[rowProduction n] }

/-- The rule has the first number. -/
theorem ruleNumber?_row {c : Composite}
    (h : c.nonterminals = (nonterminalsOf (.rowOf n)).toArray) :
    c.ruleNumber? ⟨"row"⟩ "row" = some 0 := by
  unfold ruleNumber?
  rw [h]
  simp [nonterminalsOf, Grammar.rowOf, List.findIdx?_cons]

/-- **Lowering a row.** -/
theorem lowerAlternative_row {grammars : List Grammar} :
    lowerAlternative grammars (.rowOf (n + 1)) "row" 0 (beforeRow (n + 1))
        (.plain (List.replicate (n + 1) (.terminal (.keyword "a")))) =
      .ok (afterRow (n + 1)) := by
  let c : Composite := { beforeRow (n + 1) with terminals := #[.keyword "a"] }
  have hfirst : (beforeRow (n + 1)).number (.keyword "a") = (1, c) :=
    number_of_notMem List.not_mem_nil
  have hrest : c.number (.keyword "a") = (1, c) := by
    have hfound : #[Terminal.keyword "a"].findIdx? (· == .keyword "a") = some 0 := by
      cbv
    unfold number
    rw [show c.terminals = #[.keyword "a"] from rfl, hfound]
  have hsymbols : lowerSymbols grammars (.rowOf (n + 1)) "row" c [.t 1]
      (List.replicate n (.terminal (.keyword "a"))) =
        .ok ([.t 1].reverse ++ List.replicate n (.t 1), c) :=
    lowerSymbols_replicate hrest n [.t 1]
  have hlevel : precedenceOf (mergedAlone ⟨"row"⟩ []) ⟨"row"⟩
      (.plain (List.replicate (n + 1) (.terminal (.keyword "a")))) = .ok none := by
    show Except.ok (lastOperator? _ _ (List.replicate (n + 1) _)) = _
    unfold lastOperator?
    rw [List.reverse_replicate]
    refine congrArg Except.ok (List.findSome?_eq_none_iff.mpr fun s hs => ?_)
    rw [List.eq_of_mem_replicate hs]
    rfl
  unfold lowerAlternative
  refine Except.bind_eq_ok.mpr
    ⟨_, Except.bind_eq_ok.mpr ⟨_, lowerSymbol_terminal hfirst, hsymbols⟩, ?_⟩
  exact Except.bind_eq_ok.mpr ⟨_, hlevel, rfl⟩

theorem lowerRule_row {grammars : List Grammar} {r : Rule} (hr : r ∈ (Grammar.rowOf (n + 1)).rules) :
    lowerRule grammars (.rowOf (n + 1)) (beforeRow (n + 1)) r = .ok (afterRow (n + 1)) := by
  obtain rfl := List.mem_singleton.mp hr
  unfold lowerRule
  rw [show (beforeRow (n + 1)).ruleNumber? (Grammar.rowOf (n + 1)).id "row" = some 0 from
    ruleNumber?_row rfl]
  exact foldlM_singleton lowerAlternative_row

/-- The root is put behind the row. -/
theorem addRoot_row : (afterRow n).addRoot (.rowOf n) = .ok (rowOf n) := by
  unfold addRoot
  rw [show (afterRow n).ruleNumber? (Grammar.rowOf n).id (Grammar.rowOf n).start = some 0 from
    ruleNumber?_row rfl]
  rfl

theorem lower_row : lower [.rowOf (n + 1)] (mergedAlone ⟨"row"⟩ []) = .ok (rowOf (n + 1)) := by
  have hrules : [Grammar.rowOf (n + 1)].foldlM (lowerGrammar [.rowOf (n + 1)])
      (beforeRow (n + 1)) = .ok (afterRow (n + 1)) :=
    foldlM_singleton (foldlM_singleton (lowerRule_row List.mem_cons_self))
  have hbare : lower [.rowOf (n + 1)] (mergedAlone ⟨"row"⟩ []) =
      [Grammar.rowOf (n + 1)].foldlM (lowerGrammar [.rowOf (n + 1)]) (beforeRow (n + 1)) >>=
        fun c => [Grammar.rowOf (n + 1)].foldlM addRoot c := rfl
  exact hbare.trans (Except.bind_eq_ok.mpr ⟨_, hrules, foldlM_singleton addRoot_row⟩)

theorem check_row : (Grammar.rowOf (n + 1)).check [.rowOf (n + 1)] = .ok () := by
  have hsymbols : (List.replicate (n + 1) (Symbol.terminal (.keyword "a"))).forM
      ((Grammar.rowOf (n + 1)).checkSymbol "row") = .ok () :=
    Grammar.forM_ok fun s hs => by
      rw [List.eq_of_mem_replicate hs]
      rfl
  have hrules : (Grammar.rowOf (n + 1)).rules.forM (Grammar.rowOf (n + 1)).checkRule = .ok () :=
    Grammar.forM_ok fun r hr => by
      obtain rfl := List.mem_singleton.mp hr
      refine Grammar.forM_ok fun a ha => ?_
      obtain rfl := List.mem_singleton.mp ha
      exact hsymbols
  have hstart : (Grammar.rowOf (n + 1)).checkStart = .ok () := rfl
  have hreachable : (Grammar.rowOf (n + 1)).checkReachable = .ok () :=
    Grammar.checkReachable_of_sole rfl rfl
  unfold Grammar.check
  rw [hstart, hrules, hreachable]
  rfl

/-- **Rows of every length compose.** -/
theorem compositeOf_rowOf (n : Nat) : compositeOf [.rowOf (n + 1)] = .ok (rowOf (n + 1)) := by
  have hcycle : embeddingCycle? [Grammar.rowOf (n + 1)] = none := rfl
  have hcheck : [Grammar.rowOf (n + 1)].forM (Grammar.check [.rowOf (n + 1)]) = .ok () :=
    Grammar.forM_ok fun g hg => List.mem_singleton.mp hg ▸ check_row
  have hmerge : mergeLevels [Grammar.rowOf (n + 1)] = .ok (mergedAlone ⟨"row"⟩ []) := rfl
  unfold compositeOf
  rw [show distinctGrammars [Grammar.rowOf (n + 1)] = [.rowOf (n + 1)] from rfl]
  dsimp only
  rw [hcycle]
  refine Except.bind_eq_ok.mpr ⟨_, hcheck, ?_⟩
  exact Except.bind_eq_ok.mpr ⟨_, hmerge, lower_row⟩

/-! ## States -/

variable {c : Composite} {i : Item} {s : Sym}

/-- **Over one item alone**, a symbol leads to that item with its place moved. -/
theorem isMove_of_sole {kernel : List Item} {j : Item} (hj : c.InState kernel j)
    (hnext : c.nextSymbol? j = some s)
    (hsole : ∀ i, c.InState kernel i → c.nextSymbol? i = some s → i = j) :
    c.IsMove kernel s [j.advance] := by
  refine ⟨List.pairwise_singleton _ _, List.cons_ne_nil _ _, fun i => ?_⟩
  rw [List.mem_singleton]
  constructor
  · rintro rfl
    exact ⟨j, hj, hnext, rfl⟩
  · rintro ⟨i, hi, hi', rfl⟩
    rw [hsole i hi hi']

/-- The row and the root are all productions. -/
theorem getElem?_productions_row {q : Nat} {p : Production} :
    (rowOf n).productions[q]? = some p →
      (q = 0 ∧ p = rowProduction n) ∨ (q = 1 ∧ p = rowRoot) := by
  intro h
  match q, h with
  | 0, h => exact .inl ⟨rfl, (Option.some.inj h).symm⟩
  | 1, h => exact .inr ⟨rfl, (Option.some.inj h).symm⟩
  | q + 2, h => cases h

/-- A word is behind every place that is not behind the row. -/
theorem nextSymbol?_row (hd : d < UInt16.size) :
    (rowOf n).nextSymbol? (.behind 0 d) = some s ↔ d < n ∧ s = .t 1 := by
  have hrow : (rowOf n).productions[0]? = some (rowProduction n) := rfl
  rw [nextSymbol?_behind hrow hd]
  show (List.replicate n _)[d]? = some s ↔ _
  rw [List.getElem?_replicate, Option.ite_none_right_eq_some, Option.some.injEq,
    eq_comm (a := Sym.t 1)]

/-- A state inside of a row has one item. -/
theorem inState_row (hd : d < UInt16.size) (h : (rowOf n).InState [.behind 0 d] i) :
    i = .behind 0 d := by
  induction h with
  | kernel h => exact List.mem_singleton.mp h
  | begun _ hnext _ ih =>
    rw [ih] at hnext
    cases ((nextSymbol?_row hd).mp hnext).2

/-- **Over a word** the place of a row is moved. -/
theorem isMove_row (hd : d < UInt16.size) (hlt : d < n) :
    (rowOf n).IsMove [.behind 0 d] (.t 1) [.behind 0 (d + 1)] := by
  rw [← Item.advance_behind]
  exact isMove_of_sole (.kernel List.mem_cons_self) ((nextSymbol?_row hd).mpr ⟨hlt, rfl⟩)
    fun i hi _ => inState_row hd hi

/-- The state of the root is in front of a row. -/
theorem isMove_rootRow (hlt : 0 < n) :
    (rowOf n).IsMove [⟨1, 0⟩] (.t 1) [.behind 0 1] := by
  have hroot : (rowOf n).nextSymbol? ⟨1, 0⟩ = some (.n 0) := rfl
  have hrow : (rowOf n).nextSymbol? ⟨0, 0⟩ = some (.t 1) :=
    (nextSymbol?_row (d := 0) (by decide)).mpr ⟨hlt, rfl⟩
  have hitems : ∀ i, (rowOf n).InState [⟨1, 0⟩] i → i = ⟨1, 0⟩ ∨ i = ⟨0, 0⟩ := by
    intro i hi
    induction hi with
    | kernel h => exact .inl (List.mem_singleton.mp h)
    | begun _ hnext hp ih =>
      rcases getElem?_productions_row hp with ⟨rfl, _⟩ | ⟨_, rfl⟩
      · exact .inr rfl
      · -- Nothing is in front of the root.
        rcases ih with rfl | rfl
        · cases hroot.symm.trans hnext
        · cases hrow.symm.trans hnext
  rw [← Item.advance_behind 0 0]
  refine isMove_of_sole (.begun (.kernel List.mem_cons_self) hroot rfl) hrow fun i hi hnext => ?_
  rcases hitems i hi with rfl | rfl
  · cases hroot.symm.trans hnext
  · rfl

theorem wellFormed_rowOf (n : Nat) : (rowOf (n + 1)).WellFormed :=
  compositeOf_wellFormed (compositeOf_rowOf n)

open Automaton in
/-- **Up to the last place, every place of a row has a state.** -/
theorem exists_kernel_row : ∀ d ≤ n, d + 1 < UInt16.size →
    ∃ m : Nat, (of (.of (rowOf (n + 1)))).kernels[m]? = some [Item.behind 0 (d + 1)] := by
  have h := of_explored (wellFormed_rowOf n)
  intro d
  induction d with
  | zero =>
    intro _ _
    obtain ⟨_, m, _, _, hm⟩ := h.exists_state (h.roots 0 _ rfl) (isMove_rootRow (Nat.succ_pos n))
    exact ⟨m, hm⟩
  | succ d ih =>
    intro hle hlt
    obtain ⟨_, hlast⟩ := ih (by omega) (by omega)
    obtain ⟨_, m, _, _, hm⟩ := h.exists_state hlast (isMove_row (by omega) (by omega))
    exact ⟨m, hm⟩

/-- **A row of words is a sentence.** -/
theorem generates_rowOf (n : Nat) : (rowOf n).Generates [.n 0] (List.replicate n 1) := by
  have hinside : (rowOf n).Generates (rowProduction n).rhs (List.replicate n 1) := by
    have h := GeneratesBy.terminals (rowOf n) (fun _ => True) (List.replicate n 1)
    rwa [List.map_replicate] at h
  have h := GeneratesBy.rule (q := 0) (c := rowOf n) (P := fun _ => True) rfl trivial hinside .nil
  rwa [List.append_nil] at h

end Composite

namespace Table

variable {n : Nat}

theorem compose_rowOf (n : Nat) : compose [.rowOf (n + 1)] = .ok (ofComposite (.rowOf (n + 1))) := by
  unfold compose
  rw [Composite.compositeOf_rowOf]
  rfl

theorem entry_rowOf (n : Nat) :
    Table.entry? (ofComposite (.rowOf n)) ⟨"row"⟩ = some ⟨⟨"row"⟩, 0, 0⟩ := rfl

/-- No conflict of a row is settled, for there is nothing to settle it by. -/
theorem conflictsPruned_rowOf (n : Nat) : (ofComposite (.rowOf n)).conflictsPruned = 0 := by
  refine conflictsPruned_eq_zero fun x q => ?_
  have hnone : ((Composite.rowOf n).production q).precedence = none ∧
      ((Composite.rowOf n).production q).directive = none := by
    unfold Composite.production
    cases hp : (Composite.rowOf n).productions[q]? with
    | none => exact ⟨rfl, rfl⟩
    | some p =>
      rcases Composite.getElem?_productions_row hp with ⟨_, rfl⟩ | ⟨_, rfl⟩ <;> exact ⟨rfl, rfl⟩
  unfold Composite.settle?
  rw [hnone.1, hnone.2]

/-- **A row of more words than there are places is never finished.** -/
theorem not_reduce_rowOf (hn : UInt16.size ≤ n + 1) {state x q : Nat} :
    .reduce q ∉ (ofComposite (.rowOf (n + 1))).actionsAt state x := by
  intro hq
  obtain ⟨_, p, _, hp, hshort, _, hroot, _⟩ :=
    (ofComposite_canonical (Composite.wellFormed_rowOf n)).reduce hq
  rcases Composite.getElem?_productions_row hp with ⟨_, rfl⟩ | ⟨_, rfl⟩
  · have hlength : (Composite.rowProduction (n + 1)).rhs.length = n + 1 := List.length_replicate
    exact absurd (hlength ▸ hshort) (Nat.not_lt.mpr hn)
  · cases hroot

end Table

end LayeredSyntax
