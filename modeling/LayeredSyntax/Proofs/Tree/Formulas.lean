/-
  FORMULAS — which of the trees over numbers and operators is the right one.

  A formula is a number, a formula in parentheses, or two formulas with an operator between them.
  Many formulas are written in the same way.  A formula is CORRECT when every operand that is not in
  parentheses is one that the operator takes on its side: the operator of the operand binds tighter,
  or it is on the same level and the level groups to that side.

  1. What an operator takes on one side, it takes at any depth: **all operators of the operand that
     stand outside of parentheses can stand there** (`Correct.takesLeft_outer`).
  2. These operators can be read off the signs by counting parentheses (`outerOf_word`).
  3. **There is at most one correct formula for a row of signs** (`Correct.unique`), and there is
     none for a chain over a level that does not group (`Correct.length_outer_le`).

  **The crux** of the last point: were two correct formulas split at different operators, then each
  of the two operators would stand in an operand of the other one.  The left one of them would take
  the other on its right, the right one would take it on its left, so that both are on one level,
  which would have to group to both sides.
-/
import LayeredSyntax.Grammar.Levels

namespace LayeredSyntax

/-! ## What operators take -/

namespace Precedence

/-- Whether an operator takes an operand with an operator of another precedence on its left. -/
def TakesLeft (operator operand : Precedence) : Prop :=
  operator.rank < operand.rank ∨ (operator.rank = operand.rank ∧ operator.assoc = .left)

/-- Whether an operator takes an operand with an operator of another precedence on its right. -/
def TakesRight (operator operand : Precedence) : Prop :=
  operator.rank < operand.rank ∨ (operator.rank = operand.rank ∧ operator.assoc = .right)

instance (a b : Precedence) : Decidable (a.TakesLeft b) :=
  inferInstanceAs (Decidable (_ ∨ _))

instance (a b : Precedence) : Decidable (a.TakesRight b) :=
  inferInstanceAs (Decidable (_ ∨ _))

variable {a b c : Precedence}

theorem TakesLeft.rank_le (h : a.TakesLeft b) : a.rank ≤ b.rank := by
  rcases h with h | ⟨h, _⟩ <;> omega

theorem TakesRight.rank_le (h : a.TakesRight b) : a.rank ≤ b.rank := by
  rcases h with h | ⟨h, _⟩ <;> omega

theorem TakesLeft.trans_le (h : a.TakesLeft b) (hle : b.rank ≤ c.rank) : a.TakesLeft c := by
  rcases h with h | ⟨h, hassoc⟩
  · exact .inl (by omega)
  · rcases Nat.lt_or_eq_of_le hle with hlt | heq
    · exact .inl (by omega)
    · exact .inr ⟨by omega, hassoc⟩

theorem TakesRight.trans_le (h : a.TakesRight b) (hle : b.rank ≤ c.rank) : a.TakesRight c := by
  rcases h with h | ⟨h, hassoc⟩
  · exact .inl (by omega)
  · rcases Nat.lt_or_eq_of_le hle with hlt | heq
    · exact .inl (by omega)
    · exact .inr ⟨by omega, hassoc⟩

/-- A production is finished in front of an operator that takes it on its left. -/
theorem resolve_eq_reduce (h : a.rank = b.rank → a.assoc = b.assoc) :
    resolve a b = .reduce ↔ b.TakesLeft a := by
  unfold resolve TakesLeft
  split
  · next hlt => exact ⟨fun _ => .inl hlt, fun _ => rfl⟩
  · split
    · next hnot hlt =>
      refine ⟨fun hno => (by cases hno), ?_⟩
      rintro (hlt' | ⟨heq, _⟩) <;> omega
    · next hnot hnot' =>
      have heq : a.rank = b.rank := by omega
      rw [← h heq]
      cases a.assoc with
      | left => exact ⟨fun _ => .inr ⟨heq.symm, rfl⟩, fun _ => rfl⟩
      | right | nonAssoc =>
        refine ⟨fun hno => (by cases hno), ?_⟩
        rintro (hlt' | ⟨_, hno⟩)
        · omega
        · cases hno

/-- It is left unfinished in front of an operator that it takes on its right. -/
theorem resolve_eq_shift : resolve a b = .shift ↔ a.TakesRight b := by
  unfold resolve TakesRight
  split
  · next hlt =>
    refine ⟨fun hno => (by cases hno), ?_⟩
    rintro (hlt' | ⟨heq, _⟩) <;> omega
  · split
    · next hnot hlt => exact ⟨fun _ => .inl hlt, fun _ => rfl⟩
    · next hnot hnot' =>
      have heq : a.rank = b.rank := by omega
      cases a.assoc with
      | right => exact ⟨fun _ => .inr ⟨heq, rfl⟩, fun _ => rfl⟩
      | left | nonAssoc =>
        refine ⟨fun hno => (by cases hno), ?_⟩
        rintro (hlt' | ⟨_, hno⟩)
        · omega
        · cases hno

end Precedence

/-! ## Formulas -/

/-- What a formula is written with. -/
inductive Sign (Op : Type) where
  | number | opening | closing
  | operator (op : Op)
deriving DecidableEq, Repr

/-- A tree over numbers and operators. -/
inductive Formula (Op : Type) where
  | number
  /-- A formula in parentheses. -/
  | paren (inner : Formula Op)
  /-- Two formulas with an operator between them. -/
  | binary (op : Op) (left right : Formula Op)
deriving DecidableEq, Repr

namespace Formula

variable {Op : Type} {prec : Op → Precedence} {e e' : Formula Op} {p : Precedence}

/-- The signs of a formula. -/
def word : Formula Op → List (Sign Op)
  | number => [.number]
  | paren inner => .opening :: (inner.word ++ [.closing])
  | binary op left right => left.word ++ .operator op :: right.word

/-- The operator that joins the operands, unless there are parentheses around it. -/
def operator? : Formula Op → Option Op
  | binary op _ _ => some op
  | _ => none

/-- **Whether every operand is one that its operator takes.** -/
def Correct (prec : Op → Precedence) : Formula Op → Prop
  | number => True
  | paren inner => inner.Correct prec
  | binary op left right =>
    (∀ o ∈ left.operator?, (prec op).TakesLeft (prec o)) ∧
      (∀ o ∈ right.operator?, (prec op).TakesRight (prec o)) ∧
      left.Correct prec ∧ right.Correct prec

/-! ## Operators outside of parentheses -/

/-- The operators of a formula outside of parentheses, in their order. -/
def outer : Formula Op → List Op
  | binary op left right => left.outer ++ op :: right.outer
  | _ => []

/-- **What operands inherit holds outside of parentheses**: an operand's operator is on no lower
    level than the operator that takes it. -/
theorem Correct.forall_outer {P : Precedence → Prop} (h : e.Correct prec)
    (hmono : ∀ {a b : Precedence}, P a → a.rank ≤ b.rank → P b)
    (htop : ∀ o ∈ e.operator?, P (prec o)) : ∀ o ∈ e.outer, P (prec o) := by
  induction e with
  | number | paren => exact fun o ho => absurd ho List.not_mem_nil
  | binary op left right ihleft ihright =>
    obtain ⟨hl, hr, hleft, hright⟩ := h
    have hop : P (prec op) := htop op rfl
    intro o ho
    rcases List.mem_append.mp ho with ho | ho
    · exact ihleft hleft (fun o ho => hmono hop (hl o ho).rank_le) o ho
    · rcases List.mem_cons.mp ho with rfl | ho
      · exact hop
      · exact ihright hright (fun o ho => hmono hop (hr o ho).rank_le) o ho

/-- **An operator takes on its left what stands in a left operand.** -/
theorem Correct.takesLeft_outer (h : e.Correct prec)
    (htop : ∀ o ∈ e.operator?, p.TakesLeft (prec o)) : ∀ o ∈ e.outer, p.TakesLeft (prec o) :=
  h.forall_outer Precedence.TakesLeft.trans_le htop

/-- **An operator takes on its right what stands in a right operand.** -/
theorem Correct.takesRight_outer (h : e.Correct prec)
    (htop : ∀ o ∈ e.operator?, p.TakesRight (prec o)) :
    ∀ o ∈ e.outer, p.TakesRight (prec o) :=
  h.forall_outer Precedence.TakesRight.trans_le htop

/-- **A chain of operators of one level that does not group has no correct formula**: there is only
    one of them. -/
theorem Correct.length_outer_le (h : e.Correct prec)
    (hrank : ∀ o ∈ e.outer, ∀ o' ∈ e.outer, (prec o).rank = (prec o').rank)
    (hassoc : ∀ o ∈ e.outer, (prec o).assoc = .nonAssoc) : e.outer.length ≤ 1 := by
  cases e with
  | number | paren => exact Nat.zero_le 1
  | binary op left right =>
    obtain ⟨hl, hr, hleft, hright⟩ := h
    have hop : op ∈ (binary op left right).outer :=
      List.mem_append_right _ List.mem_cons_self
    have hnone : left.outer = [] ∧ right.outer = [] := by
      refine ⟨List.eq_nil_iff_forall_not_mem.mpr fun o ho => ?_,
        List.eq_nil_iff_forall_not_mem.mpr fun o ho => ?_⟩
      · have heq := hrank op hop o (List.mem_append_left _ ho)
        rcases hleft.takesLeft_outer hl o ho with hlt | ⟨_, hno⟩
        · omega
        · rw [hassoc op hop] at hno
          cases hno
      · have heq := hrank op hop o (List.mem_append_right _ (List.mem_cons_of_mem _ ho))
        rcases hright.takesRight_outer hr o ho with hlt | ⟨_, hno⟩
        · omega
        · rw [hassoc op hop] at hno
          cases hno
    unfold outer
    rw [hnone.1, hnone.2]
    exact Nat.le_refl 1

/-- The operators that stand outside of parentheses, some of which may be open. -/
def outerOf : Nat → List (Sign Op) → List Op
  | _, [] => []
  | depth, .number :: rest => outerOf depth rest
  | depth, .opening :: rest => outerOf (depth + 1) rest
  | depth, .closing :: rest => outerOf (depth - 1) rest
  | 0, .operator op :: rest => op :: outerOf 0 rest
  | depth + 1, .operator _ :: rest => outerOf (depth + 1) rest

/-- **The signs of a formula show its outer operators**, and none inside of parentheses. -/
theorem outerOf_word (e : Formula Op) : ∀ rest : List (Sign Op),
    outerOf 0 (e.word ++ rest) = e.outer ++ outerOf 0 rest ∧
      ∀ depth, outerOf (depth + 1) (e.word ++ rest) = outerOf (depth + 1) rest := by
  induction e with
  | number => exact fun rest => ⟨rfl, fun _ => rfl⟩
  | paren inner ih =>
    intro rest
    have hsplit : (paren inner).word ++ rest = .opening :: (inner.word ++ .closing :: rest) := by
      show Sign.opening :: (inner.word ++ [.closing] ++ rest) = _
      rw [List.append_assoc, List.singleton_append]
    rw [hsplit]
    exact ⟨(ih _).2 0, fun depth => (ih _).2 (depth + 1)⟩
  | binary op left right ihleft ihright =>
    intro rest
    have hsplit : (binary op left right).word ++ rest =
        left.word ++ .operator op :: (right.word ++ rest) := by
      show (left.word ++ .operator op :: right.word) ++ rest = _
      rw [List.append_assoc, List.cons_append]
    rw [hsplit]
    refine ⟨?_, fun depth => ?_⟩
    · show _ = (left.outer ++ op :: right.outer) ++ outerOf 0 rest
      rw [(ihleft _).1, outerOf, (ihright _).1, List.append_assoc, List.cons_append]
    · rw [(ihleft _).2, outerOf, (ihright _).2]

/-- Formulas of the same signs have the same outer operators. -/
theorem outer_eq_of_word_eq (h : e.word = e'.word) : e.outer = e'.outer := by
  have hsame := (outerOf_word e []).1
  rw [h, (outerOf_word e' []).1] at hsame
  exact (List.append_cancel_right hsame).symm

/-- There is an outer operator where there are two operands. -/
theorem outer_binary_ne_nil (op : Op) (left right : Formula Op) :
    (binary op left right).outer ≠ [] :=
  List.append_ne_nil_of_right_ne_nil _ (List.cons_ne_nil _ _)

/-! ## There is one correct formula -/

/-- Where a left operand goes on behind an operator, that operator is an outer one of it, and what
    stands behind the operand is an outer one of the right operand. -/
theorem outer_of_split {op op' : Op} {left right left' right' : Formula Op}
    {between : List (Sign Op)} (hleft : left'.word = left.word ++ .operator op :: between)
    (hright : right.word = between ++ .operator op' :: right'.word) :
    op ∈ left'.outer ∧ op' ∈ right.outer := by
  -- The outer operators of the left operand that is longer.
  have hfront : left'.outer = left.outer ++ op :: outerOf 0 between := by
    have hsame := (outerOf_word left' []).1
    rw [hleft, List.append_nil, (outerOf_word left _).1, outerOf, outerOf,
      List.append_nil] at hsame
    exact hsame.symm
  -- The outer operators of the whole, in two ways.
  have hwhole : (binary op left right).outer = (binary op' left' right').outer :=
    outer_eq_of_word_eq (by unfold word; rw [hleft, hright, List.append_assoc, List.cons_append])
  unfold outer at hwhole
  rw [hfront, List.append_assoc, List.cons_append] at hwhole
  have hback : right.outer = outerOf 0 between ++ op' :: right'.outer :=
    (List.cons.inj (List.append_cancel_left hwhole)).2
  rw [hfront, hback]
  exact ⟨List.mem_append_right _ List.mem_cons_self, List.mem_append_right _ List.mem_cons_self⟩

/-- **No correct operands reach over each other's operators.** -/
theorem Correct.not_split (hprec : ∀ a b, (prec a).rank = (prec b).rank →
      (prec a).assoc = (prec b).assoc) {op op' : Op} {left right left' right' : Formula Op}
    (h : (binary op left right).Correct prec) (h' : (binary op' left' right').Correct prec)
    {between : List (Sign Op)} (hleft : left'.word = left.word ++ .operator op :: between) :
    right.word ≠ between ++ .operator op' :: right'.word := by
  intro hright
  obtain ⟨_, hr, _, hrightc⟩ := h
  obtain ⟨hl', _, hleftc', _⟩ := h'
  obtain ⟨hop, hop'⟩ := outer_of_split hleft hright
  have hbelow : (prec op').TakesLeft (prec op) := hleftc'.takesLeft_outer hl' op hop
  have habove : (prec op).TakesRight (prec op') := hrightc.takesRight_outer hr op' hop'
  have heq : (prec op).rank = (prec op').rank :=
    Nat.le_antisymm habove.rank_le hbelow.rank_le
  rcases hbelow with hlt | ⟨_, hassoc⟩
  · omega
  rcases habove with hlt | ⟨_, hassoc'⟩
  · omega
  rw [← hprec op op' heq, hassoc'] at hassoc
  cases hassoc

/-- **There is at most one correct formula for a row of signs**, if operators of one rank group in
    one way. -/
theorem Correct.unique (hprec : ∀ a b, (prec a).rank = (prec b).rank →
      (prec a).assoc = (prec b).assoc) (h : e.Correct prec) (h' : e'.Correct prec)
    (hword : e.word = e'.word) : e = e' := by
  induction e generalizing e' with
  | number =>
    cases e' with
    | number => rfl
    | paren inner => cases (List.cons.inj hword).1
    | binary op left right =>
      exact absurd (outer_eq_of_word_eq hword).symm (outer_binary_ne_nil op left right)
  | paren inner ih =>
    cases e' with
    | number => cases (List.cons.inj hword).1
    | paren inner' =>
      have hinner : inner.word = inner'.word :=
        List.append_cancel_right (List.cons.inj hword).2
      exact congrArg paren (ih h h' hinner)
    | binary op left right =>
      exact absurd (outer_eq_of_word_eq hword).symm (outer_binary_ne_nil op left right)
  | binary op left right ihleft ihright =>
    cases e' with
    | number | paren =>
      exact absurd (outer_eq_of_word_eq hword) (outer_binary_ne_nil op left right)
    | binary op' left' right' =>
      have hsplit : left.word ++ .operator op :: right.word =
          left'.word ++ .operator op' :: right'.word := hword
      have hsame : left.word = left'.word ∧ op = op' ∧ right.word = right'.word := by
        rcases List.append_eq_append_iff.mp hsplit with ⟨front, hleft, hright⟩ |
          ⟨front, hleft, hright⟩
        · cases front with
          | nil =>
            obtain ⟨hop, hrest⟩ := List.cons.inj hright
            exact ⟨by rw [hleft, List.append_nil], Sign.operator.inj hop, hrest⟩
          | cons sign between =>
            obtain ⟨rfl, hrest⟩ := List.cons.inj hright
            exact absurd hrest (h.not_split hprec h' hleft)
        · cases front with
          | nil =>
            obtain ⟨hop, hrest⟩ := List.cons.inj hright
            exact ⟨by rw [hleft, List.append_nil], (Sign.operator.inj hop).symm, hrest.symm⟩
          | cons sign between =>
            obtain ⟨rfl, hrest⟩ := List.cons.inj hright
            exact absurd hrest (h'.not_split hprec h hleft)
      obtain ⟨hleft, rfl, hright⟩ := hsame
      obtain ⟨_, _, hleftc, hrightc⟩ := h
      obtain ⟨_, _, hleftc', hrightc'⟩ := h'
      rw [ihleft hleftc hleftc' hleft, ihright hrightc hrightc' hright]

end Formula

end LayeredSyntax
