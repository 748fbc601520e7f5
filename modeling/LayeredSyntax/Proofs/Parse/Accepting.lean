/-
  CORRECT FORMULAS ARE ACCEPTED — a parse of one is never stuck.

  In front of a formula a parse is in front of an expression, and behind it it is behind one.  For
  formulas that are correct, in places where they may stand, this is so in every complete stack:

  1. **From a node in front of the formula an edge leads up to one behind it** (`Complete.behind`).
  2. Where the position lies inside of the formula, **some node can read its sign**
     (`Complete.inside`).

  Both are inductions on the formula.  A formula MAY STAND somewhere if the operator in front takes
  it on its right (`Base.Takes`), and it ENDS in front of a terminal if the operator behind takes it
  on its left (`Formula.EndsBefore`).  **The crux** is that both pass to the operands: what takes an
  operator takes everything that the operator takes, so no cell on the way has lost the action that
  is needed.
-/
import LayeredSyntax.Proofs.Parse.Completing
import LayeredSyntax.Proofs.Table.Precedence

namespace LayeredSyntax

variable {ops : List (String × Precedence)}

/-! ## Where formulas may stand -/

/-- Whether a formula may stand on top of a base. -/
def Base.Takes (ops : List (String × Precedence)) (b : Base ops.length)
    (e : Formula (Fin ops.length)) : Prop :=
  ∀ m, b = .operand m → ∀ o ∈ e.operator?, (precedenceIn ops m).TakesRight (precedenceIn ops o)

namespace Formula

variable {b : Base ops.length} {left right inner : Formula (Fin ops.length)}
  {op m : Fin ops.length} {y : Nat}

/-- The terminals of a formula. -/
def codes {n : Nat} (e : Formula (Fin n)) : List Nat := e.word.map Sign.code

theorem codes_paren {n : Nat} (inner : Formula (Fin n)) :
    (paren inner).codes = 2 :: (inner.codes ++ [3]) := by
  show (Sign.opening :: (inner.word ++ [.closing])).map Sign.code = _
  rw [List.map_cons, List.map_append]
  rfl

theorem codes_binary {n : Nat} (op : Fin n) (left right : Formula (Fin n)) :
    (binary op left right).codes = left.codes ++ (4 + (op : Nat)) :: right.codes := by
  show (left.word ++ .operator op :: right.word).map Sign.code = _
  rw [List.map_append, List.map_cons]
  rfl

theorem append_codes_paren {n : Nat} (front : List Nat) (inner : Formula (Fin n)) :
    front ++ (paren inner).codes = front ++ [2] ++ inner.codes ++ [3] := by
  rw [codes_paren]
  simp

theorem append_codes_binary {n : Nat} (front : List Nat) (op : Fin n) (left right : Formula (Fin n)) :
    front ++ (binary op left right).codes =
      front ++ left.codes ++ [4 + (op : Nat)] ++ right.codes := by
  rw [codes_binary]
  simp

/-- A text with a formula in parentheses, as it lies around the formula and around the closing
    parenthesis. -/
theorem splits_paren {n : Nat} {xs front back : List Nat} {inner : Formula (Fin n)}
    (h : xs = front ++ ((paren inner).codes ++ back)) :
    xs = front ++ [2] ++ (inner.codes ++ 3 :: back) ∧
      xs = front ++ [2] ++ inner.codes ++ 3 :: back := by
  rw [h, codes_paren]
  simp

/-- A text with an operator and its operands, as it lies around the left operand, the operator and
    the right operand. -/
theorem splits_binary {n : Nat} {xs front back : List Nat} {op : Fin n}
    {left right : Formula (Fin n)} (h : xs = front ++ ((binary op left right).codes ++ back)) :
    xs = front ++ (left.codes ++ (4 + (op : Nat)) :: (right.codes ++ back)) ∧
      xs = front ++ left.codes ++ (4 + (op : Nat)) :: (right.codes ++ back) ∧
      xs = front ++ left.codes ++ [4 + (op : Nat)] ++ (right.codes ++ back) := by
  rw [h, codes_binary]
  simp

/-- **Whether a formula is spelled by some tokens**: each of them is written for a sign. -/
def Spells (ops : List (String × Precedence)) (e : Formula (Fin ops.length))
    (tokens : List Token) : Prop :=
  List.Forall₂ (fun s token => s.Written ops token.kind token.text) e.word tokens

/-- A formula is spelled by the tokens that can be taken for its terminals. -/
theorem spells_iff {t : Table} {id : GrammarId} (ht : t.Climbs id ops)
    {e : Formula (Fin ops.length)} {tokens : List Token} : e.Spells ops tokens ↔
      List.Forall₂ (fun x token => x ∈ t.terminalsFor token.kind token.text) e.codes tokens := by
  unfold codes
  rw [List.forall₂_map_left_iff]
  refine ⟨fun h => h.imp fun s _ hs => ht.mem_terminalsFor.mpr ⟨s, rfl, hs⟩,
    fun h => h.imp fun s token hx => ?_⟩
  obtain ⟨s', hcode, hs'⟩ := ht.mem_terminalsFor.mp hx
  exact Sign.code_inj hcode ▸ hs'

/-- Whether a formula can end in front of a terminal: no operator is there that does not take it. -/
def EndsBefore (ops : List (String × Precedence)) (e : Formula (Fin ops.length)) (y : Nat) : Prop :=
  ∀ k : Fin ops.length, y = 4 + k → ∀ o ∈ e.operator?,
    (precedenceIn ops k).TakesLeft (precedenceIn ops o)

theorem takes_left (h : (binary op left right).Correct (precedenceIn ops))
    (hb : b.Takes ops (binary op left right)) : b.Takes ops left :=
  fun m hm o ho => (hb m hm op rfl).trans_le (h.1 o ho).rank_le

theorem takes_right (h : (binary op left right).Correct (precedenceIn ops)) :
    (Base.operand op).Takes ops right := by
  rintro m hm
  obtain rfl := Base.operand.inj hm
  exact h.2.1

theorem endsBefore_left (h : (binary op left right).Correct (precedenceIn ops)) :
    left.EndsBefore ops (4 + op) := by
  intro k hk
  obtain rfl : op = k := Fin.ext (by omega)
  exact h.1

theorem endsBefore_right (h : (binary op left right).Correct (precedenceIn ops))
    (hy : (binary op left right).EndsBefore ops y) : right.EndsBefore ops y :=
  fun k hk o ho => (hy k hk op rfl).trans_le (h.2.1 o ho).rank_le

/-- Where an operator with its operands may stand, the operator is read behind the left one. -/
theorem reads_operator (hb : b.Takes ops (binary op left right)) :
    (Spot.after b).Reads ops (4 + op) := by
  intro m k hm hk
  obtain rfl : op = k := Fin.ext (by omega)
  exact hb m (Spot.after.inj hm) op rfl

/-- Where an operator with its operands ends, it is finished behind the right one. -/
theorem finishes_operand (hy : (binary op left right).EndsBefore ops y) :
    (Spot.after (Base.operand op)).Finishes ops y := by
  intro m k hm hk
  obtain rfl := Base.operand.inj (Spot.after.inj hm)
  exact hy k hk op rfl

/-- In parentheses everything may stand, and ends in front of the closing one. -/
theorem takes_paren (e : Formula (Fin ops.length)) : (Base.paren).Takes ops e := fun _ hm => nomatch hm

theorem endsBefore_closing (e : Formula (Fin ops.length)) : e.EndsBefore ops 3 :=
  fun k hk => absurd hk (by omega)

/-- Everything ends at the end of the text. -/
theorem endsBefore_end (e : Formula (Fin ops.length)) : e.EndsBefore ops endOfText :=
  fun k hk => absurd hk (by unfold endOfText; omega)

end Formula

/-! ## Steps -/

namespace ParseJob

variable {j : ParseJob} {s : Stack} {read finished k b p q x : Nat} {id : GrammarId}
  {spot spot' : Spot ops.length} {base : Base ops.length}

/-- A node at a position with its state at a spot. -/
structure Located (j : ParseJob) (s : Stack) (k p : Nat) {n : Nat} (spot : Spot n) : Prop where
  lt : k < s.nodes.size
  position : (s.face k).position = p
  spot : j.table.At (s.face k).state spot

/-- What has been joined to a node is located above it. -/
theorem located_of_joined {target : Nat} (h : s.Joined 0 ⟨target, p, p⟩ b)
    (hspot : j.table.At target spot) : ∃ k, j.Located s k p spot ∧ s.Path k 1 b := by
  obtain ⟨k, _, hlt, hface, e, he, hbelow⟩ := h
  exact ⟨k, ⟨hlt, by rw [hface], by rw [hface]; exact hspot⟩, e, he, hbelow⟩

/-- A sign that leads on can be read. -/
theorem Located.exists_shift (hb : j.Located s b p spot) (ht : j.table.Climbs id ops)
    (hx : x ∈ j.terminalsAt p) (hstep : spot.Step (.t x) spot') (hreads : spot.Reads ops x) :
    ∃ target, (x, target) ∈ j.shifts (s.face b).state p ∧ j.table.At target spot' := by
  obtain ⟨target, haction, htarget⟩ := ht.exists_shift hb.spot hstep hreads
  exact ⟨target, mem_shifts.mpr ⟨hx, haction⟩, htarget⟩

/-- **Over a sign**: the node that has read it. -/
theorem Complete.over_sign (h : j.Complete read finished s) (ht : j.table.Climbs id ops)
    {front : List Nat} (hb : j.Located s b front.length spot) (hp : front.length < read)
    (hx : x ∈ j.terminalsAt front.length) (hstep : spot.Step (.t x) spot')
    (hreads : spot.Reads ops x) :
    ∃ k, j.Located s k (front ++ [x]).length spot' ∧ s.Path k 1 b := by
  obtain ⟨target, hshift, htarget⟩ := hb.exists_shift ht hx hstep hreads
  have hjoined := h.reads hb.lt (hb.position ▸ hp) (hb.position ▸ hshift)
  rw [hb.position] at hjoined
  have hlength : (front ++ [x]).length = front.length + 1 := List.length_append
  rw [hlength]
  exact located_of_joined hjoined htarget

/-- **Over an expression**: the node behind a production that was finished. -/
theorem Complete.over_expression (h : j.Complete read finished s) (ht : j.table.Climbs id ops)
    (hb : j.Located s b p (.before base)) (hk : j.Located s k q spot) {production n : Nat}
    {made : Production} (hdone : spot.done? = some production)
    (hmade : Composite.ExpressionOf id ops production made) (hlhs : made.lhs = 0)
    (hlength : made.rhs.length = n + 1) (hpath : s.Path k (n + 1) b)
    (hq : q < finished) (hx : x ∈ j.terminalsAt q) (hfollow : j.table.Follows 0 x)
    (hfinishes : spot.Finishes ops x) :
    ∃ k', j.Located s k' q (.after base) ∧ s.Path k' 1 b := by
  obtain ⟨target, hgoto, htarget⟩ := ht.exists_goto hb.spot
  have hreduce := ht.exists_reduce hk.spot hdone hfollow hfinishes
  have hproduction := Composite.production_eq (ht.productions_iff.mpr hmade)
  rw [← hlhs, ← hproduction] at hgoto
  rw [← hproduction] at hlength
  have hjoined := h.finishes hk.lt (hk.position ▸ hq)
    (mem_reductions.mpr ⟨x, hk.position ▸ hx, hreduce⟩) hlength hpath hgoto
  rw [hk.position] at hjoined
  exact located_of_joined hjoined htarget

/-! ## Formulas -/

variable {xs : List Nat} {e : Formula (Fin ops.length)}

/-- **From a node in front of a formula an edge leads up to one behind it.** -/
theorem Complete.behind (h : j.Complete read (read + 1) s) (ht : j.table.Climbs id ops)
    (hxs : j.Chosen xs) (hcorrect : e.Correct (precedenceIn ops)) :
    ∀ {front back : List Nat} {b : Nat} {base : Base ops.length},
      xs = front ++ (e.codes ++ back) → j.Located s b front.length (.before base) →
      base.Takes ops e → front.length + e.codes.length ≤ read →
      j.table.Follows 0 (Composite.nextOf back) → e.EndsBefore ops (Composite.nextOf back) →
      ∃ k, j.Located s k (front ++ e.codes).length (.after base) ∧ s.Path k 1 b := by
  induction e with
  | number =>
    intro front back b base hsplit hb _ hle hfollow _
    have hnumber : 1 ∈ j.terminalsAt front.length := hxs hsplit
    obtain ⟨k, hk, hpath⟩ := h.over_sign ht hb (by exact hle) hnumber (.number base)
      fun _ _ hno => nomatch hno
    rw [← List.append_assoc] at hsplit
    exact h.over_expression ht hb hk rfl .number rfl rfl hpath
      (Nat.lt_succ_of_le (List.length_append.trans_le hle)) (hxs hsplit) hfollow
      fun _ _ hno => nomatch hno
  | paren inner ih =>
    intro front back b base hsplit hb _ hle hfollow _
    have hopening : 2 ∈ j.terminalsAt front.length := hxs hsplit
    obtain ⟨hinner, hclosing⟩ := Formula.splits_paren hsplit
    rw [← List.append_assoc, Formula.append_codes_paren] at hsplit
    rw [← List.length_append, Formula.append_codes_paren] at hle
    rw [Formula.append_codes_paren]
    simp only [List.length_append, List.length_singleton] at hle
    -- The opening parenthesis, the formula in it, and the closing one.
    obtain ⟨k₁, hk₁, hpath₁⟩ := h.over_sign ht hb (by omega) hopening (.opening base)
      fun _ _ hno => nomatch hno
    obtain ⟨k₂, hk₂, hpath₂⟩ := ih hcorrect hinner hk₁ inner.takes_paren
      (by simp only [List.length_append, List.length_singleton]; omega) ht.follows_closing
      inner.endsBefore_closing
    obtain ⟨k₃, hk₃, hpath₃⟩ := h.over_sign ht hk₂
      (by simp only [List.length_append, List.length_singleton]; omega) (hxs hclosing) .closing
      fun _ _ hno => nomatch hno
    exact h.over_expression ht hb hk₃ rfl .paren rfl rfl (hpath₃.trans (hpath₂.trans hpath₁))
      (by simp only [List.length_append, List.length_singleton]; omega)
      (hxs hsplit) hfollow fun _ _ hno => nomatch hno
  | binary op left right ihleft ihright =>
    intro front back b base hsplit hb htakes hle hfollow hends
    obtain ⟨hleft, hoperator, hright⟩ := Formula.splits_binary hsplit
    rw [← List.append_assoc, Formula.append_codes_binary] at hsplit
    rw [← List.length_append, Formula.append_codes_binary] at hle
    rw [Formula.append_codes_binary]
    simp only [List.length_append, List.length_singleton] at hle
    -- The left operand, the operator, and the right operand.
    obtain ⟨k₁, hk₁, hpath₁⟩ := ihleft hcorrect.2.2.1 hleft hb (Formula.takes_left hcorrect htakes)
      (by omega) (ht.follows_operator op) (Formula.endsBefore_left hcorrect)
    obtain ⟨k₂, hk₂, hpath₂⟩ := h.over_sign ht hk₁ (by rw [List.length_append]; omega)
      (hxs hoperator) (.operator base op) (Formula.reads_operator htakes)
    obtain ⟨k₃, hk₃, hpath₃⟩ := ihright hcorrect.2.2.2 hright hk₂ (Formula.takes_right hcorrect)
      (by simp only [List.length_append, List.length_singleton]; omega) hfollow
      (Formula.endsBefore_right hcorrect hends)
    exact h.over_expression ht hb hk₃ rfl (.joined op) rfl rfl
      (hpath₃.trans (hpath₂.trans hpath₁))
      (by simp only [List.length_append, List.length_singleton]; omega) (hxs hsplit) hfollow
      (Formula.finishes_operand hends)

/-- A sign can be read where its node is. -/
theorem Located.can_read (hb : j.Located s b p spot) (ht : j.table.Climbs id ops)
    (hx : x ∈ j.terminalsAt p) (hstep : spot.Step (.t x) spot') (hreads : spot.Reads ops x) :
    ∃ k < s.nodes.size, (s.face k).position = p ∧ ∃ step, step ∈ j.shifts (s.face k).state p := by
  obtain ⟨target, hshift, _⟩ := hb.exists_shift ht hx hstep hreads
  exact ⟨b, hb.lt, hb.position, _, hshift⟩

/-- **Where the position lies inside of a formula, its sign can be read.** -/
theorem Complete.inside (h : j.Complete read (read + 1) s) (ht : j.table.Climbs id ops)
    (hxs : j.Chosen xs) (hcorrect : e.Correct (precedenceIn ops)) :
    ∀ {front back : List Nat} {b : Nat} {base : Base ops.length},
      xs = front ++ (e.codes ++ back) → j.Located s b front.length (.before base) →
      base.Takes ops e → front.length ≤ read → read < front.length + e.codes.length →
      ∃ k < s.nodes.size, (s.face k).position = read ∧
        ∃ step, step ∈ j.shifts (s.face k).state read := by
  induction e with
  | number =>
    intro front back b base hsplit hb _ hle hlt
    obtain rfl : front.length = read := Nat.le_antisymm hle (Nat.le_of_lt_succ hlt)
    exact hb.can_read ht (hxs hsplit) (.number base) fun _ _ hno => nomatch hno
  | paren inner ih =>
    intro front back b base hsplit hb _ hle hlt
    have hcorrect : inner.Correct (precedenceIn ops) := hcorrect
    have hopening : 2 ∈ j.terminalsAt front.length := hxs hsplit
    obtain ⟨hinner, hclosing⟩ := Formula.splits_paren hsplit
    rw [← List.length_append, Formula.append_codes_paren] at hlt
    have hfront : (front ++ [2]).length = front.length + 1 := List.length_append
    have hbehind : (front ++ [2] ++ inner.codes).length =
        front.length + 1 + inner.codes.length := by rw [List.length_append, hfront]
    rw [List.length_append, hbehind, List.length_singleton] at hlt
    rcases Nat.lt_or_eq_of_le hle with hle | rfl
    · obtain ⟨k₁, hk₁, _⟩ := h.over_sign ht hb hle hopening (.opening base)
        fun _ _ hno => nomatch hno
      rcases Nat.lt_or_ge read (front ++ [2] ++ inner.codes).length with hin | hout
      · exact ih hcorrect hinner hk₁ inner.takes_paren (by omega) (by omega)
      · -- The position is that of the closing parenthesis.
        obtain ⟨k₂, hk₂, _⟩ := h.behind ht hxs hcorrect hinner hk₁ inner.takes_paren
          (by omega) ht.follows_closing inner.endsBefore_closing
        obtain rfl : (front ++ [2] ++ inner.codes).length = read := by omega
        exact hk₂.can_read ht (hxs hclosing) .closing fun _ _ hno => nomatch hno
    · exact hb.can_read ht hopening (.opening base) fun _ _ hno => nomatch hno
  | binary op left right ihleft ihright =>
    intro front back b base hsplit hb htakes hle hlt
    obtain ⟨hleft, hoperator, hright⟩ := Formula.splits_binary hsplit
    rw [← List.length_append, Formula.append_codes_binary] at hlt
    have hfront : (front ++ left.codes).length = front.length + left.codes.length :=
      List.length_append
    have hbehind : (front ++ left.codes ++ [4 + (op : Nat)]).length =
        front.length + left.codes.length + 1 := by
      rw [List.length_append, hfront, List.length_singleton]
    rw [List.length_append, hbehind] at hlt
    have htakes' := Formula.takes_left hcorrect htakes
    rcases Nat.lt_or_ge read (front ++ left.codes).length with hin | hout
    · exact ihleft hcorrect.2.2.1 hleft hb htakes' hle (by omega)
    · obtain ⟨k₁, hk₁, _⟩ := h.behind ht hxs hcorrect.2.2.1 hleft hb htakes' (by omega)
        (ht.follows_operator op) (Formula.endsBefore_left hcorrect)
      have hreads := Formula.reads_operator htakes
      rcases Nat.lt_or_eq_of_le hout with hout | rfl
      · obtain ⟨k₂, hk₂, _⟩ := h.over_sign ht hk₁ hout (hxs hoperator) (.operator base op) hreads
        exact ihright hcorrect.2.2.2 hright hk₂ (Formula.takes_right hcorrect) (by omega) (by omega)
      · exact hk₁.can_read ht (hxs hoperator) (.operator base op) hreads

/-! ## Runs -/

variable {entry : Entry} {progress : Progress}

/-- The bottom of the stacks is in front of the formula. -/
theorem located_bottom (hp : progress.Derived j entry) (ht : j.table.Climbs id ops)
    (hentry : j.table.entry? j.grammar = some entry) :
    j.Located progress.stack 0 0 (.before .text : Spot ops.length) := by
  refine ⟨hp.some_node, ?_, ?_⟩
  · rw [hp.bottom]
  · rw [hp.bottom]
    exact ht.at_entry hentry

/-- **The parse of a correct formula is never stuck.** -/
theorem not_stuck_of_correct (hj : j.Ready) (ht : j.table.Climbs id ops)
    (hentry : j.table.entry? j.grammar = some entry) (hcorrect : e.Correct (precedenceIn ops))
    (hspells : e.Spells ops j.tokens.significantTokens) (hp : progress.Derived j entry)
    (h : j.Complete progress.position progress.position progress.stack) {p' : Progress} :
    ¬ progress.Stuck j p' := by
  have hall := reduceAll_complete ht.canonical hp h
  have hb := located_bottom (hp.reduceAll ht.canonical) ht hentry
  have hchosen := (Formula.spells_iff ht).mp hspells
  have hxs : j.Chosen e.codes := chosen_of_forall₂ hj hchosen
  have hlength : e.codes.length = j.finish :=
    hchosen.length_eq.trans hj.regular.length_significantTokens
  have hsplit : e.codes = [] ++ (e.codes ++ []) := by rw [List.append_nil, List.nil_append]
  have htakes : (Base.text : Base ops.length).Takes ops e := fun _ hno => nomatch hno
  refine not_stuck_of_node hj ht.canonical hp (fun hfinish => ?_) fun hne => ?_
  · obtain ⟨k, hk, e', he', _⟩ := hall.behind ht hxs hcorrect hsplit hb htakes
      (by rw [List.length_nil]; omega) ht.follows_end e.endsBefore_end
    have hposition := hk.position
    rw [List.nil_append, hlength, ← hfinish] at hposition
    exact ⟨k, hk.lt, hposition, List.ne_nil_of_mem he', ht.accept_iff.mpr hk.spot⟩
  · have hlt : progress.position < j.finish := Nat.lt_of_le_of_ne hp.position_le hne
    exact hall.inside ht hxs hcorrect hsplit hb htakes (Nat.zero_le _)
      (by rw [List.length_nil, Nat.zero_add, hlength]; exact hlt)

/-- **A correct formula is parsed without repairs.** -/
theorem run_of_correct [Limits] (hj : j.Ready) (ht : j.table.Climbs id ops)
    (hreuse : j.reuse = none) (hentry : j.table.entry? j.grammar = some entry) (hpos : j.finish ≠ 0)
    (hcorrect : e.Correct (precedenceIn ops))
    (hspells : e.Spells ops j.tokens.significantTokens) : j.run.counts.repairs = 0 :=
  run_of_not_stuck hj ht.canonical hreuse hentry hpos fun _ _ hs hc =>
    not_stuck_of_correct hj ht hentry hcorrect hspells hs hc

end ParseJob

end LayeredSyntax
