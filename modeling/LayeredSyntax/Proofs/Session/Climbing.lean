/-
  PRECEDENCE CLIMBING — levels decide between the trees of an expression, and nothing else does.

  A grammar of expressions with one rule is ambiguous: a row of numbers and operators has as many
  trees as there are ways to put parentheses.  The levels of the operators settle it beforehand, in
  the cells of the table.  What comes of it, for all levels and all texts:

  1. The grammar composes, and **no cell of its table has two actions** (`compose_climbing`).
  2. The rows of terminals that it generates are those of formulas (`Table.Climbs.generates_iff`).
  3. **A text with a correct formula is parsed without repairs, to that formula**, and there is no
     other one; a text without one is repaired (`Parser.runOn_climbs`).

  The third point goes both ways: a correct formula is always found (`run_of_correct`), and what is
  found without repairs is correct (`run_groups`).  That there is only one joins the two.
-/
import Mathlib
import LayeredSyntax.Proofs.Parse.Grouping
import LayeredSyntax.Session.Parser

namespace LayeredSyntax

variable {ops : List (String × Precedence)} {id : GrammarId}

/-! ## Composing -/

/-- **The grammar of expressions composes** to a table for expressions. -/
theorem compose_climbing {levels : List Level} (h : Distinct levels) (id : GrammarId) :
    ∃ t, compose [.climbing id levels] = .ok t ∧ t.Climbs id (operatorsOf levels) := by
  obtain ⟨c, hc, hclimbs⟩ := Composite.compositeOf_climbing h id
  refine ⟨Table.ofComposite c, ?_, c, hclimbs, compositeOf_wellFormed hc, rfl⟩
  unfold compose
  rw [hc]
  rfl

/-! ## Sentences -/

/-- What a symbol of a production of expressions can be written as. -/
def Sym.Yields (n : Nat) : Sym → List Nat → Prop
  | .t x, part => part = [x]
  | .n _, part => ∃ e : Formula (Fin n), part = e.codes

/-- A production puts the formulas of its symbols together. -/
theorem Composite.ExpressionOf.yields {q : Nat} {p : Production} {parts : List (List Nat)}
    (hp : ExpressionOf id ops q p) (h : List.Forall₂ (Sym.Yields ops.length) p.rhs parts) :
    ∃ e : Formula (Fin ops.length), parts.flatten = e.codes := by
  cases hp with
  | number =>
    obtain _ | ⟨rfl, _ | _⟩ := h
    exact ⟨.number, rfl⟩
  | paren =>
    obtain _ | ⟨rfl, _ | ⟨⟨inner, rfl⟩, _ | ⟨rfl, _ | _⟩⟩⟩ := h
    exact ⟨.paren inner, (Formula.codes_paren inner).symm⟩
  | joined m =>
    obtain _ | ⟨⟨left, rfl⟩, _ | ⟨rfl, _ | ⟨⟨right, rfl⟩, _ | _⟩⟩⟩ := h
    refine ⟨.binary m left right, (Formula.codes_binary m left right).symm ▸ ?_⟩
    show left.codes ++ (4 + (m : Nat)) :: (right.codes ++ []) = _
    rw [List.append_nil]
  | text =>
    obtain _ | ⟨⟨e, rfl⟩, _ | _⟩ := h
    exact ⟨e, List.append_nil _⟩

namespace Table.Climbs

variable {t : Table} {syms : List Sym} {xs : List Nat}

/-- What symbols generate falls into what each of them yields. -/
theorem yields_of_generates (ht : t.Climbs id ops) (h : t.Generates syms xs) :
    ∃ parts, xs = parts.flatten ∧ List.Forall₂ (Sym.Yields ops.length) syms parts := by
  induction h with
  | nil => exact ⟨[], rfl, .nil⟩
  | @terminal x _ _ _ ih =>
    obtain ⟨parts, rfl, hparts⟩ := ih
    exact ⟨[x] :: parts, rfl, .cons rfl hparts⟩
  | rule hq _ _ _ ihinside ih =>
    obtain ⟨inner, rfl, hinner⟩ := ihinside
    obtain ⟨parts, rfl, hparts⟩ := ih
    exact ⟨inner.flatten :: parts, rfl, .cons ((ht.productions_iff.mp hq).yields hinner) hparts⟩

/-- The rule generates the terminals of every formula. -/
theorem generates_codes (ht : t.Climbs id ops) (e : Formula (Fin ops.length)) :
    ∀ {syms : List Sym} {xs : List Nat}, t.Generates syms xs →
      t.Generates (.n 0 :: syms) (e.codes ++ xs) := by
  induction e with
  | number => exact fun h => .rule (ht.productions_iff.mpr .number) trivial (.terminal .nil) h
  | paren inner ih =>
    intro syms xs h
    rw [Formula.codes_paren]
    exact .rule (ht.productions_iff.mpr .paren) trivial (.terminal (ih (.terminal .nil))) h
  | binary op left right ihleft ihright =>
    intro syms xs h
    rw [Formula.codes_binary]
    have hinside := ihleft (.terminal (x := 4 + (op : Nat)) (ihright .nil))
    rw [List.append_nil] at hinside
    exact .rule (ht.productions_iff.mpr (.joined op)) trivial hinside h

/-- **The sentences are the rows of terminals of formulas.** -/
theorem generates_iff (ht : t.Climbs id ops) :
    t.Generates [.n 0] xs ↔ ∃ e : Formula (Fin ops.length), xs = e.codes := by
  constructor
  · intro h
    obtain ⟨parts, rfl, _ | ⟨⟨e, rfl⟩, _ | _⟩⟩ := ht.yields_of_generates h
    exact ⟨e, List.append_nil _⟩
  · rintro ⟨e, rfl⟩
    exact List.append_nil e.codes ▸ ht.generates_codes e .nil

variable {e e' : Formula (Fin ops.length)} {tokens : List Token}

/-- Formulas that are spelled by the same tokens are written in the same way. -/
theorem word_eq (ht : t.Climbs id ops) (h : e.Spells ops tokens) (h' : e'.Spells ops tokens) :
    e.word = e'.word := by
  have hwritten : Relator.LeftUnique fun (s : Sign (Fin ops.length)) (token : Token) =>
      s.Written ops token.kind token.text := fun _ _ _ hs hs' => ht.written_unique hs hs'
  exact List.left_unique_forall₂' hwritten h h'

/-- **There is one correct formula** at most for a row of tokens. -/
theorem correct_unique (ht : t.Climbs id ops) (hcorrect : e.Correct (precedenceIn ops))
    (h : e.Spells ops tokens) (hcorrect' : e'.Correct (precedenceIn ops))
    (h' : e'.Spells ops tokens) : e' = e :=
  hcorrect'.unique ht.assoc_eq hcorrect (ht.word_eq h' h)

end Table.Climbs

/-! ## Main result -/

/-- A formula is not written as nothing. -/
theorem Formula.word_ne_nil {n : Nat} (e : Formula (Fin n)) : e.word ≠ [] := by
  cases e with
  | number | paren => exact List.cons_ne_nil _ _
  | binary op left right => exact List.append_ne_nil_of_right_ne_nil _ (List.cons_ne_nil _ _)

/-- **Whether a parse returned a formula**: without repairs, as the only thing in its tree. -/
def ParseRun.Returns (r : ParseRun) (ops : List (String × Precedence)) (id : GrammarId)
    (e : Formula (Fin ops.length)) (tokens : List Token) : Prop :=
  r.counts.repairs = 0 ∧ ∃ children node, r.tree = .root id children ∧
    children.filter (!·.isTrivia) = [node] ∧ e.Shows ops id tokens node

/-- **What a parse makes of a row of tokens** that is a sentence. -/
structure ParseRun.Climbs (r : ParseRun) (ops : List (String × Precedence)) (id : GrammarId)
    (tokens : List Token) : Prop where
  /-- A correct formula is the only one, and is returned. -/
  correct : ∀ e : Formula (Fin ops.length), e.Correct (precedenceIn ops) → e.Spells ops tokens →
    (∀ e' : Formula (Fin ops.length), e'.Correct (precedenceIn ops) → e'.Spells ops tokens →
      e' = e) ∧ r.Returns ops id e tokens
  /-- Without a correct formula something is repaired. -/
  incorrect : (∀ e : Formula (Fin ops.length), e.Spells ops tokens →
    ¬ e.Correct (precedenceIn ops)) → 1 ≤ r.counts.repairs

namespace ParseJob

variable {j : ParseJob} {entry : Entry} {e : Formula (Fin ops.length)}

/-- **The only correct formula is returned.** -/
theorem run_returns [Limits] (hj : j.Ready) (ht : j.table.Climbs id ops) (hreuse : j.reuse = none)
    (hgrammar : j.grammar = id) (hentry : j.table.entry? id = some entry) (hpos : j.finish ≠ 0)
    (hcorrect : e.Correct (precedenceIn ops))
    (hspells : e.Spells ops j.tokens.significantTokens) :
    j.run.Returns ops id e j.tokens.significantTokens := by
  subst hgrammar
  have hrepairs := run_of_correct hj ht hreuse hentry hpos hcorrect hspells
  obtain ⟨children, node, e', htree, hchildren, hcorrect', hshows⟩ :=
    run_groups hj ht hreuse hentry hpos hrepairs
  obtain rfl := ht.correct_unique hcorrect hspells hcorrect' hshows.spells
  exact ⟨hrepairs, children, node, htree, hchildren, hshows⟩

end ParseJob

/-- **A parse of expressions climbs.** -/
theorem ParseJob.run_climbs [Limits] {j : ParseJob} {entry : Entry} (hj : j.Ready)
    (ht : j.table.Climbs id ops) (hreuse : j.reuse = none) (hgrammar : j.grammar = id)
    (hentry : j.table.entry? id = some entry) (hpos : j.finish ≠ 0) :
    j.run.Climbs ops id j.tokens.significantTokens := by
  refine ⟨fun e hcorrect hspells => ⟨fun e' hcorrect' hspells' =>
    ht.correct_unique hcorrect hspells hcorrect' hspells',
    run_returns hj ht hreuse hgrammar hentry hpos hcorrect hspells⟩, fun hnone => ?_⟩
  refine Nat.one_le_iff_ne_zero.mpr fun hrepairs => ?_
  obtain ⟨_, _, e, _, _, hcorrect, hshows⟩ :=
    run_groups hj ht hreuse (hgrammar ▸ hentry) hpos hrepairs
  exact hnone e hshows.spells hcorrect

/-- **Precedence climbing**: whatever the levels are, the grammar of expressions composes to a table
    without two actions in a cell; the correct formula of a sentence is the only one and is what is
    parsed, and a sentence without one is repaired. -/
theorem Parser.runOn_climbs [Limits] {levels : List Level} (h : Distinct levels) (id : GrammarId) :
    ∃ t entry, compose [.climbing id levels] = .ok t ∧ t.entry? id = some entry ∧
      (∀ state x, (t.actionsAt state x).length ≤ 1) ∧
      ∀ (p : Parser) (d : Document) (tokens : Array Token) (xs : List Nat),
        p.language.table = t → p.language.grammar = id →
        List.Forall₂ (fun x token => x ∈ t.terminalsFor token.kind token.text) xs
          (TokenStream.ofTokens d tokens).significantTokens →
        t.Generates [.n entry.start] xs →
          (p.runOn (.ofTokens d tokens) none).Climbs (operatorsOf levels) id
            (TokenStream.ofTokens d tokens).significantTokens := by
  obtain ⟨t, hcompose, ht⟩ := compose_climbing h id
  obtain ⟨entry, hentry, hstart⟩ := ht.exists_entry
  refine ⟨t, entry, hcompose, hentry, ht.length_actionsAt_le, ?_⟩
  rintro p d tokens xs rfl hgrammar hchosen hsentence
  have hj := ParseJob.ready_prepare p.language.table p.language.grammar
    (TokenStream.regular_ofTokens d tokens) p.resync none p.parsing.reportRepairs
  -- A sentence is written as something.
  rw [hstart] at hsentence
  obtain ⟨e, rfl⟩ := ht.generates_iff.mp hsentence
  have hpos : (TokenStream.ofTokens d tokens).size ≠ 0 := by
    rw [← (TokenStream.regular_ofTokens d tokens).length_significantTokens, ← hchosen.length_eq]
    unfold Formula.codes
    rw [List.length_map]
    exact Nat.pos_iff_ne_zero.mp (List.length_pos_iff.mpr e.word_ne_nil)
  exact ParseJob.run_climbs hj ht rfl hgrammar hentry hpos

/-! ## Equations of differences -/

/-- Whatever is spelled by some tokens makes them a sentence. -/
theorem sentence_of_spells {levels : List Level} (h : Distinct levels) {t : Table}
    (hcompose : compose [.climbing id levels] = .ok t) {entry : Entry}
    (hentry : t.entry? id = some entry) {e : Formula (Fin (operatorsOf levels).length)}
    {tokens : List Token} (hspells : e.Spells (operatorsOf levels) tokens) :
    List.Forall₂ (fun x token => x ∈ t.terminalsFor token.kind token.text) e.codes tokens ∧
      t.Generates [.n entry.start] e.codes := by
  obtain ⟨t', hcompose', ht⟩ := compose_climbing h id
  obtain rfl : t = t' := Except.ok.inj (hcompose.symm.trans hcompose')
  obtain ⟨entry', hentry', hstart⟩ := ht.exists_entry
  obtain rfl : entry = entry' := Option.some.inj (hentry.symm.trans hentry')
  exact ⟨(Formula.spells_iff ht).mp hspells, hstart ▸ ht.generates_iff.mpr ⟨e, rfl⟩⟩

/-- A formula is spelled by tokens of the right kinds and texts. -/
theorem Formula.spells_of_map {e : Formula (Fin ops.length)} {tokens : List Token}
    {texts : List (TokenKind × String)} (htokens : tokens.map (fun x => (x.kind, x.text)) = texts)
    (h : List.Forall₂ (fun s (x : TokenKind × String) => s.Written ops x.1 x.2) e.word texts) :
    e.Spells ops tokens := by
  subst htokens
  exact List.forall₂_map_right_iff.mp h

/-- Equations of differences: a level that does not group, below one that groups to the left. -/
def differences : List Level :=
  [⟨"equation", .nonAssoc, ["="]⟩, ⟨"difference", .left, ["-"]⟩]

theorem distinct_differences : Distinct differences := by
  refine ⟨by decide, ?_, by decide, by decide⟩
  have hlower : (differences.flatMap (·.operators)).map String.toLower = ["=", "-"] := by cbv
  rw [hlower]
  decide

/-- One operator between three numbers, grouped to the left. -/
def Formula.chain {Op : Type} (op : Op) : Formula Op := .binary op (.binary op .number .number) .number

/-- Three numbers with an operator in between are written as its chain. -/
theorem spells_chain {op : Fin (operatorsOf differences).length} {text : String} {a b c : String}
    (hop : (operatorsOf differences)[op].1 = text) {tokens : List Token}
    (htokens : tokens.map (fun x => (x.kind, x.text)) =
      [(.number, a), (.operator, text), (.number, b), (.operator, text), (.number, c)]) :
    (Formula.chain op).Spells (operatorsOf differences) tokens := by
  have hnumber : ∀ text, Sign.number.Written (operatorsOf differences) .number text :=
    fun _ => Sign.written_number.mpr rfl
  have hoperator : (Sign.operator op).Written (operatorsOf differences) .operator text :=
    (Sign.written_sym rfl).mpr ⟨rfl, congrArg String.toLower hop⟩
  exact Formula.spells_of_map htokens (.cons (hnumber a) (.cons hoperator (.cons (hnumber b)
    (.cons hoperator (.cons (hnumber c) .nil)))))

/-- **Differences group to the left, and equations of equations are repaired.** -/
theorem Parser.runOn_climbs_differences :
    ∃ t, compose [.climbing ⟨"differences"⟩ differences] = .ok t ∧
      ((Parser.ofLanguage ⟨⟨"differences"⟩, t, .expr, 0⟩).runOn
        (.read .expr (Document.ofText "3-2-1")) none).Returns (operatorsOf differences)
          ⟨"differences"⟩ (.chain ⟨1, by decide⟩)
            (TokenStream.read .expr (Document.ofText "3-2-1")).significantTokens ∧
      1 ≤ ((Parser.ofLanguage ⟨⟨"differences"⟩, t, .expr, 0⟩).runOn
        (.read .expr (Document.ofText "1=2=3")) none).counts.repairs := by
  obtain ⟨t, entry, hcompose, hentry, _, hclimbs⟩ :=
    Parser.runOn_climbs distinct_differences ⟨"differences"⟩
  have hdifference : (Formula.chain ⟨1, by decide⟩).Spells (operatorsOf differences)
      (TokenStream.read .expr (Document.ofText "3-2-1")).significantTokens :=
    spells_chain (a := "3") (b := "2") (c := "1") rfl (by cbv)
  have hequation : (Formula.chain ⟨0, by decide⟩).Spells (operatorsOf differences)
      (TokenStream.read .expr (Document.ofText "1=2=3")).significantTokens :=
    spells_chain (a := "1") (b := "2") (c := "3") rfl (by cbv)
  refine ⟨t, hcompose, ?_, ?_⟩
  · obtain ⟨hchosen, hsentence⟩ :=
      sentence_of_spells distinct_differences hcompose hentry hdifference
    have hcorrect : (Formula.chain ⟨1, by decide⟩).Correct
        (precedenceIn (operatorsOf differences)) := by
      refine ⟨?_, ?_, ⟨?_, ?_, trivial, trivial⟩, trivial⟩
      · rintro _ ⟨⟩
        exact .inr ⟨rfl, rfl⟩
      all_goals
        intro _ hno
        cases hno
    exact ((hclimbs _ _ _ _ rfl rfl hchosen hsentence).correct _ hcorrect hdifference).2
  · obtain ⟨hchosen, hsentence⟩ :=
      sentence_of_spells distinct_differences hcompose hentry hequation
    refine (hclimbs _ _ _ _ rfl rfl hchosen hsentence).incorrect fun e hspells hcorrect => ?_
    obtain ⟨t', hcompose', ht⟩ := compose_climbing distinct_differences ⟨"differences"⟩
    have houter := Formula.outer_eq_of_word_eq (ht.word_eq hspells hequation)
    have hsame : ∀ o ∈ e.outer, o = ⟨0, by decide⟩ := by
      intro o ho
      rw [houter] at ho
      exact or_self_iff.mp (List.mem_pair.mp ho)
    have hle := hcorrect.length_outer_le (fun o ho o' ho' => by rw [hsame o ho, hsame o' ho'])
      (fun o ho => by rw [hsame o ho]; rfl)
    rw [houter] at hle
    exact absurd hle (by decide)

end LayeredSyntax
