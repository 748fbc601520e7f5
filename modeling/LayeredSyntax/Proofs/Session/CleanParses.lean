/-
  TREES AND SENTENCES — what it means that nothing had to be repaired.

  1. **A text that was parsed without repairs has a derivation for its tree** (`parse_derives`): its
     tokens are terminals of a sentence, and every node is a production of what it stands for.
  2. **A sentence is parsed without repairs** (`runOn_clean`), if no conflict of the table was
     settled beforehand.  However ambiguous the grammar is and whatever is recursive in it, one of
     the derivations is found, and there is no error in the tree.
  3. The sentence has to be one of short productions.  **A row of 2^16 words is repaired**
     (`runOn_repaired_rowOf`): its grammar has no other production than the row, and that is never
     finished.
-/
import Mathlib
import LayeredSyntax.Proofs.Parse.Completing
import LayeredSyntax.Proofs.Table.LongRows
import LayeredSyntax.Session.Parser

namespace LayeredSyntax

variable {grammars : List Grammar} {entry : Entry}

/-! ## Rows of words -/

/-- The grammar of rows of words: a row is a word, or two rows. -/
def Grammar.rowsOfWords : Grammar :=
  ⟨⟨"rows"⟩, "row", [⟨"row", [.plain [.rule "row", .rule "row"],
    .plain [.terminal (.kind .identifier)]]⟩], [], [], [], [], []⟩

/-- It can be composed, and no conflict of it is settled.  The terminal is that of words. -/
theorem compose_rowsOfWords : ∃ t, compose [Grammar.rowsOfWords] = .ok t ∧
    t.conflictsPruned = 0 ∧ (t.entry? ⟨"rows"⟩).map (·.start) = some 0 ∧
    t.productions.toList.map (fun p => (p.lhs, p.rhs)) =
      [(0, [.n 0, .n 0]), (0, [.t 1]), (1, [.n 0])] ∧
    t.terminalsFor .identifier "a" = [1] := by
  have h : (compose [Grammar.rowsOfWords]).toOption.map (fun t => (t.conflictsPruned,
      (t.entry? ⟨"rows"⟩).map (·.start), t.productions.toList.map (fun p => (p.lhs, p.rhs)),
      t.terminalsFor .identifier "a")) =
        some (0, some 0, [(0, [.n 0, .n 0]), (0, [.t 1]), (1, [.n 0])], [1]) := by cbv
  obtain ⟨t, ht, h⟩ := Option.map_eq_some_iff.mp h
  obtain ⟨hpruned, h⟩ := Prod.mk.inj h
  obtain ⟨hentry, h⟩ := Prod.mk.inj h
  obtain ⟨hproductions, hterminals⟩ := Prod.mk.inj h
  exact ⟨t, compose_of_toOption ht, hpruned, hentry, hproductions, hterminals⟩

/-- **A row of two words is a sentence.** -/
theorem sentence_rowsOfWords : ∃ t entry, compose [Grammar.rowsOfWords] = .ok t ∧
    t.conflictsPruned = 0 ∧ t.entry? ⟨"rows"⟩ = some entry ∧
    (TokenStream.read .expr (Document.ofText "a a")).size ≠ 0 ∧
    List.Forall₂ (fun x token => x ∈ t.terminalsFor token.kind token.text) [1, 1]
      (TokenStream.read .expr (Document.ofText "a a")).significantTokens ∧
    t.GeneratesBy Production.Short [.n entry.start] [1, 1] := by
  obtain ⟨t, ht, hpruned, hentry, hproductions, hterminals⟩ := compose_rowsOfWords
  obtain ⟨entry, hentry, hstart⟩ := Option.map_eq_some_iff.mp hentry
  -- The productions are known by their sides.
  have hproduction : ∀ {q : Nat} {p : Nat × List Sym},
      [(0, [.n 0, .n 0]), (0, [Sym.t 1]), (1, [.n 0])][q]? = some p →
        ∃ production, t.productions[q]? = some production ∧
          (production.lhs, production.rhs) = p := by
    intro q p hp
    rw [← hproductions, List.getElem?_map, Array.getElem?_toList] at hp
    exact Option.map_eq_some_iff.mp hp
  obtain ⟨two, htwo, htwo'⟩ := hproduction (q := 0) rfl
  obtain ⟨one, hone, hone'⟩ := hproduction (q := 1) rfl
  obtain ⟨htwolhs, htworhs⟩ := Prod.mk.inj htwo'
  obtain ⟨honelhs, honerhs⟩ := Prod.mk.inj hone'
  have hwordshort : one.Short := show one.rhs.length < UInt16.size from honerhs ▸ by decide
  have hrowshort : two.Short := show two.rhs.length < UInt16.size from htworhs ▸ by decide
  have hword : t.GeneratesBy Production.Short one.rhs [1] := honerhs ▸ .terminal .nil
  have hwords : t.GeneratesBy Production.Short two.rhs [1, 1] := by
    have hlast : t.GeneratesBy Production.Short [.n one.lhs] [1] :=
      .rule hone hwordshort hword .nil
    rw [htworhs, ← honelhs]
    exact .rule hone hwordshort hword hlast
  have hrow : t.GeneratesBy Production.Short [.n two.lhs] [1, 1] :=
    .rule htwo hrowshort hwords .nil
  have htokens : (TokenStream.read .expr (Document.ofText "a a")).significantTokens.map
      (fun x => (x.kind, x.text)) = [(.identifier, "a"), (.identifier, "a")] := by cbv
  refine ⟨t, entry, ht, hpruned, hentry, ?_, ?_, ?_⟩
  · rw [← (TokenStream.regular_read _ _).length_significantTokens, ← List.length_map, htokens]
    exact Nat.succ_ne_zero 1
  · -- There are two tokens, and each of them is a word.
    generalize (TokenStream.read .expr (Document.ofText "a a")).significantTokens = tokens
      at htokens
    obtain ⟨x, rest, rfl, hx, hrest⟩ := List.map_eq_cons_iff.mp htokens
    obtain ⟨y, rest, rfl, hy, hrest⟩ := List.map_eq_cons_iff.mp hrest
    obtain rfl := List.map_eq_nil_iff.mp hrest
    have hmem : ∀ {z : Token}, (z.kind, z.text) = (.identifier, "a") →
        1 ∈ t.terminalsFor z.kind z.text := by
      intro z hz
      obtain ⟨hkind, htext⟩ := Prod.mk.inj hz
      rw [hkind, htext, hterminals]
      exact List.mem_cons_self
    exact .cons (hmem hx) (.cons (hmem hy) .nil)
  · rw [hstart, ← htwolhs]
    exact hrow

/-! ## Rows that are too long -/

/-- A word. -/
def Token.word : Token := ⟨.identifier, "a", default, .expr⟩

/-- **With rows that are too long, every text is repaired.** -/
theorem Parser.repairs_rowOf [Limits] {n : Nat} (hn : UInt16.size ≤ n + 1) (m : Mode) (d : Document)
    {tokens : Array Token} (hne : (TokenStream.ofTokens d tokens).size ≠ 0) :
    ((Parser.ofLanguage ⟨⟨"row"⟩, .ofComposite (.rowOf (n + 1)), m, 0⟩).runOn
      (.ofTokens d tokens) none).counts.repairs ≠ 0 := by
  let p := Parser.ofLanguage ⟨⟨"row"⟩, .ofComposite (.rowOf (n + 1)), m, 0⟩
  have hready := ParseJob.ready_prepare p.language.table p.language.grammar
    (TokenStream.regular_ofTokens d tokens) p.resync none p.parsing.reportRepairs
  exact ParseJob.run_repairs_ne_zero_of_not_reduce hready
    (Table.ofComposite_canonical (Composite.wellFormed_rowOf n)) rfl (Table.entry_rowOf (n + 1))
    hne fun _ _ _ => Table.not_reduce_rowOf hn

/-- A row of words is chosen for words. -/
theorem chosen_rowOf (n : Nat) (d : Document) :
    List.Forall₂ (fun x token =>
      x ∈ (Table.ofComposite (.rowOf n)).terminalsFor token.kind token.text)
      (List.replicate n 1) (TokenStream.ofTokens d (Array.replicate n .word)).significantTokens := by
  have htokens : (TokenStream.ofTokens d (Array.replicate n .word)).significantTokens =
      List.replicate n .word := by
    rw [TokenStream.significantTokens_ofTokens, Array.toList_replicate]
    exact List.filter_replicate_of_pos rfl
  have hterminals : (Matching.ofTerminals [.keyword "a"]).terminalsFor .identifier "a" = [1] := by
    cbv
  have hterminal : 1 ∈ (Matching.ofTerminals [.keyword "a"]).terminalsFor
      Token.word.kind Token.word.text := hterminals.symm ▸ List.mem_cons_self
  rw [htokens]
  have hall : ∀ k : Nat, List.Forall₂ (fun (x : Nat) (token : Token) =>
      x ∈ (Table.ofComposite (.rowOf n)).terminalsFor token.kind token.text)
        (List.replicate k 1) (List.replicate k .word) := by
    intro k
    induction k with
    | zero => exact .nil
    | succ k ih => exact .cons hterminal ih
  exact hall n

/-! ## Main results -/

/-- **The tree of a text without repairs is a derivation.** -/
theorem Parser.parse_derives [Limits] (p : Parser) (source : String)
    (h : compose grammars = .ok p.language.table)
    (hentry : p.language.table.entry? p.language.grammar = some entry)
    (hne : (p.parse source).outcome.stream.size ≠ 0)
    (hrepairs : (p.parse source).outcome.counts.repairs = 0) :
    ∃ children, (p.parse source).outcome.tree = .root p.language.grammar children ∧
      p.language.table.Derives [.n entry.start] (children.filter (!·.isTrivia))
        (p.parse source).outcome.stream.significantTokens := by
  have hready := ParseJob.ready_prepare p.language.table p.language.grammar
    (TokenStream.regular_read p.language.mode (Document.ofText source)) p.resync none
    p.parsing.reportRepairs
  exact ParseJob.run_derives hready (compose_canonical h) rfl hentry hne hrepairs

/-- Two words have a derivation for their tree. -/
theorem Parser.parse_derives_rowsOfWords : ∃ t entry children,
    compose [Grammar.rowsOfWords] = .ok t ∧
      ((Parser.ofLanguage ⟨⟨"rows"⟩, t, .expr, 0⟩).parse "a a").outcome.tree =
        .root ⟨"rows"⟩ children ∧
      t.Derives [.n entry] (children.filter (!·.isTrivia))
        (TokenStream.read .expr (Document.ofText "a a")).significantTokens := by
  obtain ⟨t, entry, ht, hpruned, hentry, hne, hchosen, hsentence⟩ := sentence_rowsOfWords
  let p := Parser.ofLanguage ⟨⟨"rows"⟩, t, .expr, 0⟩
  have hready := ParseJob.ready_prepare t ⟨"rows"⟩
    (TokenStream.regular_read .expr (Document.ofText "a a")) p.resync none p.parsing.reportRepairs
  have hrepairs : (p.parse "a a").outcome.counts.repairs = 0 :=
    ParseJob.run_completes hready (compose_canonical ht) (compose_unpruned ht hpruned) rfl hentry
      hne hchosen hsentence
  obtain ⟨children, htree, hderives⟩ := Parser.parse_derives p "a a" ht hentry hne hrepairs
  exact ⟨t, entry.start, children, ht, htree, hderives⟩

/-- **A sentence of short productions is parsed without repairs**, and there is no error in its
    tree. -/
theorem Parser.runOn_clean [Limits] (p : Parser) (d : Document) (tokens : Array Token)
    {xs : List Nat} (h : compose grammars = .ok p.language.table)
    (hpruned : p.language.table.conflictsPruned = 0)
    (hentry : p.language.table.entry? p.language.grammar = some entry)
    (hne : (TokenStream.ofTokens d tokens).size ≠ 0)
    (hchosen : List.Forall₂ (fun x token =>
      x ∈ p.language.table.terminalsFor token.kind token.text) xs
        (TokenStream.ofTokens d tokens).significantTokens)
    (hsentence : p.language.table.GeneratesBy Production.Short [.n entry.start] xs) :
    (p.runOn (.ofTokens d tokens) none).counts.repairs = 0 ∧
      ∀ place ∈ (Place.ofRoot (p.runOn (.ofTokens d tokens) none).tree).descendants,
        place.node.isError = false ∧ place.node.isMissing = false := by
  have hready := ParseJob.ready_prepare p.language.table p.language.grammar
    (TokenStream.regular_ofTokens d tokens) p.resync none p.parsing.reportRepairs
  have hcanonical := compose_canonical h
  have hrepairs := ParseJob.run_completes hready hcanonical (compose_unpruned h hpruned) rfl hentry
    hne hchosen hsentence
  obtain ⟨children, htree, hderives⟩ :=
    ParseJob.run_derives hready hcanonical rfl hentry hne hrepairs
  have hclean : (p.runOn (.ofTokens d tokens) none).tree.Clean := by
    show Node.Clean (ParseJob.run _).tree
    rw [htree]
    exact .of_filter rfl hderives.clean
  refine ⟨hrepairs, fun place hplace => ?_⟩
  have herror := hclean.isError_of_mem hplace
  refine ⟨herror, ?_⟩
  cases hnode : place.node with
  | missing =>
    rw [hnode] at herror
    cases herror
  | leaf | trivia | skipped | rule | error | root => rfl

/-- There is no error in the tree of two words. -/
theorem Parser.runOn_clean_rowsOfWords : ∃ t, compose [Grammar.rowsOfWords] = .ok t ∧
    ((Parser.ofLanguage ⟨⟨"rows"⟩, t, .expr, 0⟩).runOn
      (.read .expr (Document.ofText "a a")) none).counts.repairs = 0 := by
  obtain ⟨t, entry, ht, hpruned, hentry, hne, hchosen, hsentence⟩ := sentence_rowsOfWords
  exact ⟨t, ht, (Parser.runOn_clean (.ofLanguage ⟨⟨"rows"⟩, t, .expr, 0⟩) _ _ ht hpruned hentry hne
    hchosen hsentence).1⟩

/-- **A row of as many words as there are places is a sentence of its grammar, and is repaired.** -/
theorem Parser.runOn_repaired_rowOf : ∃ t entry, compose [.rowOf 65536] = .ok t ∧
    t.conflictsPruned = 0 ∧ t.entry? ⟨"row"⟩ = some entry ∧
    List.Forall₂ (fun x token => x ∈ t.terminalsFor token.kind token.text)
      (List.replicate 65536 1)
      (TokenStream.ofTokens default (Array.replicate 65536 .word)).significantTokens ∧
    t.Generates [.n entry.start] (List.replicate 65536 1) ∧
    ((Parser.ofLanguage ⟨⟨"row"⟩, t, .expr, 0⟩).runOn
      (.ofTokens default (Array.replicate 65536 .word)) none).counts.repairs ≠ 0 := by
  have hchosen := chosen_rowOf 65536 default
  have hne : (TokenStream.ofTokens default (Array.replicate 65536 .word)).size ≠ 0 := by
    rw [← (TokenStream.regular_ofTokens _ _).length_significantTokens, ← hchosen.length_eq,
      List.length_replicate]
    exact Nat.succ_ne_zero 65535
  exact ⟨_, _, Table.compose_rowOf 65535, Table.conflictsPruned_rowOf _, Table.entry_rowOf _,
    hchosen, Composite.generates_rowOf _, Parser.repairs_rowOf (n := 65535) (by decide) .expr _ hne⟩

end LayeredSyntax
