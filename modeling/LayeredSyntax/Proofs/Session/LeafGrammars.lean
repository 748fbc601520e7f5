/-
  ATTRIBUTIONS OF A TEXT — for which grammars its tokens are said to have been read.

  In the tree of a text that was parsed without repairs (`Parser.parse_attributes`):

  1. Every node of a production carries the grammar of the production.
  2. **A leaf carries the grammar that it was read for**, that of the production in which its
     terminal stands, if its position is not marked and its terminal leads to states of one grammar
     only.  Of a terminal that just one grammar uses this is so wherever it stands
     (`LeafRead.own_of_sole`).
  3. Every other leaf carries some grammar that uses its terminal.

  The states have to be of one grammar.  Where a state is mixed, a leaf can carry the wrong grammar
  though there was nothing to choose when its token was read (`run_mixed`).
-/
import LayeredSyntax.Proofs.Composition.Faithful
import LayeredSyntax.Proofs.Parse.AttributingLeaves
import LayeredSyntax.Session.Parser

namespace LayeredSyntax

variable {grammars : List Grammar} {entry : Entry}

/-- **What the nodes of a text carry** that was parsed without repairs. -/
theorem Parser.parse_attributes [Limits] (p : Parser) (source : String)
    (h : compose grammars = .ok p.language.table)
    (hentry : p.language.table.entry? p.language.grammar = some entry)
    (hne : (p.parse source).outcome.stream.size ≠ 0)
    (hrepairs : (p.parse source).outcome.counts.repairs = 0) :
    (∀ production ∈ p.language.table.productions,
      (p.language.table.nonterminal production.lhs).grammar = production.grammar) ∧
    ∃ children, (p.parse source).outcome.tree = .root p.language.grammar children ∧
      p.language.table.Attributes (LeafRead p.language.table (p.parse source).outcome.stream
        (p.parse source).outcome.marks) p.language.grammar 0 (p.parse source).outcome.stream.size
        [.n entry.start] (children.filter (!·.isTrivia)) := by
  have hready := ParseJob.ready_prepare p.language.table p.language.grammar
    (TokenStream.regular_read p.language.mode (Document.ofText source)) p.resync none
    p.parsing.reportRepairs
  refine ⟨fun production hproduction => ?_,
    ParseJob.run_attributes hready (compose_canonical h) rfl hentry hne hrepairs⟩
  obtain ⟨c, hc, htable⟩ := exists_compositeOf h
  rw [htable] at hproduction ⊢
  exact (compositeOf_faithful hc).grammar_lhs hproduction

/-! ## A leaf that carries another grammar -/

/-- The kinds and grammars of the nodes of a tree, trivia left aside. -/
def Node.attributions (n : Node) : List (String × Option GrammarId) :=
  ((Place.ofRoot n).descendants.filter (!·.node.isTrivia)).map fun p =>
    (p.node.kind, p.node.grammar?)

/-- A grammar whose texts are those of another grammar, and names. -/
def Grammar.outer : Grammar :=
  ⟨⟨"outer"⟩, "text", [⟨"text", [.plain [.slot "inner"], .plain [.rule "name"]]⟩,
    ⟨"name", [.plain [.terminal (.kind .identifier)]]⟩],
    [], [⟨"inner", ⟨"inner"⟩, none⟩], [], [], []⟩

/-- A grammar of words. -/
def Grammar.inner : Grammar :=
  ⟨⟨"inner"⟩, "word", [⟨"word", [.plain [.terminal (.kind .identifier)]]⟩], [], [], [], [], []⟩

/-- **A state of two grammars.**  What stands behind a word is a name of the outer grammar or a word
    of the inner one, and the name comes first.  The production of the word is the one that is kept,
    and the leaf below it carries the outer grammar.  Its position, 0, is not marked. -/
theorem ParseJob.run_mixed : ∃ t, compose [.outer, .inner] = .ok t ∧
    let j := ParseJob.prepare t ⟨"outer"⟩ (.read .expr (.ofText "a")) ⟨[]⟩ none true
    j.run.counts.repairs = 0 ∧ j.run.marks = #[false, true] ∧
      j.run.tree.attributions = [("source_file", some ⟨"outer"⟩), ("text", some ⟨"outer"⟩),
        ("word", some ⟨"inner"⟩), ("identifier", some ⟨"outer"⟩)] := by
  have h : (compose [.outer, .inner]).toOption.map (fun t =>
      let j := ParseJob.prepare t ⟨"outer"⟩ (.read .expr (.ofText "a")) ⟨[]⟩ none true
      (j.run.counts.repairs, j.run.marks, j.run.tree.attributions)) =
        some (0, #[false, true], [("source_file", some ⟨"outer"⟩), ("text", some ⟨"outer"⟩),
          ("word", some ⟨"inner"⟩), ("identifier", some ⟨"outer"⟩)]) := by cbv
  obtain ⟨t, ht, h⟩ := Option.map_eq_some_iff.mp h
  obtain ⟨hrepairs, h⟩ := Prod.mk.inj h
  obtain ⟨hmarks, htree⟩ := Prod.mk.inj h
  exact ⟨t, compose_of_toOption ht, hrepairs, hmarks, htree⟩

end LayeredSyntax
