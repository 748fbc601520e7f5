/-
  EVERY TEXT GETS A TREE — and the tree holds all of it.

  Whatever the text, the table and the grammar are, the childless nodes of the tree are the tokens
  of the text, each once, in order and where it stands, with nothing in between but nodes that were
  made up and have no width.  So their texts one behind the other are the text.

  Trivia belong to a node above what they stand beside: **a node that holds a token begins where a
  token begins and ends where one ends**, unless it is the root.
-/
import LayeredSyntax.Proofs.Parse.Recovering
import LayeredSyntax.Proofs.Session.CleanParses
import LayeredSyntax.Proofs.Token.Tiling
import LayeredSyntax.Session.Parser

namespace LayeredSyntax

/-- **What it means that the tree of an outcome holds a text.** -/
structure ParseOutcome.HoldsText [Limits] (o : ParseOutcome) (source : String) : Prop where
  tokens : o.stream.tokens = tokenize o.language.mode source
  /-- The childless nodes are the tokens; of an empty text the root is one. -/
  leaves : (source = "" ∧ o.root.leaves = [o.root]) ∨
    (source ≠ "" ∧ o.language.table.Spells o.root.leaves o.stream.tokens.toList)
  text : String.join (o.root.leaves.map (·.text source)) = source
  /-- Below the root, nodes with a token begin and end with tokens. -/
  edges : ∀ d ∈ o.root.descendants, d.path ≠ [] → d.node.isTrivia = false →
    d.node.tokenCount ≠ 0 → d.BoundedBy o.stream.tokens.toList

/-- A tree that reads the tokens of a text holds the text. -/
theorem ParseOutcome.holdsText_of_reads [Limits] {o : ParseOutcome} {source : String}
    (htokens : o.stream.tokens = tokenize o.language.mode source)
    (hempty : o.stream.tokens.toList = [] → o.tree.children = [])
    (h : o.language.table.Reads o.tree.children o.stream.tokens.toList) : o.HoldsText source := by
  have hcut : Cut .origin source.toList o.stream.tokens.toList := htokens ▸ cut_tokenize _ _
  have htiles : Tiles 0 o.stream.tokens.toList := hcut.tiles
  have hspells : o.language.table.Spells (o.root.children.flatMap Place.leaves)
      o.stream.tokens.toList := h.spells o.root htiles
  have hslice := @Cut.slice _ _ _ hcut source [] rfl rfl
  have hedges : ∀ d ∈ o.root.descendants, d.path ≠ [] → d.node.isTrivia = false →
      d.node.tokenCount ≠ 0 → d.BoundedBy o.stream.tokens.toList := by
    intro d hd hpath
    rw [Place.descendants_eq] at hd
    rcases List.mem_cons.mp hd with rfl | hd
    · exact absurd rfl hpath
    · exact h.bounded o.root htiles d hd
  -- An empty text has no tokens, and its root no children.
  by_cases hsource : source = ""
  · subst hsource
    have hleaves : o.root.leaves = [o.root] :=
      Place.leaves_of_childless (hempty (hcut.eq_nil_iff.mpr rfl))
    have htext : o.root.text "" = "" := sliceText_empty _ _
    refine ⟨htokens, .inl ⟨rfl, hleaves⟩, ?_, hedges⟩
    rw [hleaves]
    exact (String.join_cons.trans (String.append_empty)).trans htext
  · have hne : o.stream.tokens.toList ≠ [] := fun hnil =>
      hsource (String.toList_eq_nil_iff.mp (hcut.eq_nil_iff.mp hnil))
    have hleaves : o.root.leaves = o.root.children.flatMap Place.leaves :=
      Place.leaves_of_children (h.ne_nil hne)
    rw [← hleaves] at hspells
    refine ⟨htokens, .inr ⟨hsource, hspells⟩, ?_, hedges⟩
    rw [hspells.join source hslice, hcut.join, String.ofList_toList]

/-- **The tree of a parsed text holds all of it**, whatever the text. -/
theorem Parser.parse_holdsText [Limits] (p : Parser) (source : String) {grammars : List Grammar}
    (h : compose grammars = .ok p.language.table) :
    (p.parse source).outcome.HoldsText source := by
  have hregular := TokenStream.regular_read p.language.mode (Document.ofText source)
  have hready := ParseJob.ready_prepare p.language.table p.language.grammar hregular p.resync none
    p.parsing.reportRepairs
  exact ParseOutcome.holdsText_of_reads rfl (ParseJob.run_children_of_empty hready)
    (ParseJob.run_reads hready (compose_canonical h) rfl)

/-- A text that is no row of words has its tree as well. -/
theorem Parser.parse_holdsText_rowsOfWords : ∃ t, compose [Grammar.rowsOfWords] = .ok t ∧
    ((Parser.ofLanguage ⟨⟨"rows"⟩, t, .expr, 0⟩).parse "a ( b ").outcome.HoldsText "a ( b " := by
  obtain ⟨t, ht, _⟩ := compose_rowsOfWords
  exact ⟨t, ht, Parser.parse_holdsText _ _ ht⟩

end LayeredSyntax
