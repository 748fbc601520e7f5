/-
  CARRYING SUBTREES OVER — what can be taken over stands for text that did not change.

  A subtree that can be taken over was found at a position of the old tree.  The tokens from there
  on, its lookahead included, come again at the new position (`Relexed.Spliced`), and the subtree
  reads the old ones, as the old tree reads all tokens.  **So it reads the new ones as well**, and
  its childless nodes spell what the edited text has there (`ParseOutcome.Carries`).

  The old tree may itself have been made with subtrees that were taken over.  That it reads all its
  tokens holds of what is parsed from the beginning, and is kept when an edited text is parsed
  again, just because what is taken over reads its stretch (`ParseOutcome.Made.whole`).
-/
import LayeredSyntax.Proofs.Edit.Offering
import LayeredSyntax.Proofs.Parse.Adopting
import LayeredSyntax.Proofs.Session.Reusing
import LayeredSyntax.Session.Parser

namespace LayeredSyntax

/-! ## Subtrees of what reads tokens -/

/-- A node that stands for a token stands for the same one elsewhere. -/
theorem Node.StandsFor.congr {t : Table} {n : Node} {x y : Token} (h : n.StandsFor t x)
    (hsame : y.content = x.content) (hsize : y.size = x.size) : n.StandsFor t y := by
  obtain ⟨hkind, htext⟩ := Prod.mk.inj hsame
  have htext : y.text = x.text := (Prod.mk.inj htext).1
  have htrivia := Token.isTrivia_of_content hsame
  cases n with
  | leaf =>
    obtain ⟨hx, hterminal, hlong⟩ := h
    refine ⟨htrivia.trans hx, ?_, hlong.trans hsize.symm⟩
    rw [hkind, htext]
    exact hterminal
  | trivia | skipped =>
    obtain ⟨hx, hkind', hlong⟩ := h
    exact ⟨htrivia.trans hx, hkind'.trans hkind.symm, hlong.trans hsize.symm⟩
  | missing | rule | error | root => exact h.elim

theorem Trimmed.congr {tokens more : List Token} (h : Trimmed tokens)
    (hsame : more.map Token.content = tokens.map Token.content) : Trimmed more := by
  have htrivia : ∀ x y : Option Token, x.map Token.content = y.map Token.content →
      (∀ z ∈ y, z.isTrivia = false) → ∀ z ∈ x, z.isTrivia = false := by
    intro x y hxy hy z hz
    rw [hz] at hxy
    obtain ⟨z', hz', hcontent⟩ := Option.map_eq_some_iff.mp hxy.symm
    rw [← Token.isTrivia_of_content hcontent]
    exact hy z' hz'
  refine ⟨htrivia _ tokens.head? ?_ h.1, htrivia _ tokens.getLast? ?_ h.2⟩
  · rw [← List.head?_map, ← List.head?_map, hsame]
  · rw [← List.getLast?_map, ← List.getLast?_map, hsame]

namespace Table

variable {t : Table} {ns : List Node} {n : Node} {f : Nat} {tokens more : List Token}

theorem Reads.tokenCount (hne : n.children ≠ []) (h : t.Reads n.children tokens) :
    n.tokenCount = countSignificant tokens :=
  (Node.measure_of_children hne).2.trans h.measure.2

/-- What a node with children reads, its children read. -/
theorem Reads.children (h : t.Reads [n] tokens) (hne : n.children ≠ []) :
    t.Reads n.children tokens := by
  cases h with
  | token h _ => exact absurd h.children hne
  | missing _ => exact absurd rfl hne
  | inner _ hn _ hns =>
    cases hns
    rwa [List.append_nil]

/-- **A node in a row that reads tokens reads some of them**, behind as many as stand in front of
    it. -/
theorem Reads.found (h : t.Reads ns tokens) (hfound : Node.FoundIn ns f n) (hne : n.children ≠ []) :
    ∃ front inside back, tokens = front ++ (inside ++ back) ∧ countSignificant front = f ∧
      t.Reads n.children inside ∧ Trimmed inside := by
  induction h generalizing f with
  | nil => exact absurd hfound Node.not_foundIn_nil
  | @token c x ns tokens hc _ ih =>
    cases hfound with
    | here => exact absurd hc.children hne
    | inside hin => exact absurd (hc.children ▸ hin) Node.not_foundIn_nil
    | @next _ _ _ k hin =>
      obtain ⟨front, inside, back, rfl, hfront, hreads⟩ := ih hin
      refine ⟨x :: front, inside, back, rfl, ?_, hreads⟩
      rw [hc.tokenCount, ← hfront, Nat.add_comm]
      unfold countSignificant
      rw [List.countP_cons]
      cases x.isTrivia <;> rfl
  | @missing kind g s ns tokens _ ih =>
    cases hfound with
    | here => exact absurd rfl hne
    | inside hin => exact absurd hin Node.not_foundIn_nil
    | @next _ _ _ k hin =>
      obtain ⟨front, inside, back, htokens, hfront, hreads⟩ := ih hin
      refine ⟨front, inside, back, htokens, ?_, hreads⟩
      rw [hfront, Node.tokenCount, Node.measure_missing]
      exact (Nat.zero_add k).symm
  | @inner c ns within tokens hcs hc htrim _ ihc ih =>
    cases hfound with
    | here => exact ⟨[], within, tokens, rfl, rfl, hc, htrim⟩
    | inside hin =>
      obtain ⟨front, inside, back, rfl, hfront, hreads⟩ := ihc hin
      refine ⟨front, inside, back ++ tokens, ?_, hfront, hreads⟩
      simp only [List.append_assoc]
    | @next _ _ _ k hin =>
      obtain ⟨front, inside, back, rfl, hfront, hreads⟩ := ih hin
      refine ⟨within ++ front, inside, back, (List.append_assoc ..).symm, ?_, hreads⟩
      rw [countSignificant_append, hfront, hc.tokenCount hcs]

/-- **The same tokens elsewhere are read as well.** -/
theorem Reads.congr (h : t.Reads ns tokens) (hsame : more.map Token.content =
      tokens.map Token.content) (hsize : more.map Token.size = tokens.map Token.size) :
    t.Reads ns more := by
  induction h generalizing more with
  | nil =>
    rw [List.map_eq_nil_iff.mp hsame]
    exact .nil
  | token hc _ ih =>
    obtain ⟨y, more, rfl, hy, hmore⟩ := List.map_eq_cons_iff.mp hsame
    obtain ⟨hsize, hsizes⟩ := List.cons.inj hsize
    exact .token (hc.congr hy hsize) (ih hmore hsizes)
  | missing _ ih => exact .missing (ih hsame hsize)
  | @inner c ns inside tokens hne _ htrim _ ihc ih =>
    rw [List.map_append] at hsame hsize
    obtain ⟨inside', more, rfl, hinside, hmore⟩ := List.map_eq_append_iff.mp hsame
    have hlength : (inside'.map Token.size).length = (inside.map Token.size).length := by
      rw [List.length_map, List.length_map, ← List.length_map (f := Token.content), hinside,
        List.length_map]
    rw [List.map_append] at hsize
    obtain ⟨hsizes, hrest⟩ := List.append_inj hsize hlength
    exact .inner hne (ihc hinside hsizes) (htrim.congr hinside) (ih hmore hrest)

/-- A subtree reads the stretch at the position at which it was found. -/
theorem Reads.found_stretch (d : Document) {tokens : Array Token} (h : t.Reads ns tokens.toList)
    (hfound : Node.FoundIn ns f n) (hne : n.children ≠ []) (hcount : n.tokenCount ≠ 0) :
    t.Reads [n] ((TokenStream.ofTokens d tokens).stretch f (f + n.tokenCount)) := by
  obtain ⟨front, inside, back, htokens, rfl, hreads, htrim⟩ := h.found hfound hne
  rw [hreads.tokenCount hne] at hcount ⊢
  rw [TokenStream.stretch_ofTokens d htokens htrim (Nat.pos_of_ne_zero hcount)]
  exact .node hne hreads htrim

end Table

/-! ## Stretches of a text -/

/-- **A stretch of the tokens of a text cuts what stands there.** -/
theorem Cut.stretch {d : Document} {source : String} {tokens : Array Token} {p stop : Nat}
    (h : Cut .origin source.toList tokens.toList) (hlt : p < stop)
    (hle : stop ≤ (TokenStream.ofTokens d tokens).size) : ∃ before inside behind,
      source.toList = before ++ (inside ++ behind) ∧
        Cut (Position.origin.after before) inside
          ((TokenStream.ofTokens d tokens).stretch p stop) ∧
        (TokenStream.ofTokens d tokens).startByte p = width before ∧
        (TokenStream.ofTokens d tokens).stopByte (stop - 1) = width (before ++ inside) := by
  have hregular := TokenStream.regular_ofTokens d tokens
  have hindex := hregular.index_le_after hlt hle
  have hsplit := sliceOf_split tokens.toList (Nat.le_of_succ_le hindex)
  have hstretch : sliceOf tokens.toList ((TokenStream.ofTokens d tokens).tokenIndex p)
      ((TokenStream.ofTokens d tokens).indexAfter stop) =
      (TokenStream.ofTokens d tokens).stretch p stop := (if_pos hlt).symm
  rw [hsplit, hstretch] at h
  obtain ⟨before, rest, hsource, _, hrest⟩ := h.split
  obtain ⟨inside, behind, rfl, hinside, _⟩ := hrest.split
  obtain ⟨t, ht, _⟩ := hregular.token p (Nat.lt_of_lt_of_le hlt hle)
  obtain ⟨z, hz, _⟩ := hregular.token (stop - 1) (Nat.lt_of_lt_of_le (by omega) hle)
  have hfirst := hinside.start_of_head? ((hregular.head?_stretch hlt hle).trans ht)
  have hlast := hinside.stop_of_getLast? ((hregular.getLast?_stretch hlt hle).trans hz)
  refine ⟨before, inside, behind, hsource, hinside, ?_, ?_⟩
  · unfold TokenStream.startByte
    rw [ht]
    show t.start = width before
    rw [hfirst, Position.origin_after_offset]
  · unfold TokenStream.stopByte
    rw [hz]
    show z.stop = width (before ++ inside)
    rw [hlast, ← Position.after_append, Position.origin_after_offset]

/-- Tokens of the same texts are of the same sizes. -/
theorem size_of_content {xs ys : List Token} (h : ys.map Token.content = xs.map Token.content)
    (hxs : ∀ t ∈ xs, t.size = t.text.utf8ByteSize) (hys : ∀ t ∈ ys, t.size = t.text.utf8ByteSize) :
    ys.map Token.size = xs.map Token.size := by
  have hcontent := congrArg (List.map fun c : TokenKind × String × Mode => c.2.1.utf8ByteSize) h
  rw [List.map_map, List.map_map] at hcontent
  rw [List.map_congr_left hxs, List.map_congr_left hys]
  exact hcontent

/-- **The childless nodes of a subtree spell what stands there**, where it reads a stretch of the
    tokens of a text. -/
theorem Table.Reads.text {t : Table} {n : Node} {d : Document} {source : String}
    {tokens : Array Token} {p stop : Nat}
    (h : t.Reads [n] ((TokenStream.ofTokens d tokens).stretch p stop)) (hne : n.children ≠ [])
    (hcut : Cut .origin source.toList tokens.toList) (hlt : p < stop)
    (hle : stop ≤ (TokenStream.ofTokens d tokens).size) {q : Place} (hq : q.node = n)
    (hqstart : q.start = (TokenStream.ofTokens d tokens).startByte p) :
    (sliceBytes? ((TokenStream.ofTokens d tokens).startByte p)
      ((TokenStream.ofTokens d tokens).stopByte (stop - 1)) source.toList).map String.ofList =
        some (String.join (q.leaves.map (·.text source))) := by
  obtain ⟨before, inside, behind, hsource, hinside, hstart, hstop⟩ := hcut.stretch hlt hle
  have htiles : Tiles q.start ((TokenStream.ofTokens d tokens).stretch p stop) := by
    rw [hqstart, hstart, ← Position.origin_after_offset]
    exact hinside.tiles
  have hspells : t.Spells ((q.childrenFrom q.start 0 n.children).flatMap Place.leaves) _ :=
    (h.children hne).spells q htiles
  have hleaves : q.leaves = (q.childrenFrom q.start 0 n.children).flatMap Place.leaves := by
    rw [Place.leaves_of_children (hq.symm ▸ hne), ← hq]
    rfl
  have hjoin := hspells.join source fun x hx =>
    @Cut.slice _ _ _ hcut source [] rfl rfl x (TokenStream.mem_tokens_of_mem_stretch hx)
  rw [hstart, hstop, sliceBytes?_of_append hsource, hleaves, hjoin, hinside.join]
  rfl

/-! ## What can be taken over -/

/-- **What it means that a subtree of an old tree stands for unchanged text**: found at position
    `f`, it stands at position `p` of the edited text. -/
structure ParseOutcome.Carries (o : ParseOutcome) (new : TokenStream) (source : String) (f p : Nat)
    (n : Node) : Prop where
  found : Node.FoundIn o.tree.children f n
  /-- It was built from tokens of the old text. -/
  stop_le : f + n.tokenCount ≤ o.stream.size
  reads : o.language.table.Reads [n] (o.stream.stretch f (f + n.tokenCount))
  /-- They come again, with the trivia between them and the lookahead. -/
  recurs : o.stream.Recurs new f p n.tokenCount
  stop_le' : p + n.tokenCount ≤ new.size
  reads' : o.language.table.Reads [n] (new.stretch p (p + n.tokenCount))
  /-- Its childless nodes spell what stands there, whatever is above it. -/
  text : ∀ q : Place, q.node = n → q.start = new.startByte p →
    (sliceBytes? (new.startByte p) (new.stopByte (p + n.tokenCount - 1)) source.toList).map
      String.ofList = some (String.join (q.leaves.map (·.text source)))

/-- **What is known of an outcome**: its tokens cut its text, and its tree reads them. -/
structure ParseOutcome.Whole (o : ParseOutcome) : Prop where
  stream : ∃ tokens, o.stream = .ofTokens (.ofText o.source) tokens ∧
    Cut .origin o.source.toList tokens.toList
  reads : o.language.table.Reads o.tree.children o.stream.tokens.toList

section Edited

variable {o : ParseOutcome} {e : Edit} {source : String} {m : Mode} {resync : ResyncSet}
  {p : Nat} {n : Node}

/-- **A subtree that can be taken over stands for unchanged text.** -/
theorem ParseOutcome.Whole.carries [Limits] (ho : o.Whole)
    (hcuts : e.Cuts o.source.toList source.toList)
    (hn : n ∈ (ReuseIndex.build o.tree o.marks o.stream (relex o.stream e source m)
      resync).candidatesAt p) : ∃ f, o.Carries (relex o.stream e source m).stream source f p n := by
  obtain ⟨⟨olds, hold, hcut⟩, hreads⟩ := ho
  generalize hr : relex o.stream e source m = r at hn ⊢
  have hspliced : r.Spliced olds.toList source := by
    rw [← hr, hold]
    exact relex_spliced hcuts hcut m
  obtain ⟨f, hfound, hnew⟩ := ReuseIndex.mem_candidatesAt_build hn
  obtain ⟨hbefore, _, hcount, _, hposition⟩ := Node.reusableAt?_spec hnew
  have hne := Node.children_ne_nil hbefore hcount
  have hpos := Nat.pos_of_ne_zero hcount
  rw [hold] at hposition hreads
  obtain ⟨hrecurs, hle⟩ := hspliced.recurs_of_newPosition hposition
  obtain ⟨news, _, hstream, hcut', _⟩ := hspliced
  have hregular := TokenStream.regular_ofTokens (.ofText o.source) olds
  have hregular' := TokenStream.regular_ofTokens (.ofText source) news
  have hold' := hreads.found_stretch (.ofText o.source) hfound hne hcount
  rw [hstream] at hrecurs ⊢
  have hle' := hrecurs.le hregular hregular' hpos hle
  obtain ⟨_, _, _, _, hcutOld, _, _⟩ := hcut.stretch (d := .ofText o.source)
    (Nat.lt_add_of_pos_right hpos) hle
  obtain ⟨_, _, _, _, hcutNew, _, _⟩ := hcut'.stretch (d := .ofText source)
    (Nat.lt_add_of_pos_right hpos) hle'
  -- Tokens with the same texts are of the same sizes.
  have hsame := hrecurs.stretch hregular hregular' hle hle'
  have hnew' := hold'.congr hsame (size_of_content hsame hcutOld.size_eq hcutNew.size_eq)
  refine ⟨f, hfound, by rw [hold]; exact hle, by rw [hold]; exact hold',
    by rw [hold]; exact hrecurs, hle', hnew', fun q hq hqstart => ?_⟩
  exact hnew'.text hne hcut' (Nat.lt_add_of_pos_right hpos) hle' hq hqstart

/-- **What a parser takes over reads its stretch**: it goes by the same table. -/
theorem ParseOutcome.Whole.reuseReads [Limits] (ho : o.Whole)
    (hcuts : e.Cuts o.source.toList source.toList)
    (parser : Parser) :
    (ParseJob.prepare parser.language.table parser.language.grammar
      (relex o.stream e source m).stream parser.resync
      (some (if parser.canReuse o then ReuseIndex.build o.tree o.marks o.stream
        (relex o.stream e source m) parser.resync else .empty))
      parser.parsing.reportRepairs).ReuseReads := by
  rintro x hx k n hn -
  obtain rfl := Option.some.inj hx
  by_cases hcan : parser.canReuse o = true
  · rw [if_pos hcan] at hn
    obtain ⟨f, hcarries⟩ := ho.carries hcuts hn
    have htable : o.language.table = parser.language.table := by
      unfold Parser.canReuse at hcan
      simp only [Bool.and_eq_true, beq_iff_eq] at hcan
      exact hcan.1.1.2
    have hreads := hcarries.reads'
    rw [htable] at hreads
    exact hreads
  · rw [if_neg hcan] at hn
    exact absurd hn List.not_mem_nil

end Edited

/-! ## All outcomes -/

section

variable [Limits]

/-- **The outcomes of parses**: of whole texts, and of edited texts from outcomes that there are.
    The tables come from composed grammars, and edits that fit tell the truth about the texts. -/
inductive ParseOutcome.Made : ParseOutcome → Prop where
  | parse (p : Parser) (source : String) {grammars : List Grammar}
      (h : compose grammars = .ok p.language.table) : Made (p.parse source).outcome
  | reparse (p : Parser) {o : ParseOutcome} (e : Edit) (source : String) {grammars : List Grammar}
      (h : compose grammars = .ok p.language.table) (ho : Made o)
      (htrue : e.check o.source source = .ok () → ∃ text,
        (Edit.replace o.source e.start e.oldStop text).map (·.2) = some source) :
      Made (p.reparse o e source).outcome

section Parsing

variable (p : Parser) {o : ParseOutcome} {e : Edit} {source : String} {grammars : List Grammar}

theorem Parser.whole_parse (source : String) (h : compose grammars = .ok p.language.table) :
    (p.parse source).outcome.Whole := by
  have hready := ParseJob.ready_prepare p.language.table p.language.grammar
    (TokenStream.regular_read p.language.mode (.ofText source)) p.resync none
    p.parsing.reportRepairs
  exact ⟨⟨_, rfl, cut_tokenize p.language.mode source⟩,
    ParseJob.run_reads hready (compose_canonical h) rfl⟩

/-- **Subtrees are taken over only where they read the tokens.** -/
theorem Parser.whole_reparse (h : compose grammars = .ok p.language.table) (ho : o.Whole)
    (hcheck : e.check o.source source = .ok ()) (hcuts : e.Cuts o.source.toList source.toList) :
    (p.reparse o e source).outcome.Whole := by
  obtain ⟨olds, hold, hcut⟩ := ho.stream
  obtain ⟨news, _, hnews, hcut', _⟩ := relex_spliced hcuts hcut p.language.mode
  rw [← hold] at hnews
  have hregular : (relex o.stream e source p.language.mode).stream.Regular := by
    rw [hnews]
    exact TokenStream.regular_ofTokens _ _
  have hsource : (relex o.stream e source p.language.mode).stream.document.text = source := by
    rw [hnews]
    rfl
  have hreads := ParseJob.run_reads_of_reuse
    (ParseJob.ready_prepare p.language.table p.language.grammar hregular p.resync _
      p.parsing.reportRepairs) (compose_canonical h) (ho.reuseReads hcuts p)
  unfold reparse reparse?
  rw [hcheck]
  refine ⟨⟨news, ?_, ?_⟩, hreads⟩
  · show (relex o.stream e source p.language.mode).stream =
      .ofTokens (.ofText (relex o.stream e source p.language.mode).stream.document.text) news
    rw [hsource]
    exact hnews
  · show Cut .origin (relex o.stream e source p.language.mode).stream.document.text.toList _
    rw [hsource]
    exact hcut'

end Parsing

/-- **What is known of all outcomes of parses.** -/
theorem ParseOutcome.Made.whole {o : ParseOutcome} (h : o.Made) : o.Whole := by
  induction h with
  | parse p source h => exact p.whole_parse source h
  | @reparse p o e source grammars h _ htrue ih =>
    cases hcheck : e.check o.source source with
    | ok u =>
      obtain ⟨text, hreplace⟩ := htrue hcheck
      exact p.whole_reparse h ih hcheck (Edit.cuts_of_check hcheck hreplace)
    | error fault =>
      have hparse : (p.reparse o e source).outcome = (p.parse source).outcome := by
        unfold Parser.reparse Parser.reparse?
        rw [hcheck]
        rfl
      rw [hparse]
      exact p.whole_parse source h

/-- **Subtrees of an earlier parse that can be taken over stand for unchanged text**, whatever was
    parsed and edited before. -/
theorem ParseOutcome.Made.carries_candidates {o : ParseOutcome} {e : Edit} {source text : String}
    {resync : ResyncSet} {p : Nat} {n : Node} (ho : o.Made)
    (hcheck : e.check o.source source = .ok ())
    (hreplace : (Edit.replace o.source e.start e.oldStop text).map (·.2) = some source) (m : Mode)
    (hn : n ∈ (ReuseIndex.build o.tree o.marks o.stream (relex o.stream e source m)
      resync).candidatesAt p) : ∃ f, o.Carries (relex o.stream e source m).stream source f p n :=
  ho.whole.carries (Edit.cuts_of_check hcheck hreplace) hn

end

/-- A blank in front of a pair moves its second word, and the word can be taken over. -/
theorem ParseOutcome.carries_candidates_pairs : ∃ t, compose [Grammar.pairs] = .ok t ∧
    let p : Parser :=
      ⟨⟨⟨"pairs"⟩, t, .expr, 0⟩, ⟨[.kind .identifier]⟩, .standard, .standard, []⟩
    let o := (p.parse "a b").outcome
    let e : Edit := ⟨0, 0, 1⟩
    let r := relex o.stream e " a b" .expr
    let n : Node := .rule "part" ⟨"pairs"⟩ 1 1 3 [.leaf "identifier" true (some ⟨"pairs"⟩) 1 1]
    o.Made ∧ e.check o.source " a b" = .ok () ∧
      (Edit.replace o.source e.start e.oldStop " ").map (·.2) = some " a b" ∧
      n ∈ (ReuseIndex.build o.tree o.marks o.stream r p.resync).candidatesAt 1 ∧
      ∃ f, o.Carries r.stream " a b" f 1 n := by
  obtain ⟨t, ht, _, hmarks, htree⟩ := ParseJob.run_pairs_of ⟨[.kind .identifier]⟩
  refine ⟨t, ht, ?_⟩
  intro p o e r n
  have hmade : o.Made := .parse p "a b" ht
  have hcheck : (Edit.mk 0 0 1).check "a b" " a b" = .ok () := by rfl
  have hreplace : (Edit.replace "a b" 0 0 " ").map (·.2) = some " a b" := by decide +kernel
  have hrow : (ReuseIndex.build (.root ⟨"pairs"⟩ [.rule "pair" ⟨"pairs"⟩ 0 0 0
      [.rule "part" ⟨"pairs"⟩ 1 1 0 [.leaf "identifier" true (some ⟨"pairs"⟩) 1 1],
        .trivia .whitespace 1, n]]) #[false, false, false] (.read .expr (.ofText "a b"))
      (relex (.read .expr (.ofText "a b")) ⟨0, 0, 1⟩ " a b" .expr)
      ⟨[.kind .identifier]⟩).candidatesAt 1 = [n] := by
    cbv
  have hmem : n ∈ (ReuseIndex.build o.tree o.marks o.stream r p.resync).candidatesAt 1 := by
    rw [show o.tree = _ from htree, show o.marks = _ from hmarks]
    exact List.mem_of_mem_head? (congrArg List.head? hrow)
  exact ⟨hmade, hcheck, hreplace, hmem, hmade.carries_candidates hcheck hreplace .expr hmem⟩

end LayeredSyntax
