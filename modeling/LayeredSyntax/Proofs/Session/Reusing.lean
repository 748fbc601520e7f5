/-
  REUSING — a subtree that is taken over is what reading its tokens would have made.

  Where a parse from scratch marked nothing from the beginning of a finished production up to the
  token behind it, the production is forced (`ParseJob.run_traced`).  So a parse that stands on one
  node, in the state in which the production was begun, has no choice either as long as it reads the
  same tokens (`Progress.Rebuilds`):

  1. It reads them all, and at no head on the way there is anything to choose.
  2. **It comes to the very subtree**, on the node that it stood on and in the state that taking the
     subtree over leads to.
  3. The heads in front of the one with the subtree can do one thing each, which is to finish a
     production.

  All else that is finished at the token behind is put on other nodes, so the subtree is there in
  the end.
-/
import Mathlib
import LayeredSyntax.Proofs.Parse.Settling
import LayeredSyntax.Proofs.Parse.Tracing
import LayeredSyntax.Proofs.Source.Lines
import LayeredSyntax.Proofs.Token.Tiling

namespace LayeredSyntax

/-! ## The same tokens -/

/-- What is read of a token, wherever it stands. -/
def Token.reading (t : Token) : TokenKind × String := (t.kind, t.text)

namespace TokenStream

/-- Whether every token is as long as its text. -/
def Measured (s : TokenStream) : Prop := ∀ t ∈ s.tokens.toList, t.size = t.text.utf8ByteSize

/-- **Whether two streams read the same** from two positions on: over `n` tokens with the trivia
    between them, and with the token behind. -/
structure Repeats (old new : TokenStream) (f p n : Nat) : Prop where
  tokens : ∀ i ≤ n, (old.get? (f + i)).isSome ∧
    (new.get? (p + i)).map Token.reading = (old.get? (f + i)).map Token.reading
  trivia : ∀ i, 0 < i → i < n →
    (new.triviaBefore (p + i)).map Token.reading = (old.triviaBefore (f + i)).map Token.reading

/-- The tokens that are read the same. -/
theorem Repeats.exists_tokens {old new : TokenStream} {f p n i : Nat} (h : old.Repeats new f p n)
    (hi : i ≤ n) : ∃ t t', old.get? (f + i) = some t ∧ new.get? (p + i) = some t' ∧
      t'.kind = t.kind ∧ t'.text = t.text := by
  obtain ⟨hsome, hsame⟩ := h.tokens i hi
  obtain ⟨t, ht⟩ := Option.isSome_iff_exists.mp hsome
  rw [ht, Option.map_some] at hsame
  obtain ⟨t', ht', heq⟩ := Option.map_eq_some_iff.mp hsame
  obtain ⟨hkind, htext⟩ := Prod.mk.inj heq
  exact ⟨t, t', ht, ht', hkind, htext⟩

end TokenStream

/-- The tokens of a cut are as long as their texts. -/
theorem Cut.size_eq {p : Position} {cs : List Char} {tokens : List Token} (h : Cut p cs tokens) :
    ∀ t ∈ tokens, t.size = t.text.utf8ByteSize := by
  induction h with
  | nil => exact fun t ht => absurd ht List.not_mem_nil
  | @cons p text rest m kind tokens hne _ ih =>
    intro t ht
    rcases List.mem_cons.mp ht with rfl | ht
    · have hsize : Token.size ⟨kind, String.ofList text, ⟨p, p.after text⟩, m⟩ = width text := by
        show (p.after text).offset - p.offset = _
        rw [Position.after_offset, Nat.add_sub_cancel_left]
      rw [hsize, utf8ByteSize_eq_width, String.toList_ofList]
    · exact ih t ht

/-- **What is read from a text is measured.** -/
theorem TokenStream.measured_read [Limits] (m : Mode) (d : Document) :
    (TokenStream.read m d).Measured :=
  (cut_tokenize m d.text).size_eq

theorem TokenStream.mem_of_get? {s : TokenStream} {p : Nat} {t : Token} (h : s.get? p = some t) :
    t ∈ s.tokens.toList := by
  obtain ⟨i, _, hi⟩ := Option.bind_eq_some_iff.mp h
  exact Array.mem_toList_iff.mpr (Array.mem_of_getElem? hi)

theorem TokenStream.mem_of_mem_triviaBefore {s : TokenStream} {p : Nat} {t : Token}
    (h : t ∈ s.triviaBefore p) : t ∈ s.tokens.toList := by
  have hmem : t ∈ (s.tokens.extract (s.leadingTrivia p).1 (s.leadingTrivia p).2).toList := h
  rw [Array.toList_extract] at hmem
  exact List.mem_of_mem_drop (List.mem_of_mem_take hmem)

/-- Measured tokens of the same text are of the same size. -/
theorem TokenStream.Measured.size_congr {s s' : TokenStream} (hs : s.Measured) (hs' : s'.Measured)
    {t t' : Token} (ht : t ∈ s.tokens.toList) (ht' : t' ∈ s'.tokens.toList)
    (htext : t'.text = t.text) : t'.size = t.size := by
  rw [hs t ht, hs' t' ht', htext]

/-- Measured trivia that reads the same makes the same nodes. -/
theorem TokenStream.Measured.foldl_trivia {s s' : TokenStream} (hs : s.Measured)
    (hs' : s'.Measured) {ts ts' : List Token}
    (hsame : ts'.map Token.reading = ts.map Token.reading) (hts : ∀ t ∈ ts, t ∈ s.tokens.toList)
    (hts' : ∀ t ∈ ts', t ∈ s'.tokens.toList) (out : List Node) :
    ts'.foldl (fun out t => .trivia t.kind t.size :: out) out =
      ts.foldl (fun out t => .trivia t.kind t.size :: out) out := by
  induction ts generalizing ts' out with
  | nil => rw [List.map_eq_nil_iff.mp hsame]
  | cons t ts ih =>
    obtain ⟨t', rest, rfl, heq, hrest⟩ := List.map_eq_cons_iff.mp hsame
    obtain ⟨hkind, htext⟩ := Prod.mk.inj heq
    rw [List.foldl_cons, List.foldl_cons, hkind,
      hs.size_congr hs' (hts t List.mem_cons_self) (hts' t' List.mem_cons_self) htext]
    exact ih hrest (fun t ht => hts t (List.mem_cons_of_mem _ ht))
      (fun t ht => hts' t (List.mem_cons_of_mem _ ht)) _

namespace ParseJob

variable {j j' : ParseJob} {f p n : Nat}

/-- **Two jobs over the same tokens agree.** -/
theorem agrees_of_repeats (hj : j.Ready) (hj' : j'.Ready) (htable : j'.table = j.table)
    (hm : j.tokens.Measured) (hm' : j'.tokens.Measured) (h : j.tokens.Repeats j'.tokens f p n) :
    j.Agrees j' f p n := by
  have htoken : ∀ m, f ≤ m → m ≤ f + n → ∃ t t', j.tokens.get? m = some t ∧
      j'.tokens.get? (p + (m - f)) = some t' ∧ t'.kind = t.kind ∧ t'.text = t.text := by
    intro m hm hle
    obtain ⟨t, t', ht, hsame⟩ := h.exists_tokens (by omega : m - f ≤ n)
    exact ⟨t, t', Nat.add_sub_cancel' hm ▸ ht, hsame⟩
  refine ⟨htable, fun m hle hlt => ?_, fun m hle hlt x target => ?_, fun m hlt hlt' out => ?_⟩
  · obtain ⟨t, t', ht, ht', hkind, htext⟩ := htoken m hle hlt
    rw [hj.terminals ht, hj'.terminals ht', htable, hkind, htext]
  · obtain ⟨t, t', ht, ht', hkind, htext⟩ := htoken m hle (Nat.le_of_lt hlt)
    have hwidth := hm.size_congr hm' (TokenStream.mem_of_get? ht) (TokenStream.mem_of_get? ht')
      htext
    unfold leaf
    rw [ht, ht', htable]
    dsimp only
    cases j.table.terminal? x with
    | none => exact congrArg (Node.leaf _ _ _ _) hwidth
    | some terminal =>
      dsimp only
      rw [hkind, htext, hwidth]
  · have hlead := h.trivia (m - f) (by omega) (by omega)
    rw [Nat.add_sub_cancel' (Nat.le_of_lt hlt)] at hlead
    exact hm.foldl_trivia hm' hlead (fun t => TokenStream.mem_of_mem_triviaBefore)
      (fun t => TokenStream.mem_of_mem_triviaBefore) out

end ParseJob

/-! ## What reading one by one comes to -/

/-- **What it means that reading the tokens of a subtree one by one makes the subtree again**, on the
    node `below` that a parse stands on: it comes to the state that taking the subtree over leads
    to. -/
structure Progress.Rebuilds (j : ParseJob) (s : Progress) (below : Nat) (n : Node) (target : Nat) :
    Prop where
  /-- What taking the subtree over leads to. -/
  behind : j.behind? (s.stack.state below) s.position n = some (target, s.position + n.tokenCount)
  reads : ∀ k < n.tokenCount, (((s.readOn j k).reduceAll j).shift j).1 = true
  /-- On the way there is nothing to choose. -/
  single : ∀ k < n.tokenCount, ∀ i ∈ ((s.readOn j k).reduceAll j).stack.heads, ∃ a,
    j.actions (((s.readOn j k).reduceAll j).stack.state i) (s.readOn j k).position = [a]
  position : (s.readOn j n.tokenCount).position = s.position + n.tokenCount
  /-- The subtree is there, and the heads in front of it finish a production each. -/
  found : ∃ front head back,
    ((s.readOn j n.tokenCount).reduceAll j).stack.heads = front ++ head :: back ∧
    ((s.readOn j n.tokenCount).reduceAll j).stack.face head =
      ⟨target, s.position + n.tokenCount, s.position + n.tokenCount⟩ ∧
    ⟨below, ⟨n, s.position, s.position + n.tokenCount⟩⟩ ∈
      ((s.readOn j n.tokenCount).reduceAll j).stack.edges head ∧
    ∀ i ∈ front, ∃ q, j.actions (((s.readOn j n.tokenCount).reduceAll j).stack.state i)
      (s.position + n.tokenCount) = [.reduce q]

/-- A node with one way down that is one edge long. -/
theorem Stack.edges_of_ways {s : Stack} {i b : Nat} {label : Label}
    (h : s.ways [] i 1 = [(b, [label])]) : s.edges i = [⟨b, label⟩] := by
  have hmap : (s.edges i).map (fun e => (e.below, [e.label])) = [(b, [label])] := by
    rw [← List.flatMap_singleton' ((s.edges i).map _), List.flatMap_map]
    exact h
  obtain ⟨e, he, hedge⟩ := List.map_eq_singleton_iff.mp hmap
  cases hedge
  exact he

/-- **A forced subtree is made on top of whatever node a parse stands on alone.** -/
theorem Progress.rebuilds_of_forced {j : ParseJob} {s : Progress} {b target : Nat}
    {kind : String} {g : GrammarId} {a q before : Nat} {children : List Node} {tops : List Nat}
    (ht : j.table.Canonical) (halone : s.Alone b before)
    (hgoto : j.table.goto? before a = some target)
    (hfinish : s.position + (Node.rule kind g a q before children).tokenCount ≤ j.finish)
    (hforced : j.Forced before s.position [⟨.rule kind g a q before children, s.position,
      s.position + (Node.rule kind g a q before children).tokenCount⟩] target
      (s.position + (Node.rule kind g a q before children).tokenCount) tops)
    (hquiet : j.Quiet before
      (s.position + (Node.rule kind g a q before children).tokenCount) tops target) :
    s.Rebuilds j b (.rule kind g a q before children) target := by
  have hpos := hforced.tight.lt (List.cons_ne_nil _ _)
  have hbegin : (j.begin s).stack = s.stack := by rw [ParseJob.begin_eq]
  obtain ⟨n, r, head, tops', h⟩ := halone.arrived.replay (j := j) ht hforced rfl
    (by rw [hbegin]; exact halone.state)
  have hcount := h.count
  obtain rfl : n = (Node.rule kind g a q before children).tokenCount := by omega
  have hedges := Stack.edges_of_ways h.ways
  have hfresh : ∀ i ∈ r.stack.heads, b < i := by
    intro i hi
    have hle := h.fresh (List.cons_ne_nil _ _) i hi
    rw [hbegin] at hle
    exact Nat.lt_of_lt_of_le halone.lt hle
  have hbelow : r.stack.state b = before := by
    have hsame := h.extend.state (by rw [hbegin]; exact halone.lt : b < (j.begin s).stack.nodes.size)
    rw [hsame, hbegin]
    exact halone.state
  have hspares := h.arrived.settle ht hedges hfresh
    (by rw [hbelow, h.state, h.position, h.tops (List.cons_ne_nil _ _)]; exact hquiet)
  obtain ⟨others, hheads, hothers⟩ := h.arrived.heads
  obtain ⟨more, hmore⟩ := hspares.heads
  refine ⟨?_, h.reads, h.single, h.position, others, head, more, ?_, ?_, ?_, fun i hi => ?_⟩
  · unfold ParseJob.behind?
    dsimp only
    rw [if_pos halone.state.symm, halone.state, hgoto, Option.bind_some]
    rw [if_neg]
    simp only [Bool.or_eq_true, decide_eq_true_eq, beq_iff_eq, not_or]
    omega
  · rw [hmore, hheads, List.append_assoc]
    rfl
  · rw [hspares.face head h.arrived.head_lt]
    exact h.face (List.cons_ne_nil _ _)
  · exact hspares.edges head _ (hedges ▸ List.mem_singleton_self _) rfl
  · have hlt := h.arrived.lt i (hheads ▸ List.mem_append_left _ hi)
    obtain ⟨q', hq'⟩ := hothers i hi
    have hstate : ((s.readOn j (Node.rule kind g a q before children).tokenCount).reduceAll
        j).stack.state i = r.stack.state i := congrArg Face.state (hspares.face i hlt)
    rw [h.position] at hq'
    rw [hstate]
    exact ⟨q', hq'⟩

/-! ## The main result -/

/-- **A subtree over an unmarked stretch is made again** wherever a parse stands on one node alone, in
    the state in which the subtree was begun, and the same tokens follow. -/
theorem ParseJob.rebuilds_of_run [Limits] {grammars : List Grammar} {table : Table}
    {d d' : Document}
    {tokens tokens' : Array Token} (grammar grammar' : GrammarId) (resync resync' : ResyncSet)
    (reuse : Option ReuseIndex) (reports reports' : Bool) (h : compose grammars = .ok table)
    (hm : (TokenStream.ofTokens d tokens).Measured)
    (hm' : (TokenStream.ofTokens d' tokens').Measured) :
    let j := ParseJob.prepare table grammar (.ofTokens d tokens) resync none reports
    let j' := ParseJob.prepare table grammar' (.ofTokens d' tokens') resync' reuse reports'
    ∀ f kind g a q before children, let n : Node := .rule kind g a q before children
      Node.FoundIn [j.run.tree] f n → Clear j.run.marks f (f + n.tokenCount) →
      f + n.tokenCount < j.finish → ∀ (s : Progress) (b : Nat), s.Alone b before →
      j.tokens.Repeats j'.tokens f s.position n.tokenCount →
      ∃ target, table.goto? before a = some target ∧ s.Rebuilds j' b n target := by
  intro j j' f kind g a q before children n hfound hclear hlt s b halone hrepeats
  have ht := compose_canonical h
  have hj : j.Ready :=
    ready_prepare table grammar (TokenStream.regular_ofTokens d tokens) resync none reports
  have hj' : j'.Ready :=
    ready_prepare table grammar' (TokenStream.regular_ofTokens d' tokens') resync' reuse reports'
  obtain ⟨target, tops, hgoto, hforced, hquiet⟩ :=
    run_traced hj ht rfl f n hfound hclear hlt kind g a q before children rfl
  have hagrees : j.Agrees j' f s.position n.tokenCount :=
    agrees_of_repeats hj hj' rfl hm hm' hrepeats
  -- What is forced in the one text is forced in the other one.
  have hmoved := hforced.moved hagrees (Nat.le_refl _) (Nat.le_refl _)
  have hquiet' := hquiet.moved hagrees (Nat.le_add_right _ _) (Nat.le_refl _)
  rw [List.map_singleton] at hmoved
  unfold Label.moved at hmoved
  dsimp only at hmoved
  rw [Nat.sub_self, Nat.add_zero, Nat.add_sub_cancel_left] at hmoved
  rw [Nat.add_sub_cancel_left] at hquiet'
  refine ⟨target, hgoto, Progress.rebuilds_of_forced ht halone hgoto ?_ hmoved hquiet'⟩
  obtain ⟨_, t, _, ht', _⟩ := hrepeats.exists_tokens (Nat.le_refl _)
  obtain ⟨i, hi, _⟩ := Option.bind_eq_some_iff.mp ht'
  exact Nat.le_of_lt (Array.getElem?_eq_some_iff.mp hi).1

/-- What a parse has come to when the work at its position is done. -/
def Progress.settledBy (s : Progress) (r : Reducing) : Progress :=
  { s with
    stack := r.stack
    settled := true
    assembled := r.assembled
    marks := if r.met then s.marks.setIfInBounds s.position true else s.marks
    mostHeads := max s.mostHeads r.stack.heads.length }

theorem Progress.reduceAll_eq (j : ParseJob) (s : Progress) : s.reduceAll j =
    s.settledBy (j.performAll s.regions s.position (j.begin s) (j.taskBound s.stack)) := rfl

/-- A grammar of two words. -/
def Grammar.pairs : Grammar :=
  ⟨⟨"pairs"⟩, "pair", [⟨"pair", [.plain [.rule "part", .rule "part"]]⟩,
    ⟨"part", [.plain [.terminal (.kind .identifier)]]⟩], [], [], [], [], []⟩

/-- Two words are parsed as a pair without a choice, wherever a parse could be taken up again. -/
theorem ParseJob.run_pairs_of (resync : ResyncSet) : ∃ t, compose [Grammar.pairs] = .ok t ∧
    let j := ParseJob.prepare t ⟨"pairs"⟩ (.read .expr (.ofText "a b")) resync none true
    j.finish = 2 ∧ j.run.marks = #[false, false, false] ∧
      j.run.tree = .root ⟨"pairs"⟩ [.rule "pair" ⟨"pairs"⟩ 0 0 0
        [.rule "part" ⟨"pairs"⟩ 1 1 0 [.leaf "identifier" true (some ⟨"pairs"⟩) 1 1],
          .trivia .whitespace 1,
          .rule "part" ⟨"pairs"⟩ 1 1 3 [.leaf "identifier" true (some ⟨"pairs"⟩) 1 1]]] := by
  have h : ((compose [Grammar.pairs]).toOption.bind fun t =>
      (t.entry? ⟨"pairs"⟩).bind fun entry =>
        let j := ParseJob.prepare t ⟨"pairs"⟩ (.read .expr (.ofText "a b")) resync none true
        let s := ((j.entered entry.state).readOn j 2).reduceAll j
        (s.accepted? j).map fun label =>
          (((((j.entered entry.state).readOn j 0).reduceAll j).shift j).1 &&
            ((((j.entered entry.state).readOn j 1).reduceAll j).shift j).1,
            j.finish, (s.close j [label]).marks, (s.close j [label]).tree)) =
      some (true, 2, #[false, false, false], .root ⟨"pairs"⟩ [.rule "pair" ⟨"pairs"⟩ 0 0 0
        [.rule "part" ⟨"pairs"⟩ 1 1 0 [.leaf "identifier" true (some ⟨"pairs"⟩) 1 1],
          .trivia .whitespace 1,
          .rule "part" ⟨"pairs"⟩ 1 1 3 [.leaf "identifier" true (some ⟨"pairs"⟩) 1 1]]]) := by
    simp only [Progress.readOn, Progress.reduceAll_eq]
    cbv
  obtain ⟨t, ht, h⟩ := Option.bind_eq_some_iff.mp h
  obtain ⟨entry, hentry, h⟩ := Option.bind_eq_some_iff.mp h
  obtain ⟨label, haccepted, h⟩ := Option.map_eq_some_iff.mp h
  obtain ⟨hreads, h⟩ := Prod.mk.inj h
  obtain ⟨hfinish, h⟩ := Prod.mk.inj h
  obtain ⟨hmarks, htree⟩ := Prod.mk.inj h
  obtain ⟨hread₀, hread₁⟩ := Bool.and_eq_true_iff.mp hreads
  have hrun : (ParseJob.prepare t ⟨"pairs"⟩ (.read .expr (.ofText "a b")) resync none true).run =
      Progress.close _ _ [label] :=
    (run_eq hentry (by rw [hfinish]; decide)).trans
      (Progress.run_of_readOn rfl (entered_plain _ entry.state) (n := 2) (by rw [hfinish]; rfl)
        (fun k hk => by
          have hk : k = 0 ∨ k = 1 := by omega
          rcases hk with rfl | rfl
          · exact hread₀
          · exact hread₁) haccepted (by unfold turnBound; omega))
  exact ⟨t, compose_of_toOption ht, hfinish, by rw [hrun]; exact hmarks,
    by rw [hrun]; exact htree⟩

theorem ParseJob.run_pairs : ∃ t, compose [Grammar.pairs] = .ok t ∧
    let j := ParseJob.prepare t ⟨"pairs"⟩ (.read .expr (.ofText "a b")) ⟨[]⟩ none true
    j.finish = 2 ∧ j.run.marks = #[false, false, false] ∧
      j.run.tree = .root ⟨"pairs"⟩ [.rule "pair" ⟨"pairs"⟩ 0 0 0
        [.rule "part" ⟨"pairs"⟩ 1 1 0 [.leaf "identifier" true (some ⟨"pairs"⟩) 1 1],
          .trivia .whitespace 1,
          .rule "part" ⟨"pairs"⟩ 1 1 3 [.leaf "identifier" true (some ⟨"pairs"⟩) 1 1]]] :=
  run_pairs_of ⟨[]⟩

/-- The first word of a pair is made again one token further on. -/
theorem ParseJob.rebuilds_of_run_pairs : ∃ t children, compose [Grammar.pairs] = .ok t ∧
    let n : Node := .rule "part" ⟨"pairs"⟩ 1 1 0 children
    let old := TokenStream.read .expr (.ofText "a b")
    let new := TokenStream.read .expr (.ofText "c a b")
    let j := ParseJob.prepare t ⟨"pairs"⟩ old ⟨[]⟩ none true
    let j' := ParseJob.prepare t ⟨"pairs"⟩ new ⟨[]⟩ none true
    let s : Progress := { j'.entered 0 with position := 1 }
    old.Measured ∧ new.Measured ∧ Node.FoundIn [j.run.tree] 0 n ∧
      Clear j.run.marks 0 (0 + n.tokenCount) ∧ 0 + n.tokenCount < j.finish ∧ s.Alone 0 0 ∧
      old.Repeats new 0 1 n.tokenCount ∧
      ∃ target, t.goto? 0 1 = some target ∧ s.Rebuilds j' 0 n target := by
  have hcount : (Node.rule "part" ⟨"pairs"⟩ 1 1 0
      [.leaf "identifier" true (some ⟨"pairs"⟩) 1 1]).tokenCount = 1 := by cbv
  have hrepeats : (TokenStream.read .expr (.ofText "a b")).Repeats
      (.read .expr (.ofText "c a b")) 0 1 1 := by
    refine ⟨fun i hi => ?_, fun i hpos hlt => absurd hlt (by omega)⟩
    have hi : i = 0 ∨ i = 1 := by omega
    rcases hi with rfl | rfl
    · exact ⟨by cbv, by cbv⟩
    · exact ⟨by cbv, by cbv⟩
  obtain ⟨t, hcompose, hfinish, hmarks, htree⟩ := run_pairs
  have hfound : Node.FoundIn [(ParseJob.prepare t ⟨"pairs"⟩ (.read .expr (.ofText "a b")) ⟨[]⟩ none
      true).run.tree] 0 (.rule "part" ⟨"pairs"⟩ 1 1 0
        [.leaf "identifier" true (some ⟨"pairs"⟩) 1 1]) := by
    rw [htree]
    exact .inside (.inside .here)
  have hclear : Clear (ParseJob.prepare t ⟨"pairs"⟩ (.read .expr (.ofText "a b")) ⟨[]⟩ none
      true).run.marks 0 (0 + 1) := by
    rw [hmarks]
    intro m _ hle
    have hm : m = 0 ∨ m = 1 := by omega
    rcases hm with rfl | rfl <;> rfl
  have hmeasured := TokenStream.measured_read .expr (.ofText "a b")
  have hmeasured' := TokenStream.measured_read .expr (.ofText "c a b")
  have hlt : 0 + 1 < (ParseJob.prepare t ⟨"pairs"⟩ (.read .expr (.ofText "a b")) ⟨[]⟩ none
      true).finish := by
    rw [hfinish]
    decide
  have halone : Progress.Alone { (ParseJob.prepare t ⟨"pairs"⟩ (.read .expr (.ofText "c a b")) ⟨[]⟩
      none true).entered 0 with position := 1 } 0 0 := by
    refine ⟨rfl, rfl, Nat.zero_lt_one, rfl, fun i e he => ?_⟩
    have hnil := edges_entered (ParseJob.prepare t ⟨"pairs"⟩ (.read .expr (.ofText "c a b")) ⟨[]⟩
      none true) 0 i
    exact absurd (hnil ▸ he : e ∈ []) List.not_mem_nil
  refine ⟨t, [.leaf "identifier" true (some ⟨"pairs"⟩) 1 1], hcompose, hmeasured, hmeasured', hfound,
    ?_, ?_, halone, ?_, ?_⟩
  · rw [hcount]
    exact hclear
  · rw [hcount]
    exact hlt
  · rw [hcount]
    exact hrepeats
  · exact ParseJob.rebuilds_of_run ⟨"pairs"⟩ ⟨"pairs"⟩ ⟨[]⟩ ⟨[]⟩ none true true hcompose hmeasured
      hmeasured' 0 _ _ _ _ _ _ hfound (by rw [hcount]; exact hclear)
      (by rw [hcount]; exact hlt) _ _ halone (by rw [hcount]; exact hrepeats)

end LayeredSyntax
