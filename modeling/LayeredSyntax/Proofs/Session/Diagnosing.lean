/-
  EVERY REPAIR IS REPORTED — and nothing else is.

  The diagnostics of a parse are read off its tree, when all repairs have long been made.  That
  nothing gets lost on the way needs three things.

  1. **The diagnostics are those of the outermost faults of the tree** (`diagnosticsOnto_eq`), each
     once, and there are faults just if something was repaired (`run_faulty_iff`).
  2. A repair is remembered by the byte at which its region begins, and the region is filed by a
     position.  Positions are told apart by their bytes (`startByte_lt`), since no token is empty.
  3. **Where an outermost region stands in the tree is where it was filed** (`region_at`): the tokens
     in front of it say its position, and the bytes in front of it its byte.

  So whatever is said about a region comes from the very repair that left it behind.
-/
import LayeredSyntax.Proofs.Parse.Barring
import LayeredSyntax.Proofs.Session.Termination
import LayeredSyntax.Proofs.Token.Resuming

namespace LayeredSyntax

/-! ## The diagnostics of a tree -/

/-- What is said about a place that is faulty by itself. -/
def TokenStream.diagnose (stream : TokenStream) (repairs : Repairs) (d : Place) : Diagnostic :=
  let span := stream.document.span d.start d.stop
  if d.node.isRegion then ⟨regionCause stream repairs span, span⟩
  else ⟨missingCause stream d.node.kind d.start, span⟩

namespace Node

variable {stream : TokenStream} {repairs : Repairs}

/-- The diagnostics of a row of nodes are those of its faults, if this is so of each node. -/
theorem diagnosticsAllOnto_eq {p : Place} {ns : List Node} {start index : Nat}
    (h : ∀ c ∈ p.childrenFrom start index ns, ∀ out,
      c.node.diagnosticsOnto stream repairs c.start out =
        (c.faults.map (stream.diagnose repairs)).reverse ++ out) (out : List Diagnostic) :
    diagnosticsAllOnto stream repairs start out ns =
      (((p.childrenFrom start index ns).flatMap Place.faults).map
        (stream.diagnose repairs)).reverse ++ out := by
  induction ns generalizing start index out with
  | nil => rw [diagnosticsAllOnto]; rfl
  | cons n ns ih =>
    have hfirst : n.diagnosticsOnto stream repairs start out = _ := h _ List.mem_cons_self out
    rw [diagnosticsAllOnto, ih fun c hc => h c (List.mem_cons_of_mem _ hc), hfirst,
      Place.childrenFrom, List.flatMap_cons, List.map_append, List.reverse_append,
      List.append_assoc]

/-- **The diagnostics of a node are those of its outermost faults.** -/
theorem diagnosticsOnto_eq (p : Place) (out : List Diagnostic) :
    p.node.diagnosticsOnto stream repairs p.start out =
      (p.faults.map (stream.diagnose repairs)).reverse ++ out := by
  induction p using Place.inductionOn generalizing out with
  | step p ih =>
    -- Below what holds no error there are no faults, so it need not be looked into.
    have hinner : p.node.isRegion = false → p.node.isMissing = false →
        (if p.node.hasError then diagnosticsAllOnto stream repairs p.start out p.node.children
          else out) = (p.faults.map (stream.diagnose repairs)).reverse ++ out := by
      intro hregion hmissing
      split
      · rw [Place.faults_of_sound hregion hmissing]
        exact diagnosticsAllOnto_eq ih out
      · next hnone =>
        have hnil : p.faults = [] := by
          by_contra hne
          exact hnone (p.faults_ne_nil_iff.mp hne).hasError
        rw [hnil]
        rfl
    obtain ⟨n, start, path⟩ := p
    cases n with
    | missing kind g s =>
      rw [Place.faults_of_faulty (.inr rfl), diagnosticsOnto]
      show _ = [(⟨missingCause stream kind start,
        stream.document.span start (start + (missing kind g s).size)⟩ : Diagnostic)] ++ out
      unfold Node.size
      rw [measure_missing]
      rfl
    | error cs =>
      rw [Place.faults_of_faulty (.inl rfl), diagnosticsOnto]
      rfl
    | rule | root => exact (diagnosticsOnto.eq_def ..).trans (hinner rfl rfl)
    | leaf | trivia | skipped =>
      rw [Place.faults_of_sound rfl rfl, diagnosticsOnto]
      rfl

end Node

/-- What is said about a fault is not about a token that could not be read. -/
theorem TokenStream.isLexical_diagnose (stream : TokenStream) (repairs : Repairs) (d : Place) :
    (stream.diagnose repairs d).isLexical = false := by
  have hregion : ∀ span, (Diagnostic.mk (regionCause stream repairs span) span).isLexical =
      false := by
    intro span
    unfold regionCause
    split
    · next r _ => cases r.cause <;> rfl
    · rfl
  have hmissing : ∀ kind start span,
      (Diagnostic.mk (missingCause stream kind start) span).isLexical = false := by
    intro kind start span
    unfold missingCause
    split <;> rfl
  unfold diagnose
  dsimp only
  split
  · exact hregion _
  · exact hmissing _ _ _

section

variable [Limits]

/-- **What is said apart from tokens that could not be read is said about the outermost faults of
    the tree**, once about each. -/
theorem ParseRun.diagnostics_perm {r : ParseRun} (stream : TokenStream) (h : r.failure = none) :
    ((r.diagnostics stream).filter (!·.isLexical)).Perm
      ((Place.ofRoot r.tree).faults.map (stream.diagnose r.repairs)) := by
  have hlexical : ((lexicalFaults stream.tokens).map Diagnostic.ofLexical).filter
      (!·.isLexical) = [] := by
    refine List.filter_eq_nil_iff.mpr fun d hd => ?_
    obtain ⟨f, _, rfl⟩ := List.mem_map.mp hd
    exact Bool.false_ne_true
  have htree : (r.tree.diagnosticsOnto stream r.repairs 0 []).reverse =
      (Place.ofRoot r.tree).faults.map (stream.diagnose r.repairs) := by
    have heq := @Node.diagnosticsOnto_eq stream r.repairs (Place.ofRoot r.tree) []
    rw [List.append_nil] at heq
    exact List.reverse_eq_iff.mpr heq
  have hfaults : ((Place.ofRoot r.tree).faults.map (stream.diagnose r.repairs)).filter
      (!·.isLexical) = (Place.ofRoot r.tree).faults.map (stream.diagnose r.repairs) := by
    refine List.filter_eq_self.mpr fun d hd => ?_
    obtain ⟨place, _, rfl⟩ := List.mem_map.mp hd
    rw [stream.isLexical_diagnose]
    rfl
  refine ((List.mergeSort_perm _ _).filter _).trans (.of_eq ?_)
  rw [List.filter_append, List.filter_append, hlexical, htree, hfaults, h]
  exact List.append_nil _

/-- **Something is said apart from tokens that could not be read just if the tree is faulty.** -/
theorem ParseRun.exists_diagnostic_iff {r : ParseRun} (stream : TokenStream)
    (h : r.failure = none) :
    (∃ x ∈ r.diagnostics stream, x.isLexical = false) ↔ r.tree.Faulty := by
  have htold := r.diagnostics_perm stream h
  refine Iff.trans ?_ (Place.ofRoot r.tree).faults_ne_nil_iff
  constructor
  · rintro ⟨x, hx, hlexical⟩ hnil
    have hmem := htold.mem_iff.mp (List.mem_filter.mpr ⟨hx, by rw [hlexical]; rfl⟩)
    rw [hnil] at hmem
    exact absurd hmem List.not_mem_nil
  · intro hne
    obtain ⟨d, hd⟩ := List.exists_mem_of_ne_nil _ hne
    have hmem := htold.mem_iff.mpr (List.mem_map.mpr ⟨d, hd, rfl⟩)
    exact ⟨_, (List.mem_filter.mp hmem).1, stream.isLexical_diagnose r.repairs d⟩

/-! ## Faults and repairs -/

/-- However a run ends, it is closed. -/
theorem Progress.exists_run_eq_close (j : ParseJob) (fuel : Nat) :
    ∀ s : Progress, ∃ (t : Progress) (pieces : List Label), s.run j fuel = t.close j pieces := by
  induction fuel with
  | zero => exact fun s => ⟨s, [], rfl⟩
  | succ fuel ih =>
    intro s
    obtain ⟨d, hd⟩ := exists_step j s
    rcases hturn : s.turn j with s' | r
    · rw [run_of_goOn hturn]
      exact ih s'
    · rw [run_of_over hturn]
      rw [hturn] at hd
      cases hd with
      | accept => exact ⟨_, _, rfl⟩
      | wrap => exact ⟨_, _, rfl⟩

namespace ParseJob

variable {j : ParseJob} {entry : Entry} {log : TurnLog}

theorem exists_run_eq_close (hentry : j.table.entry? j.grammar = some entry) :
    ∃ s pieces, j.run = Progress.close j s pieces := by
  by_cases hzero : j.finish = 0
  · refine ⟨Progress.start j, [], ?_⟩
    unfold run
    rw [hentry]
    exact if_pos hzero
  · rw [run_eq hentry hzero]
    exact Progress.exists_run_eq_close j _ _

/-- Where there are no tokens there is nothing to repair, and there are no faults. -/
theorem run_of_empty (hentry : j.table.entry? j.grammar = some entry) (hzero : j.finish = 0) :
    j.run.counts.repairs = 0 ∧ j.run.tree.Clean := by
  have hrun : j.run = (Progress.start j).close j [] := by
    unfold run
    rw [hentry]
    exact if_pos hzero
  have htree : j.run.tree = .root j.grammar (j.triviaOnto 0 []).reverse := by
    rw [hrun]
    show (j.assembleRoot [] []).1 = _
    unfold assembleRoot
    dsimp only
    rw [if_pos hzero]
  rw [htree, hrun]
  refine ⟨rfl, .of_filter rfl fun c hc => ?_⟩
  obtain ⟨hc, htrivia⟩ := List.mem_filter.mp hc
  have hmem : c ∈ (j.triviaOnto 0 []).reverse := hc
  rw [reverse_triviaOnto] at hmem
  obtain ⟨x, _, rfl⟩ := List.mem_map.mp hmem
  cases htrivia

/-- **There are faults in a tree just if something was repaired.** -/
theorem run_faulty_iff (hj : j.Ready) (ht : j.table.Canonical) (hreuse : j.reuse = none)
    (hentry : j.table.entry? j.grammar = some entry) :
    j.run.tree.Faulty ↔ j.run.counts.repairs ≠ 0 := by
  by_cases hpos : j.finish = 0
  · obtain ⟨hzero, hclean⟩ := run_of_empty hentry hpos
    exact ⟨fun h => absurd h hclean.not_faulty, fun h => absurd hzero h⟩
  · obtain ⟨log, htour⟩ := exists_tour_of_run ht hentry hpos
    constructor
    · intro hfault hzero
      obtain ⟨children, htree, hderives⟩ := run_derives hj ht hreuse hentry hpos hzero
      have hclean : Node.Clean (.root j.grammar children) := .of_filter rfl hderives.clean
      rw [htree] at hfault
      exact hclean.not_faulty hfault
    · exact run_faulty hj ht hreuse hpos htour.turns

end ParseJob

/-! ## Positions and bytes -/

omit [Limits] in
/-- A token of a cut begins where its characters do, and later ones begin further back. -/
theorem Cut.start_bounds {p : Position} {cs : List Char} {tokens : List Token}
    (h : Cut p cs tokens) : (∀ t ∈ tokens, p.offset ≤ t.start ∧ t.start ≤ p.offset + width cs) ∧
      tokens.Pairwise fun t u => t.start < u.start := by
  induction h with
  | nil => exact ⟨fun t ht => absurd ht List.not_mem_nil, .nil⟩
  | @cons p text rest m kind tokens hne _ ih =>
    obtain ⟨hbounds, hsorted⟩ := ih
    have hpos : width text ≠ 0 := fun hzero => hne (width_eq_zero_iff.mp hzero)
    have hafter : (p.after text).offset = p.offset + width text := Position.after_offset p text
    rw [width_append]
    refine ⟨fun t ht => ?_, .cons (fun u hu => ?_) hsorted⟩
    · rcases List.mem_cons.mp ht with rfl | ht
      · show p.offset ≤ p.offset ∧ p.offset ≤ p.offset + (width text + width rest)
        omega
      · have := hbounds t ht
        omega
    · show p.offset < u.start
      have := hbounds u hu
      omega

namespace TokenStream

variable {m : Mode} {source : String} {p q : Nat}

/-- **A later position begins at a later byte.** -/
theorem startByte_lt (h : p < q) (hq : q < (read m (.ofText source)).size) :
    (read m (.ofText source)).startByte p < (read m (.ofText source)).startByte q := by
  have hregular := regular_read m (.ofText source)
  obtain ⟨t, ht, htoken, _⟩ := hregular.token p (Nat.lt_trans h hq)
  obtain ⟨u, hu, hutoken, _⟩ := hregular.token q hq
  have hlt : (read m (.ofText source)).tokenIndex p < (read m (.ofText source)).tokenIndex q :=
    tokenIndex_lt h hq
  rw [← Array.getElem?_toList] at htoken hutoken
  obtain ⟨hp, rfl⟩ := List.getElem?_eq_some_iff.mp htoken
  obtain ⟨hq, rfl⟩ := List.getElem?_eq_some_iff.mp hutoken
  unfold startByte
  rw [ht, hu]
  exact List.pairwise_iff_getElem.mp (cut_tokenize m source).start_bounds.2 _ _ hp hq hlt

theorem startByte_injective (hp : p < (read m (.ofText source)).size)
    (hq : q < (read m (.ofText source)).size)
    (h : (read m (.ofText source)).startByte p = (read m (.ofText source)).startByte q) :
    p = q := by
  rcases Nat.lt_trichotomy p q with hlt | heq | hlt
  · exact absurd h (Nat.ne_of_lt (startByte_lt hlt hq))
  · exact heq
  · exact absurd h (Nat.ne_of_gt (startByte_lt hlt hp))

/-- Nothing begins behind the end of a text. -/
theorem startByte_le (m : Mode) (source : String) (p : Nat) :
    (read m (.ofText source)).startByte p ≤ (Document.ofText source).size := by
  unfold startByte
  cases ht : (read m (.ofText source)).get? p with
  | none => exact Nat.le_refl _
  | some t =>
    obtain ⟨i, _, hi⟩ := Option.bind_eq_some_iff.mp ht
    have hmem : t ∈ (tokenize m source).toList := by
      rw [← Array.getElem?_toList] at hi
      exact List.mem_of_getElem? hi
    have hbound := ((cut_tokenize m source).start_bounds.1 t hmem).2
    show t.start ≤ source.utf8ByteSize
    rw [utf8ByteSize_eq_width]
    rw [show Position.origin.offset = 0 from rfl, Nat.zero_add] at hbound
    exact hbound

end TokenStream

/-! ## Where regions stand -/

namespace ParseJob

variable {j : ParseJob} {entry : Entry} {log : TurnLog} {regions : Regions} {m : Mode}
  {source : String} {d : Place}

/-- **An outermost region of the tree stands where it was filed.** -/
theorem region_at (hj : j.Ready) (ht : j.table.Canonical) (hreuse : j.reuse = none)
    (hentry : j.table.entry? j.grammar = some entry)
    (htokens : j.tokens = .read m (.ofText source)) (h : j.run.Filed j log regions)
    (hd : d ∈ (Place.ofRoot j.run.tree).regions) : ∃ region, region.first < j.finish ∧
      regions.at? region.first = some region ∧ region.node = d.node ∧
        j.tokens.startByte region.first = d.start := by
  obtain ⟨s, pieces, hclose⟩ := exists_run_eq_close hentry
  have hroot : j.run.tree.isRegion = false := by
    rw [hclose]
    show (j.assembleRoot s.regions pieces).1.isRegion = false
    unfold assembleRoot
    dsimp only
    split <;> rfl
  obtain ⟨t, b, hrow, hstart⟩ := Place.exists_outermostIn hd
  have hrow : OutermostIn j.run.tree.children t b d.node := (outermostIn_singleton hroot).mp hrow
  obtain ⟨region, hat, hnode⟩ := h.files.filed t b d.node hrow
  rw [Nat.zero_add] at hat
  obtain ⟨hmem, rfl⟩ := mem_of_at? hat
  obtain ⟨hlt, hstop, _⟩ := h.behind region hmem
  have hcount := h.read.tokenCount hj.regular hmem hlt hstop
  -- There is a token in the region, so it begins with the token of its position.
  have htiles : Tiles 0 j.tokens.tokens.toList := by
    rw [htokens]
    exact (cut_tokenize m source).tiles
  obtain ⟨x, hx, hbyte⟩ := (run_reads hj ht hreuse).start_of_outermostIn hrow
    (by rw [← hnode]; omega) htiles
  have hget : j.tokens.get? region.first = some x := by
    rw [← hj.regular.getElem?_significantTokens, htokens]
    rw [htokens] at hx
    exact (congrArg (·[region.first]?) (TokenStream.significantTokens_ofTokens _ _)).trans hx
  refine ⟨region, Nat.lt_of_lt_of_le hlt hstop, hat, hnode, ?_⟩
  unfold TokenStream.startByte
  rw [hget, hstart]
  exact hbyte

/-- **Whether a repair explains an outermost region of the tree**: it is what is found by the byte
    at which the region begins, and the turn that made it left this very region behind. -/
def Explains (j : ParseJob) (log : TurnLog) (d : Place) (repair : Repair) : Prop :=
  j.run.repairs.lookup d.start = some repair ∧ ∃ e ∈ log, ∃ region,
    Progress.LeavesBehind j e.1 region repair ∧ region.node = d.node ∧
      j.tokens.startByte region.first = d.start

/-- **Every outermost region is explained by a repair.** -/
theorem run_explained (hj : j.Ready) (ht : j.table.Canonical) (hreuse : j.reuse = none)
    (hentry : j.table.entry? j.grammar = some entry)
    (htokens : j.tokens = .read m (.ofText source)) (hpos : j.finish ≠ 0)
    (hturns : (j.entered entry.state).Turns j log j.run)
    (hd : d ∈ (Place.ofRoot j.run.tree).regions) : ∃ repair, j.Explains log d repair := by
  obtain ⟨regions, hfiled⟩ := run_filed hj ht hreuse hpos hturns
  obtain ⟨region, hlt, hat, hnode, hstart⟩ := region_at hj ht hreuse hentry htokens hfiled hd
  have hinj : ∀ r ∈ regions, j.tokens.startByte r.first = j.tokens.startByte region.first →
      r.first = region.first := by
    intro r hr heq
    obtain ⟨hrlt, hrstop, _⟩ := hfiled.behind r hr
    have hrfinish := Nat.lt_of_lt_of_le hrlt hrstop
    unfold finish at hlt hrfinish
    rw [htokens] at heq hlt hrfinish
    exact TokenStream.startByte_injective hrfinish hlt heq
  obtain ⟨repair, hlookup, e, he, hleaves⟩ := hfiled.records.lookup hinj hat
  rw [hstart] at hlookup
  exact ⟨repair, hlookup, e, he, region, hleaves, hnode, hstart⟩

end ParseJob

omit [Limits] in
/-- What is said about a region whose repair is known. -/
theorem TokenStream.diagnose_of_lookup {stream : TokenStream} {repairs : Repairs} {d : Place}
    {repair : Repair} (hregion : d.node.isRegion = true) (hle : d.start ≤ stream.document.size)
    (h : repairs.lookup d.start = some repair) : stream.diagnose repairs d =
      ⟨repair.cause.diagnose (describeExpected repair.expected),
        stream.document.span d.start d.stop⟩ := by
  have hoffset : (stream.document.span d.start d.stop).start.offset = d.start :=
    Nat.min_eq_left hle
  unfold diagnose regionCause
  dsimp only
  rw [if_pos hregion, hoffset, h]

/-! ## The main result -/

/-- **What it means that an outcome reports the repairs of a parse, and nothing else.**  The parse
    begins with `s`. -/
structure ParseOutcome.ReportsRepairs (o : ParseOutcome) (j : ParseJob) (s : Progress) : Prop where
  /-- Something is wrong apart from tokens that could not be read just if there was a repair. -/
  reported : (∃ x ∈ o.diagnostics, x.isLexical = false) ↔ o.counts.repairs ≠ 0
  /-- There was a repair just if it can be seen in the tree. -/
  visible : o.counts.repairs ≠ 0 ↔
    ∃ d ∈ o.root.descendants, d.node.isRegion = true ∨ d.node.isMissing = true
  /-- Each of the outermost faults of the tree is told once. -/
  told : (o.diagnostics.filter (!·.isLexical)).Perm
    (o.root.faults.map (o.stream.diagnose j.run.repairs))
  /-- What is said about a region comes from the repair that left it behind. -/
  explained : ∀ d ∈ o.root.regions, ∃ log, s.Turns j log j.run ∧ ∃ repair, j.Explains log d repair ∧
    ⟨repair.cause.diagnose (describeExpected repair.expected),
      o.stream.document.span d.start d.stop⟩ ∈ o.diagnostics

/-- **Every repair of a parse is reported, and nothing else is**, whatever the text. -/
theorem Parser.parse_reportsRepairs (p : Parser) (source : String) {grammars : List Grammar}
    {entry : Entry} (h : compose grammars = .ok p.language.table)
    (hentry : p.language.table.entry? p.language.grammar = some entry) :
    let j := ParseJob.prepare p.language.table p.language.grammar
      (.read p.language.mode (.ofText source)) p.resync none p.parsing.reportRepairs
    (p.parse source).outcome.ReportsRepairs j (j.entered entry.state) := by
  intro j
  have hj : j.Ready := ParseJob.ready_prepare _ _
    (TokenStream.regular_read p.language.mode (Document.ofText source)) _ none _
  have ht : j.table.Canonical := compose_canonical h
  have hknown : j.table.entry? j.grammar = some entry := hentry
  have hfaulty : j.run.tree.Faulty ↔ j.run.counts.repairs ≠ 0 :=
    ParseJob.run_faulty_iff hj ht rfl hknown
  have hfailure : j.run.failure = none := by
    obtain ⟨s, pieces, hclose⟩ := ParseJob.exists_run_eq_close hknown
    rw [hclose]
    rfl
  have htold := j.run.diagnostics_perm j.tokens hfailure
  refine ⟨(j.run.exists_diagnostic_iff j.tokens hfailure).trans hfaulty,
    hfaulty.symm.trans (Place.ofRoot j.run.tree).faulty_iff, htold, fun d hd => ?_⟩
  obtain ⟨hfault, hregion⟩ := List.mem_filter.mp hd
  have hpos : j.finish ≠ 0 := by
    intro hzero
    have hrepairs := hfaulty.mp
      ((Place.ofRoot j.run.tree).faults_ne_nil_iff.mp (List.ne_nil_of_mem hfault))
    exact hrepairs (ParseJob.run_of_empty hknown hzero).1
  obtain ⟨log, htour⟩ := ParseJob.exists_tour_of_run ht hknown hpos
  obtain ⟨repair, hexplains⟩ := ParseJob.run_explained hj ht rfl hknown rfl hpos htour.turns hd
  refine ⟨log, htour.turns, repair, hexplains, ?_⟩
  -- The byte of the region is not behind the end of the text, so the repair is looked up there.
  obtain ⟨hlookup, _, _, region, _, _, hstart⟩ := hexplains
  have hle : d.start ≤ j.tokens.document.size := by
    rw [← hstart]
    exact TokenStream.startByte_le _ _ _
  have hmem := htold.mem_iff.mpr (List.mem_map.mpr ⟨d, hfault, rfl⟩)
  rw [TokenStream.diagnose_of_lookup hregion hle hlookup] at hmem
  exact (List.mem_filter.mp hmem).1

end

/-- A text that is no row of words. -/
theorem Parser.parse_reportsRepairs_rowsOfWords : ∃ t entry,
    compose [Grammar.rowsOfWords] = .ok t ∧ t.entry? ⟨"rows"⟩ = some entry ∧
    let p := Parser.ofLanguage ⟨⟨"rows"⟩, t, .expr, 0⟩
    let j := ParseJob.prepare t ⟨"rows"⟩ (.read .expr (.ofText "( b ")) p.resync none
      p.parsing.reportRepairs
    (p.parse "( b ").outcome.ReportsRepairs j (j.entered entry.state) := by
  obtain ⟨t, ht, _, hentry, _⟩ := compose_rowsOfWords
  obtain ⟨entry, hentry, _⟩ := Option.map_eq_some_iff.mp hentry
  exact ⟨t, entry, ht, hentry,
    Parser.parse_reportsRepairs (.ofLanguage ⟨⟨"rows"⟩, t, .expr, 0⟩) "( b " ht hentry⟩

end LayeredSyntax
