/-
  PARSING AGAIN FROM NOTHING — what an earlier outcome must not change.

  A parse of an edited text is given two things of the earlier outcome: tokens, and subtrees that it
  may take over.

  1. What a parse does does not depend on the subtrees that it was given, except where it takes one
     over (`turn_withReuse`).  So **a parse that takes nothing over comes to what a parse from
     scratch comes to** (`run_takes_nothing`), with the same marks, repairs and events.
  2. The tokens are those of the edited text, if those of the earlier text were read in the same
     mode (`relex_read`).

  **An outcome whose subtrees cannot be taken over changes nothing of the answer**, be it an outcome
  of another grammar, of another table or with other repairs (`reparse_of_not_canReuse`).  The mode
  has to be that of the earlier outcome, as the tokens in front of the edit are not read again.
-/
import LayeredSyntax.Proofs.Edit.Relexing
import LayeredSyntax.Proofs.Session.Termination

namespace LayeredSyntax

/-- The same parse with other subtrees that it may take over. -/
def ParseJob.withReuse (j : ParseJob) (x : Option ReuseIndex) : ParseJob := { j with reuse := x }

/-! ## What the subtrees have no part in -/

namespace ParseJob

variable (j : ParseJob) (x : Option ReuseIndex)

theorem contentOnto_withReuse (regions : Regions) (first stop p : Nat) (out : List Node) :
    (j.withReuse x).contentOnto regions first stop p out =
      j.contentOnto regions first stop p out := by
  fun_induction contentOnto j regions first stop p out with
  | case1 p out hlt led r hat hfits ih =>
    rw [contentOnto, if_pos hlt, hat]
    exact (if_pos hfits).trans ih
  | case2 p out hlt led r hat hfits ih =>
    rw [contentOnto, if_pos hlt, hat]
    exact (if_neg hfits).trans ih
  | case3 p out hlt led hat ih =>
    rw [contentOnto, if_pos hlt, hat]
    exact ih
  | case4 p out hlt => rw [contentOnto, if_neg hlt]

theorem fillGap_withReuse (regions : Regions) (low first stop : Nat) (a : Assembled) :
    (j.withReuse x).fillGap regions low first stop a = j.fillGap regions low first stop a := by
  unfold fillGap
  rw [contentOnto_withReuse]
  rfl

theorem assembleFrom_withReuse (regions : Regions) (opens : Bool) (low high : Nat)
    (pieces : List Label) : ∀ p a, (j.withReuse x).assembleFrom regions opens low high p a pieces =
      j.assembleFrom regions opens low high p a pieces := by
  induction pieces with
  | nil =>
    intro p a
    unfold assembleFrom
    rw [fillGap_withReuse]
  | cons piece rest ih =>
    intro p a
    unfold assembleFrom
    rw [fillGap_withReuse]
    exact ih _ _

theorem assemble_withReuse (regions : Regions) (opens : Bool) (low high : Nat)
    (pieces : List Label) : (j.withReuse x).assemble regions opens low high pieces =
      j.assemble regions opens low high pieces := by
  unfold assemble
  rw [assembleFrom_withReuse]

theorem reduceAlong_withReuse (regions : Regions) (p production : Nat) :
    (j.withReuse x).reduceAlong regions p production = j.reduceAlong regions p production := by
  funext r way
  unfold reduceAlong reduceLabel
  simp only [assemble_withReuse]
  rfl

theorem performAll_withReuse (regions : Regions) (p fuel : Nat) :
    ∀ r, (j.withReuse x).performAll regions p r fuel = j.performAll regions p r fuel := by
  induction fuel with
  | zero => exact fun r => rfl
  | succ fuel ih =>
    intro r
    unfold performAll perform
    simp only [reduceAlong_withReuse, ih]
    rfl

end ParseJob

namespace Progress

variable (j : ParseJob) (x : Option ReuseIndex) (s : Progress)

theorem reduceAll_withReuse : s.reduceAll (j.withReuse x) = s.reduceAll j := by
  unfold reduceAll
  dsimp only
  rw [ParseJob.performAll_withReuse]
  rfl

theorem landing?_withReuse (stack : Stack) (chain : List Nat) (q : Nat) :
    landing? (j.withReuse x) stack chain q = landing? j stack chain q := by
  fun_induction landing? j stack chain q with
  | case1 q hle fits k hfind =>
    rw [dite_eq_ite] at hfind
    have hfound : (if isLanding (j.withReuse x) q then
        chain.find? fun i => (j.withReuse x).actsAt (stack.state i) q else none) = some k := hfind
    rw [landing?]
    refine (if_pos hle).trans ?_
    dsimp only
    rw [hfound]
    rfl
  | case2 q hle fits hnone ih =>
    rw [dite_eq_ite] at hnone
    have hnowhere : (if isLanding (j.withReuse x) q then
        chain.find? fun i => (j.withReuse x).actsAt (stack.state i) q else none) = none := hnone
    rw [landing?]
    refine (if_pos hle).trans ?_
    dsimp only
    rw [hnowhere]
    exact ih
  | case3 q hle =>
    rw [landing?]
    exact if_neg hle

theorem leaveRegion_withReuse (first stop : Nat) (popped : List Nat) (cause : RepairCause) :
    s.leaveRegion (j.withReuse x) first stop popped cause =
      s.leaveRegion j first stop popped cause := by
  unfold leaveRegion
  dsimp only
  rw [ParseJob.assemble_withReuse]
  rfl

theorem skip?_withReuse [Limits] : s.skip? (j.withReuse x) = s.skip? j := by
  unfold skip?
  simp only [landing?_withReuse, leaveRegion_withReuse]
  rfl

theorem wrap_withReuse (cause : RepairCause) : s.wrap (j.withReuse x) cause = s.wrap j cause := by
  unfold wrap
  simp only [leaveRegion_withReuse]
  rfl

theorem repair_withReuse [Limits] : s.repair (j.withReuse x) = s.repair j := by
  unfold repair
  simp only [skip?_withReuse, wrap_withReuse]
  rfl

theorem close_withReuse (pieces : List Label) :
    s.close (j.withReuse x) pieces = s.close j pieces := by
  unfold close ParseJob.assembleRoot
  rw [ParseJob.assemble_withReuse]
  rfl

theorem settle_withReuse : s.settle (j.withReuse x) = s.settle j := by
  unfold settle
  rw [reduceAll_withReuse]

variable [Limits]

theorem stuck_withReuse : s.stuck (j.withReuse x) = s.stuck j := by
  unfold stuck
  simp only [repair_withReuse, close_withReuse]

/-! ## Turns -/

variable {j s}

/-- **A turn that finds nothing to take over** is a turn of a parse from scratch. -/
theorem turn_withReuse (h : s.position = j.finish ∨ (s.settle j).takeOver? j = none) :
    s.turn (j.withReuse none) = s.turn j := by
  have hposition := position_settle j s
  unfold turn
  dsimp only
  rw [show (if s.settled then s else s.reduceAll (j.withReuse none)) = s.settle (j.withReuse none)
    from rfl, show (if s.settled then s else s.reduceAll j) = s.settle j from rfl,
    settle_withReuse, hposition]
  simp only [close_withReuse, stuck_withReuse]
  by_cases hfinish : s.position = j.finish
  · rw [if_pos hfinish]
    exact if_pos hfinish
  · rw [if_neg hfinish, h.resolve_left hfinish]
    exact if_neg hfinish

/-- A turn that takes no subtree over found none to take, or was not to take any. -/
theorem Step.takes_nothing {d : Deed} {t : Turn} (h : Step j s d t) (hd : d ≠ .takeOver) :
    s.position = j.finish ∨ (s.settle j).takeOver? j = none := by
  have hhalts : ∀ {s₁}, Halts j s s₁ → s.position = j.finish ∨ (s.settle j).takeOver? j = none := by
    rintro s₁ (⟨hfinish, _⟩ | ⟨_, htake, _⟩)
    · exact .inl hfinish
    · exact .inr htake
  cases h with
  | accept hfinish => exact .inl hfinish
  | takeOver => exact absurd rfl hd
  | read _ htake => exact .inr htake
  | giveBack hs | insert hs | skip hs | wrap hs => exact hhalts hs

/-- **A parse that takes nothing over does what a parse from scratch does**, turn after turn. -/
theorem Turns.withoutReuse {log : TurnLog} {r : ParseRun} (h : Turns j s log r)
    (hno : ∀ e ∈ log, e.2 ≠ .takeOver) :
    ∀ {fuel : Nat}, log.length ≤ fuel → s.run (j.withReuse none) fuel = r := by
  induction h with
  | @last s d r h hd =>
    intro fuel hle
    obtain ⟨fuel, rfl⟩ : ∃ n, fuel = n + 1 := Nat.exists_eq_add_of_le' hle
    have hd := hd.takes_nothing (hno _ List.mem_cons_self)
    exact run_of_over ((turn_withReuse hd).trans h)
  | @goOn s s' d log r h hd _ ih =>
    intro fuel hle
    obtain ⟨fuel, rfl⟩ : ∃ n, fuel = n + 1 := ⟨fuel - 1, by rw [List.length_cons] at hle; omega⟩
    have hd := hd.takes_nothing (hno _ List.mem_cons_self)
    rw [run_of_goOn ((turn_withReuse hd).trans h)]
    exact ih (fun e he => hno e (List.mem_cons_of_mem _ he)) (Nat.le_of_succ_le_succ hle)

theorem run_withReuse (hno : ∀ s : Progress, s.takeOver? j = none) (fuel : Nat) :
    ∀ s : Progress, s.run (j.withReuse none) fuel = s.run j fuel := by
  induction fuel with
  | zero => exact fun s => close_withReuse j none s []
  | succ fuel ih =>
    intro s
    have hturn : s.turn (j.withReuse none) = s.turn j := turn_withReuse (.inr (hno _))
    rcases h : s.turn j with s' | r
    · rw [run_of_goOn h, run_of_goOn (hturn.trans h)]
      exact ih s'
    · rw [run_of_over h, run_of_over (hturn.trans h)]

end Progress

/-! ## Whole parses -/

namespace ParseJob

/-- A parse without subtrees to take over is a parse from scratch. -/
theorem run_withReuse_of_empty [Limits] {j : ParseJob} (h : j.reuse = some .empty) :
    (j.withReuse none).run = j.run := by
  have hno : ∀ s : Progress, s.takeOver? j = none := by
    intro s
    unfold Progress.takeOver?
    rw [h]
    show (if s.reuseFrom ≤ s.position then some () else none).bind _ = none
    split <;> rfl
  cases hentry : j.table.entry? j.grammar with
  | none =>
    have hentry' : (j.withReuse none).table.entry? (j.withReuse none).grammar = none := hentry
    unfold run
    rw [hentry, hentry']
    show (j.withReuse none).withoutEntry = j.withoutEntry
    unfold withoutEntry
    simp only [fillGap_withReuse]
    rfl
  | some entry =>
    have hentry' : (j.withReuse none).table.entry? (j.withReuse none).grammar = some entry := hentry
    unfold run
    rw [hentry, hentry']
    show (if j.finish = 0 then _ else _) = _
    split
    · exact Progress.close_withReuse ..
    · exact Progress.run_withReuse hno _ _

end ParseJob

/-- **A parse that takes no subtree over comes to what a parse from scratch comes to.** -/
theorem ParseJob.run_takes_nothing [Limits] {grammars : List Grammar} {table : Table}
    {entry : Entry}
    (grammar : GrammarId) (tokens : TokenStream) (resync : ResyncSet) (reuse : Option ReuseIndex)
    (reports : Bool) (h : compose grammars = .ok table)
    (hentry : table.entry? grammar = some entry) (hpos : 1 ≤ tokens.size) :
    let j := ParseJob.prepare table grammar tokens resync reuse reports
    ∃ log, (j.entered entry.state).Turns j log j.run ∧ ((∀ e ∈ log, e.2 ≠ .takeOver) →
      (ParseJob.prepare table grammar tokens resync none reports).run = j.run) := by
  intro j
  have ht : j.table.Canonical := compose_canonical h
  have hfinish : j.finish ≠ 0 := Nat.ne_of_gt hpos
  obtain ⟨log, htour⟩ := exists_tour_of_run ht hentry hfinish
  have hlength := htour.length_le
  rw [j.turnsLeft_entered] at hlength
  refine ⟨log, htour.turns, fun hno => ?_⟩
  have hscratch : (j.withReuse none).run = (j.entered entry.state).run (j.withReuse none)
      j.turnBound := run_eq hentry hfinish
  refine hscratch.trans (htour.turns.withoutReuse hno ?_)
  unfold turnBound
  omega

/-! ## An edited text -/

/-- **An outcome whose subtrees cannot be taken over saves no more than the reading of tokens**: the
    answer is that of parsing the new text from scratch. -/
theorem Parser.reparse_of_not_canReuse [Limits] (p : Parser) {previous : ParseOutcome} {e : Edit}
    {source text : String}
    (hread : previous.stream = .read p.language.mode (.ofText previous.source))
    (hcheck : e.check previous.source source = .ok ())
    (hreplace : (Edit.replace previous.source e.start e.oldStop text).map (·.2) = some source)
    (hsize : (tokenize p.language.mode previous.source).size < Limits.tokens)
    (hno : p.canReuse previous = false) : ∃ saved, (p.reparse previous e source).outcome =
      { (p.parse source).outcome with saved := some saved } := by
  let relexed := relex previous.stream e source p.language.mode
  have hstream : relexed.stream = .read p.language.mode (.ofText source) := by
    unfold relexed
    rw [hread]
    exact (relex_read hcheck hreplace hsize).1
  have hrun : p.runOn (.read p.language.mode (.ofText source)) (some .empty) =
      p.runOn (.read p.language.mode (.ofText source)) none :=
    (ParseJob.run_withReuse_of_empty rfl).symm
  have houtcome : ParseOutcome.ofRun p.language p.resync relexed.stream
      (p.runOn relexed.stream (some .empty)) = (p.parse source).outcome := by
    rw [hstream, hrun]
    rfl
  let saved := ReparseCounts.mk (p.runOn relexed.stream (some .empty)).reused relexed.reread
  unfold reparse reparse?
  rw [hcheck, hno]
  exact ⟨saved, congrArg (fun o : ParseOutcome => { o with saved := some saved }) houtcome⟩

/-- The earlier outcome is of another language, whose texts are parsed in the same mode. -/
theorem Parser.reparse_of_not_canReuse_rowsOfWords : ∃ t, compose [Grammar.rowsOfWords] = .ok t ∧
    let p := Parser.ofLanguage ⟨⟨"rows"⟩, t, .expr, 0⟩
    let previous := ((Parser.ofLanguage ⟨⟨"rows"⟩, t, .expr, 1⟩).parse "a a").outcome
    p.canReuse previous = false ∧ ∃ saved, (p.reparse previous ⟨2, 3, 3⟩ "a b").outcome =
      { (p.parse "a b").outcome with saved := some saved } := by
  obtain ⟨t, ht, _⟩ := compose_rowsOfWords
  have hcheck : (Edit.mk 2 3 3).check "a a" "a b" = .ok () := by rfl
  have hreplace : (Edit.replace "a a" 2 3 "b").map (·.2) = some "a b" := by decide +kernel
  have hsize : (tokenize .expr "a a").size < Limits.tokens := by decide +kernel
  exact ⟨t, ht, rfl, Parser.reparse_of_not_canReuse (.ofLanguage ⟨⟨"rows"⟩, t, .expr, 0⟩) rfl hcheck
    hreplace hsize rfl⟩

end LayeredSyntax
