/-
  PARSES END — after a number of turns that grows with the number of tokens, and no faster.

  Whatever the grammars, the text, the places where a parse is taken up again and the subtrees are
  that it may take over: the turns counted out for a parse are never used up, so **a parse ends by
  itself**.  The bounds of what it does on the way are in `ParseJob.Bounded`.

  The grammars may go around in circles, so that a production can be finished over and over on the
  same tokens; each turn finishes it once for each way all the same, and is done (`finishes`).
-/
import LayeredSyntax.Proofs.Parse.Counting
import LayeredSyntax.Proofs.Session.CleanParses

namespace LayeredSyntax

section

variable [Limits]

/-- **The bounds of the turns of a parse.** -/
structure ParseJob.Bounded (j : ParseJob) (log : TurnLog) : Prop where
  turns : log.length ≤ 4 * j.finish + Limits.insertionsAtEnd + 2
  repairs : log.repairs.length ≤
    min (2 * j.finish + Limits.insertionsAtEnd + 1) (Limits.repairs + 1)
  /-- The parse is never repaired in front of where it was repaired before. -/
  forwards : log.repairs.Pairwise (· ≤ ·)
  insertions : ∀ p < j.finish, log.insertions.count p ≤ 1
  insertionsAtEnd : log.insertions.count j.finish ≤ Limits.insertionsAtEnd
  /-- Whenever a subtree is given back, the next turn takes none over in front of a later position
      than before. -/
  raises : log.IsChain fun a b => a.2 = .giveBack → a.1.reuseFrom < b.1.reuseFrom
  /-- Wherever productions are finished, this comes to an end. -/
  finishes : ∀ e ∈ log, e.1.settled = false → e.1.Finishes j
  /-- Wherever the first way down is followed, it is followed to its end. -/
  chains : ∀ e ∈ log, ∀ i ∈ (e.1.settle j).stack.chain.getLast?, (e.1.settle j).stack.edges i = []

/-! ## What is left in the beginning -/

theorem ParseJob.turnsLeft_entered (j : ParseJob) (state : Nat) :
    ((j.entered state).pace 0).turnsLeft j.finish = 4 * j.finish + Limits.insertionsAtEnd := by
  show j.finish - 0 + 2 * (j.finish - 0) + (j.finish + (Limits.insertionsAtEnd - 0)) = _
  omega

theorem ParseJob.repairsLeft_entered (j : ParseJob) (state : Nat) :
    ((j.entered state).pace 0).repairsLeft j.finish = 2 * j.finish + Limits.insertionsAtEnd := by
  show j.finish - 0 + (j.finish + (Limits.insertionsAtEnd - 0)) = _
  omega

/-! ## The end of a parse -/

/-- **The turns counted out for a parse are never used up.** -/
theorem ParseJob.exists_tour_of_run {j : ParseJob} {entry : Entry} (ht : j.table.Canonical)
    (hentry : j.table.entry? j.grammar = some entry) (hpos : j.finish ≠ 0) :
    ∃ log, Progress.Tour j 0 (j.entered entry.state) log j.run := by
  have hpaced := Progress.entered_paced j entry.state
  obtain ⟨log, r, htour⟩ := hpaced.exists_tour ht (Nat.le_refl _)
  have hlength := htour.length_le
  rw [j.turnsLeft_entered] at hlength
  have hrun : j.run = r := by
    rw [run_eq hentry hpos]
    exact htour.turns.run_eq (by unfold turnBound; omega)
  exact ⟨log, hrun ▸ htour⟩

/-- **A parse ends, and it does so in time.**  Where at most 32 symbols may be made up at the end, as
    in both profiles, it takes no more than `4 * n + 34` turns and `2 * n + 33` repairs for `n`
    tokens. -/
theorem ParseJob.turns_of_run {grammars : List Grammar} {table : Table} {entry : Entry}
    (grammar : GrammarId) (tokens : TokenStream) (resync : ResyncSet) (reuse : Option ReuseIndex)
    (reports : Bool) (h : compose grammars = .ok table)
    (hentry : table.entry? grammar = some entry) (hpos : 1 ≤ tokens.size) :
    let j := ParseJob.prepare table grammar tokens resync reuse reports
    ∃ log, (j.entered entry.state).Turns j log j.run ∧ j.Bounded log ∧
      (Limits.insertionsAtEnd ≤ 32 → log.length ≤ 4 * j.finish + 34 ∧
        log.repairs.length ≤ min (2 * j.finish + 33) (Limits.repairs + 1)) := by
  intro j
  have ht : j.table.Canonical := compose_canonical h
  have hfinish : j.finish ≠ 0 := Nat.ne_of_gt hpos
  obtain ⟨log, htour⟩ := exists_tour_of_run ht hentry hfinish
  have hlength := htour.length_le
  obtain ⟨hfew, hlimit⟩ := htour.length_repairs_le
  rw [j.turnsLeft_entered] at hlength
  rw [j.repairsLeft_entered] at hfew
  refine ⟨log, htour.turns, ⟨by omega, ?_, htour.repairs_sorted.1, htour.count_insertions_le,
    htour.count_insertions_finish_le, htour.raises, fun e he hs => ?_, fun e he i hi => ?_⟩,
    fun hfew => ⟨by omega, Nat.le_min.mpr ⟨by omega, hlimit⟩⟩⟩
  · exact Nat.le_min.mpr ⟨hfew, hlimit⟩
  · obtain ⟨floor, hpaced⟩ := htour.paced e he
    exact hpaced.finishes ht hs
  · obtain ⟨floor, hpaced⟩ := htour.paced e he
    obtain ⟨c, hstanding⟩ := (hpaced.settle ht).standing
    exact hstanding.edges_of_getLast?_chain hi

end

/-- A row of two words, with a subtree for the first one that can be taken over. -/
theorem ParseJob.turns_of_run_rowsOfWords : ∃ t entry, compose [Grammar.rowsOfWords] = .ok t ∧
    t.entry? ⟨"rows"⟩ = some entry ∧ 1 ≤ (TokenStream.read .expr (.ofText "a a")).size ∧
    let j := ParseJob.prepare t ⟨"rows"⟩ (.read .expr (.ofText "a a")) ⟨[]⟩
      (some ⟨#[[.rule "row" ⟨"rows"⟩ 0 1 0 [.leaf "identifier" true none 1 1]]]⟩) true
    ∃ log, (j.entered entry.state).Turns j log j.run ∧ j.Bounded log ∧
      log.length ≤ 4 * j.finish + 34 ∧ log.repairs.length ≤ min (2 * j.finish + 33) 2049 := by
  obtain ⟨t, ht, _, hentry, _⟩ := compose_rowsOfWords
  obtain ⟨entry, hentry, _⟩ := Option.map_eq_some_iff.mp hentry
  have hpos : 1 ≤ (TokenStream.read .expr (.ofText "a a")).size := by cbv
  obtain ⟨log, hturns, hbounded, hfew⟩ :=
    ParseJob.turns_of_run ⟨"rows"⟩ (.read .expr (.ofText "a a")) ⟨[]⟩
      (some ⟨#[[.rule "row" ⟨"rows"⟩ 0 1 0 [.leaf "identifier" true none 1 1]]]⟩) true ht hentry hpos
  exact ⟨t, entry, ht, hentry, hpos, log, hturns, hbounded, hfew (Nat.le_refl 32)⟩

-- The bound on what is made up at the end in the two profiles.
example : Limits.production.insertionsAtEnd ≤ 32 ∧ Limits.development.insertionsAtEnd ≤ 32 := by
  decide

end LayeredSyntax
