/-
  MARKS — what it means that a position is not marked.

  A parse marks the positions at which more than one thing was possible.  What is marked stays
  marked, so a position that is not marked in the end has not been marked in any turn
  (`Recorded.goOn_passed`, `Recorded.over_passed`), and there nothing was ever in doubt:

  1. **No two ways have met**: what was finished made new heads, each by one production over one way
     down, and nothing else was changed (`Progress.Unforked`).
  2. **The turn reads the token, or it accepts the text**: every repair marks the position at which
     it is made.
  3. In front of a token every head has one thing to do at most, and there is just one way of
     reading the token on (`Progress.Determined`).

  The third point is not made of the end of the text.  Whether a head has a choice is looked at when
  a token is read, and **at the end there is none**, so a choice that does not make two ways meet
  leaves no mark there.
-/
import LayeredSyntax.Proofs.Parse.Tracing
import LayeredSyntax.Proofs.Parse.Recording
import LayeredSyntax.Proofs.Session.Termination

namespace LayeredSyntax

open ParseJob

namespace Progress

variable {j : ParseJob} {s s' s₁ : Progress} {d : Deed} {r : ParseRun} {log : TurnLog}

/-- **No two ways have met** while everything was finished at the position. -/
structure Unforked (j : ParseJob) (s : Progress) : Prop where
  unmet : (j.performAll s.regions s.position (j.begin s) (j.taskBound s.stack)).met = false
  extend : s.stack.Extends (s.reduceAll j).stack
  made : ∀ i, s.stack.nodes.size ≤ i → i < (s.reduceAll j).stack.nodes.size →
    ∃ head q way, (s.reduceAll j).stack.MadeBy j s.regions s.position head q way i

/-- **Whether nothing was in doubt in a turn.** -/
structure Determined (j : ParseJob) (s : Progress) (d : Deed) : Prop where
  unforked : s.Unforked j
  deed : d = if s.position = j.finish then .accept else .read
  single : s.position ≠ j.finish → ∀ i ∈ (s.reduceAll j).stack.heads,
    (j.actions ((s.reduceAll j).stack.state i) s.position).length ≤ 1
  step : s.position ≠ j.finish → (j.stepsAt (s.reduceAll j).stack s.position).length = 1

/-- Whether the position of a turn is marked, or else nothing was in doubt. -/
def Passed (j : ParseJob) (marks : Array Bool) (e : Progress × Deed) : Prop :=
  Marked marks e.1.position ∨ e.1.Determined j e.2

theorem Passed.grow {marks marks' : Array Bool} {e : Progress × Deed} (h : Passed j marks e)
    (hgrows : Grows marks marks') : Passed j marks' e := h.imp_left (hgrows.marked _)

/-! ## What a turn marks -/

/-- Where a position is not marked, two ways have not met. -/
theorem unforked_of_not_marked (h : s.Filed j) (hj : j.Ready) (ht : j.table.Canonical)
    (hlt : s.position < s.marks.size) (hno : ¬ Marked (s.reduceAll j).marks s.position) :
    s.Unforked j := by
  obtain ⟨base, c, hfresh, hc⟩ := h.sound.whole.stack
  have hmet : (j.performAll s.regions s.position (j.begin s) (j.taskBound s.stack)).met = false :=
    Bool.not_eq_true _ |>.mp fun hmet => hno ((marks_reduceAll j s).2 hmet hlt)
  have hE : j.ClosedUnder s.regions s.position c j.ReadsBetween :=
    closed_readsBetween hj ht h.sound.whole.regions h.sound.whole.position_le hc
  obtain ⟨hextend, hmade, _⟩ := reduceAll_unmet ht hE hfresh h.sound.whole.edges hmet
  refine ⟨hmet, hextend, fun i hi hilt => ?_⟩
  obtain ⟨head, q, way, _, hby⟩ := hmade i hi hilt
  exact ⟨head, q, way, hby⟩

/-- **Reading a token at a position that is not marked.** -/
theorem determined_of_read (h : s.Filed j) (hj : j.Ready) (ht : j.table.Canonical)
    (hlt : s.position < s.marks.size) (hne : s.position ≠ j.finish)
    (hreads : ((s.reduceAll j).shift j).1 = true)
    (hno : ¬ Marked ((s.reduceAll j).shift j).2.marks s.position) : s.Determined j .read := by
  have hgrows := (marks_shift j (s.reduceAll j)).1
  have hunambiguous : j.isAmbiguous (s.reduceAll j).stack s.position = false := by
    refine Bool.not_eq_true _ |>.mp fun hamb => hno ?_
    exact (marks_shift j (s.reduceAll j)).2 hamb ((marks_reduceAll j s).1.size ▸ hlt)
  refine ⟨unforked_of_not_marked h hj ht hlt fun hm => hno (hgrows.marked _ hm),
    (if_neg hne).symm, fun _ => (of_not_ambiguous hunambiguous).1, fun _ => ?_⟩
  obtain ⟨base, c, hfresh, _⟩ := (h.reduceAll hj ht).sound.whole.stack
  obtain ⟨head, x, target, hstep, _⟩ :=
    exists_sole_step (s := s.reduceAll j) ⟨c, hfresh.standing⟩ hreads hunambiguous
  exact congrArg List.length hstep

variable [Limits]

/-- Skipping marks the position that it is made at. -/
theorem marked_skip (h : s.Filed j) (hskip : s.skip? j = some s')
    (hlt : s.position < s.marks.size) : Marked s'.marks s.position := by
  obtain ⟨_, hmarked⟩ := marks_skip hskip
  obtain ⟨q, popped, k, rest, cause, hq, _, hchain, hstack, hposition, _⟩ := skip_spec hskip
  obtain ⟨_, hcovered, hklt⟩ := h.of_chain hchain
  have hhead : s.stack.nodes.size ∈ s'.stack.heads := by
    rw [hstack]
    exact List.mem_singleton_self _
  have hface : (s'.stack.face s.stack.nodes.size).covered = (s.stack.face k).covered := by
    rw [hstack]
    unfold Stack.face
    rw [Stack.node_pushOnly_self]
    rfl
  refine hmarked _ hhead s.position ?_ ?_ hlt
  · rw [hface]
    exact hcovered
  · rw [hposition]
    exact Nat.le_of_lt hq

omit [Limits] in
/-- Wrapping up marks the position that it is made at. -/
theorem marked_wrap (h : s.Filed j) (hlt : s.position < s.marks.size) (cause : RepairCause) :
    Grows s.marks (s.wrap j cause).marks ∧ Marked (s.wrap j cause).marks s.position := by
  obtain ⟨bottom, hbottom, _⟩ := h.exists_bottom
  have hle := h.sound.whole.position_le
  unfold wrap
  rw [hbottom]
  dsimp only
  obtain ⟨hgrows, hmarked⟩ := grows_markAll
    (s.leaveRegion j (s.stack.node bottom).covered j.finish s.stack.chain.dropLast cause)
    (min (s.stack.node bottom).covered s.position) j.finish
  exact ⟨hgrows, hmarked s.position (Nat.min_le_right _ _) hle hlt⟩

/-- Up to where a parse halts only marks are added. -/
theorem Halts.grows (h : Halts j s s₁) (hplain : s.Plain) :
    Grows s.marks s₁.marks ∧ s₁.position = s.position := by
  have hsettle : s.settle j = s.reduceAll j := settle_of_plain hplain
  cases h with
  | finish =>
    rw [hsettle]
    exact ⟨(marks_reduceAll j s).1, rfl⟩
  | token _ _ hno =>
    rw [hsettle] at hno ⊢
    obtain ⟨marks, hsame⟩ := shift_of_false hno
    refine ⟨(marks_reduceAll j s).1.trans (marks_shift j _).1, ?_⟩
    rw [hsame]
    rfl

/-! ## From turn to turn -/

/-- **A turn after which the parse goes on** marks its position, or else nothing was in doubt. -/
theorem Recorded.goOn_passed (h : Recorded j log s) (hj : j.Ready) (ht : j.table.Canonical)
    (hreuse : j.reuse = none) (hlt : s.position < s.marks.size) (hd : Step j s d (.goOn s')) :
    Grows s.marks s'.marks ∧ Passed j s'.marks (s, d) := by
  have hsettle : s.settle j = s.reduceAll j := settle_of_plain h.plain
  cases hd with
  | takeOver _ htake =>
    rw [takeOver?_of_reuse hreuse] at htake
    cases htake
  | read hne _ hreads =>
    rw [hsettle] at hreads ⊢
    refine ⟨(marks_reduceAll j s).1.trans (marks_shift j _).1, ?_⟩
    by_cases hmarked : Marked ((s.reduceAll j).shift j).2.marks s.position
    · exact .inl hmarked
    · exact .inr (determined_of_read h.filed hj ht hlt hne hreads hmarked)
  | giveBack hhalts hback =>
    obtain ⟨_, hcheck, _⟩ := h.halts hj ht hhalts
    obtain ⟨c, hc, _⟩ := giveBack_spec hback
    rw [hcheck] at hc
    cases hc
  | @insert s₁ i hhalts =>
    obtain ⟨hgrows, hposition⟩ := hhalts.grows h.plain
    have hmarks := marks_insert j s₁.givenUp.counted i
    have hmarked : Marked (s₁.givenUp.counted.insert j i).marks s.position := by
      rw [hmarks, ← hposition]
      exact marked_set (hgrows.size ▸ hposition ▸ hlt)
    exact ⟨hgrows.trans (hmarks ▸ grows_set _ _), .inl hmarked⟩
  | @skip s₁ _ hhalts _ _ hskip =>
    obtain ⟨hgrows, hposition⟩ := hhalts.grows h.plain
    obtain ⟨hfiled, _⟩ := h.halts hj ht hhalts
    have hcounted : s₁.givenUp.counted.Filed j := hfiled.congr rfl rfl rfl
    have hmarked := marked_skip hcounted hskip (hgrows.size ▸ hposition ▸ hlt)
    exact ⟨hgrows.trans (marks_skip hskip).1, .inl (hposition ▸ hmarked)⟩

/-- **The last turn** marks its position, or else it accepts and nothing was in doubt. -/
theorem Recorded.over_passed (h : Recorded j log s) (hj : j.Ready) (ht : j.table.Canonical)
    (hlt : s.position < s.marks.size) (hd : Step j s d (.over r)) :
    Grows s.marks r.marks ∧ Passed j r.marks (s, d) := by
  have hsettle : s.settle j = s.reduceAll j := settle_of_plain h.plain
  cases hd with
  | accept hfinish =>
    rw [hsettle]
    refine ⟨(marks_reduceAll j s).1, ?_⟩
    by_cases hmarked : Marked (s.reduceAll j).marks s.position
    · exact .inl hmarked
    · exact .inr ⟨unforked_of_not_marked h.filed hj ht hlt hmarked, (if_pos hfinish).symm,
        fun hne => absurd hfinish hne, fun hne => absurd hfinish hne⟩
  | @wrap s₁ s' hhalts _ hrepair =>
    obtain ⟨hgrows, hposition⟩ := hhalts.grows h.plain
    obtain ⟨hfiled, _⟩ := h.halts hj ht hhalts
    obtain ⟨events, cause, rfl⟩ := eq_wrap_of_repair hrepair
    have hcounted : ({ s₁.givenUp.counted with events } : Progress).Filed j :=
      hfiled.congr rfl rfl rfl
    obtain ⟨hgrows', hmarked⟩ := marked_wrap hcounted (hgrows.size ▸ hposition ▸ hlt) cause
    exact ⟨hgrows.trans hgrows', .inl (hposition ▸ hmarked)⟩

/-- What is known of the turns so far. -/
structure Weighed (j : ParseJob) (log : TurnLog) (s : Progress) : Prop where
  recorded : Recorded j log s
  size : s.marks.size = j.finish + 1
  passed : ∀ e ∈ log, Passed j s.marks e

theorem Weighed.position_lt (h : Weighed j log s) : s.position < s.marks.size := by
  rw [h.size]
  exact Nat.lt_succ_of_le h.recorded.filed.sound.whole.position_le

theorem Weighed.append (h : Weighed j log s) {marks : Array Bool}
    (hturn : Grows s.marks marks ∧ Passed j marks (s, d)) :
    ∀ e ∈ log ++ [(s, d)], Passed j marks e := by
  intro e he
  rcases List.mem_append.mp he with he | he
  · exact (h.passed e he).grow hturn.1
  · obtain rfl := List.mem_singleton.mp he
    exact hturn.2

end Progress

/-- **In every turn the position is marked, or nothing was in doubt**, where no subtrees are taken
    over. -/
theorem ParseJob.run_passed [Limits] {j : ParseJob} {entry : Entry} {log : TurnLog} (hj : j.Ready)
    (ht : j.table.Canonical) (hreuse : j.reuse = none)
    (hturns : (j.entered entry.state).Turns j log j.run) :
    ∀ e ∈ log, Progress.Passed j j.run.marks e := by
  refine hturns.rule (P := Progress.Weighed j) (Q := fun log r => ∀ e ∈ log,
    Progress.Passed j r.marks e) (fun h hd => ?_) (fun h hd => ?_) [] ?_
  · have hturn := h.recorded.goOn_passed hj ht hreuse h.position_lt hd
    exact ⟨h.recorded.goOn hj ht hreuse hd, hturn.1.size.trans h.size, h.append hturn⟩
  · exact h.append (h.recorded.over_passed hj ht h.position_lt hd)
  · exact ⟨⟨entered_plain j entry.state, Progress.entered_filed j entry.state, .nil⟩,
      Array.size_replicate, fun e he => absurd he List.not_mem_nil⟩

/-- **A position that is not marked was determined**: no two ways have met there, and the turn reads
    the token in the only way that there is, or accepts the text. -/
theorem ParseJob.determined_of_run [Limits] {grammars : List Grammar} {table : Table}
    {entry : Entry}
    (grammar : GrammarId) (mode : Mode) (source : String) (resync : ResyncSet) (reports : Bool)
    (h : compose grammars = .ok table) (hentry : table.entry? grammar = some entry)
    (hpos : 1 ≤ (TokenStream.read mode (.ofText source)).size) :
    let j := ParseJob.prepare table grammar (.read mode (.ofText source)) resync none reports
    ∃ log, (j.entered entry.state).Turns j log j.run ∧
      ∀ e ∈ log, j.run.marks[e.1.position]? = some false → e.1.Determined j e.2 := by
  intro j
  have ht : j.table.Canonical := compose_canonical h
  have hj : j.Ready :=
    ready_prepare table grammar (TokenStream.regular_read _ _) resync none reports
  obtain ⟨log, htour⟩ := exists_tour_of_run ht hentry (Nat.ne_of_gt hpos)
  refine ⟨log, htour.turns, fun e he hno => ?_⟩
  refine (run_passed hj ht rfl htour.turns e he).resolve_left fun hmarked => ?_
  have hboth : some false = some true := hno.symm.trans hmarked
  cases hboth

/-- A row of two words. -/
theorem ParseJob.determined_of_run_rowsOfWords : ∃ t entry,
    compose [Grammar.rowsOfWords] = .ok t ∧ t.entry? ⟨"rows"⟩ = some entry ∧
    1 ≤ (TokenStream.read .expr (.ofText "a a")).size ∧
    let j := ParseJob.prepare t ⟨"rows"⟩ (.read .expr (.ofText "a a")) ⟨[]⟩ none true
    ∃ log, (j.entered entry.state).Turns j log j.run ∧
      ∀ e ∈ log, j.run.marks[e.1.position]? = some false → e.1.Determined j e.2 := by
  obtain ⟨t, ht, _, hentry, _⟩ := compose_rowsOfWords
  obtain ⟨entry, hentry, _⟩ := Option.map_eq_some_iff.mp hentry
  have hpos : 1 ≤ (TokenStream.read .expr (.ofText "a a")).size := by cbv
  exact ⟨t, entry, ht, hentry, hpos, ParseJob.determined_of_run ⟨"rows"⟩ .expr "a a" ⟨[]⟩
    true ht hentry hpos⟩

end LayeredSyntax
