/-
  ADOPTING SUBTREES — what is taken over must read its own stretch, and that is enough.

  A parse that takes subtrees over knows nothing of them but what it is given.  If **every subtree
  that can be taken over reads the tokens at its position** (`ParseJob.ReuseReads`), then the
  subtrees on all edges do (`Progress.Kept`), and the tree in the end reads all tokens
  (`ParseJob.run_reads_of_reuse`).

  **The crux** is giving a subtree back: the heads that are put back stand where they stood, with
  nodes above them that count for nothing any more.  In that turn nothing is finished, and what is
  read or repaired asks no more of the stack than that its heads stand (`Progress.Upright`).
-/
import LayeredSyntax.Proofs.Parse.Recording
import LayeredSyntax.Proofs.Session.Termination

namespace LayeredSyntax

/-- **Whether every subtree that can be taken over reads the tokens at its position.** -/
def ParseJob.ReuseReads (j : ParseJob) : Prop :=
  ∀ x ∈ j.reuse, ∀ p, ∀ n ∈ x.candidatesAt p, p + n.tokenCount ≤ j.finish →
    j.table.Reads [n] (j.tokens.stretch p (p + n.tokenCount))

namespace Progress

variable {j : ParseJob} {s s' s₁ : Progress} {d : Deed} {r : ParseRun}

/-- **Whether the heads of a checkpoint still stand.** -/
def Stands (s : Progress) (c : Checkpoint) : Prop :=
  c.first ≤ s.position ∧ ∃ covered,
    (⟨s.stack.nodes, c.heads, c.byState⟩ : Stack).Standing c.first covered ∧ covered ≤ c.first

/-- What is kept in the middle of a turn, with what can be put back. -/
structure Held (j : ParseJob) (s : Progress) : Prop where
  upright : s.Upright j
  checkpoint : ∀ c, s.checkpoint = some c → s.Stands c

/-- **What is kept from turn to turn**, where subtrees are taken over. -/
structure Kept (j : ParseJob) (s : Progress) : Prop where
  held : s.Held j
  whole : s.settled = false → s.Whole j

theorem Whole.kept (h : s.Whole j) (hcheckpoint : s.checkpoint = none) : s.Kept j :=
  ⟨⟨h.upright, fun c hc => by rw [hcheckpoint] at hc; cases hc⟩, fun _ => h⟩

/-! ## One turn -/

theorem Kept.settle (hs : s.Kept j) (hj : j.Ready) (ht : j.table.Canonical) :
    (s.settle j).Held j := by
  unfold Progress.settle
  split
  · exact hs.held
  · next hsettled =>
    have hwhole := hs.whole (Bool.eq_false_iff.mpr hsettled)
    refine ⟨(hwhole.reduceAll hj ht).upright, fun check hcheck => ?_⟩
    -- What is finished is put on top of the nodes that there were.
    obtain ⟨base, c, hfresh, hc⟩ := hwhole.stack
    obtain ⟨hfresh', _, hkept⟩ := ParseJob.reduceAll_fresh ht
      (ParseJob.closed_readsBetween hj ht hwhole.regions hwhole.position_le hc) hfresh hwhole.edges
    obtain ⟨hfirst, covered, hstanding, hle⟩ := hs.held.checkpoint check hcheck
    exact ⟨hfirst, covered, standing_of_kept _ hstanding hkept.size_le hkept.face hfresh', hle⟩

variable [Limits]

theorem Kept.halts (hs : s.Kept j) (hj : j.Ready) (ht : j.table.Canonical) (h : Halts j s s₁) :
    s₁.Held j := by
  have hheld := hs.settle hj ht
  cases h with
  | finish => exact hheld
  | token _ _ hno =>
    obtain ⟨marks, hsame⟩ := shift_of_false hno
    rw [hsame]
    exact ⟨⟨hheld.upright.standing, hheld.upright.edges, hheld.upright.regions,
      hheld.upright.position_le⟩, hheld.checkpoint⟩

theorem Held.takeOver (hs : s.Held j) (hreuse : j.ReuseReads) (h : s.takeOver? j = some s') :
    s'.Kept j := by
  obtain ⟨head, node, target, stop, _, hhead, ⟨x, hx, hnode⟩, hstop, hlt, hle, rfl⟩ :=
    takeOver_spec h
  obtain ⟨c, hstanding, hc⟩ := hs.upright.standing
  obtain ⟨hheadlt, _, hcovered⟩ := hstanding.heads head hhead
  have hbelow : ∀ e ∈ [Edge.mk head ⟨node, s.position, stop⟩], e.below < s.stack.nodes.size := by
    intro e he
    obtain rfl := List.mem_singleton.mp he
    exact hheadlt
  have hfresh := hstanding.pushOnly (n := ⟨target, stop, stop, _⟩) hbelow
  have hreads : j.table.Reads [node] (j.tokens.stretch s.position stop) := by
    have hall := hreuse x hx s.position node hnode
    rw [← hstop] at hall
    exact hall hle
  have hedges : (s.stack.pushOnly ⟨target, stop, stop, [⟨head, ⟨node, s.position, stop⟩⟩]⟩).Edges
      j.ReadsBetween := by
    refine hs.upright.edges.pushOnly hstanding fun e he => ⟨hbelow e he, ?_⟩
    obtain rfl := List.mem_singleton.mp he
    refine ⟨?_, Nat.le_of_lt hlt, rfl, hreads⟩
    show (s.stack.face head).covered ≤ s.position
    rw [hcovered]
    exact hc
  refine ⟨⟨⟨⟨stop, hfresh.standing, Nat.le_refl _⟩, hedges, hs.upright.regions, hle⟩,
    fun check hcheck => ?_⟩, fun _ => ⟨⟨_, stop, hfresh, Nat.le_refl _⟩, hedges,
      hs.upright.regions, hle⟩⟩
  -- The heads that are remembered are those in front of the subtree.
  obtain rfl := Option.some.inj hcheck
  refine ⟨Nat.le_of_lt hlt, c, standing_of_kept s.stack hstanding ?_ (fun i hi => ?_) hfresh, hc⟩
  · show s.stack.nodes.size ≤ (s.stack.nodes.push _).size
    rw [Array.size_push]
    exact Nat.le_succ _
  · exact Stack.face_pushOnly_of_lt hi

theorem Held.giveBack (hs : s.Held j) (h : s.giveBack? = some s') : s'.Kept j := by
  obtain ⟨c, hc, rfl⟩ := giveBack_spec h
  obtain ⟨hfirst, covered, hstanding, hle⟩ := hs.checkpoint c hc
  exact ⟨⟨⟨⟨covered, hstanding, hle⟩, hs.upright.edges, hs.upright.regions,
    Nat.le_trans hfirst hs.upright.position_le⟩, fun _ h => by cases h⟩, fun h => by cases h⟩

/-- **A turn after which the parse goes on.** -/
theorem Kept.goOn (hs : s.Kept j) (hj : j.Ready) (ht : j.table.Canonical) (hreuse : j.ReuseReads)
    (h : Step j s d (.goOn s')) : s'.Kept j := by
  cases h with
  | takeOver _ h => exact (hs.settle hj ht).takeOver hreuse h
  | read hne _ h =>
    have hwhole := (hs.settle hj ht).upright.read hj (by rw [position_settle]; exact hne) h
    refine hwhole.kept ?_
    obtain ⟨stack, marks, hshift⟩ := shift_of_true h
    rw [hshift]
  | giveBack hhalts h => exact (hs.halts hj ht hhalts).giveBack h
  | @insert s₁ i hhalts _ _ _ hi _ =>
    obtain ⟨hstanding, hedges, hregions, hle⟩ := (hs.halts hj ht hhalts).upright
    have hcounted : s₁.givenUp.counted.Upright j := ⟨hstanding, hedges, hregions, hle⟩
    refine (hcounted.insert (ParseJob.insertions_spec (List.mem_of_head? hi)).1).kept ?_
    exact (insert_spec j s₁.givenUp.counted i).2.2.2.2.1
  | @skip s₁ _ hhalts _ _ hskip _ =>
    obtain ⟨hstanding, hedges, hregions, hle⟩ := (hs.halts hj ht hhalts).upright
    have hcounted : s₁.givenUp.counted.Upright j := ⟨hstanding, hedges, hregions, hle⟩
    refine (hcounted.skip hj hskip).kept ?_
    obtain ⟨_, _, _, _, _, _, _, _, _, _, _, hcheckpoint, _⟩ := skip_spec hskip
    exact hcheckpoint

/-- **The last turn** makes a tree of all tokens. -/
theorem Kept.over (hs : s.Kept j) (hj : j.Ready) (ht : j.table.Canonical)
    (h : Step j s d (.over r)) : j.table.Reads r.tree.children j.tokens.tokens.toList := by
  cases h with
  | accept _ haccepted =>
    obtain ⟨hstanding, hedges, hregions, hle⟩ := (hs.settle hj ht).upright
    obtain ⟨c, hstanding, hc⟩ := hstanding
    obtain ⟨head, hhead, e, he, rfl, _⟩ := exists_of_accepted? haccepted
    obtain ⟨_, hfirst, hstop, hreads⟩ := hedges head e he
    rw [(hstanding.heads head hhead).2.2] at hstop
    refine ParseJob.close_reads hj hregions ⟨Nat.zero_le _, hfirst, hreads, ?_⟩
    rw [hstop]
    exact Nat.le_trans hc hle
  | @wrap s₁ _ hhalts _ hrepair =>
    obtain ⟨hstanding, hedges, hregions, hle⟩ := (hs.halts hj ht hhalts).upright
    have hup : s₁.givenUp.Upright j := ⟨hstanding, hedges, hregions, hle⟩
    have hregions' := (hup.repair hj).2
    rw [hrepair] at hregions'
    exact ParseJob.close_reads hj hregions' (Nat.zero_le _)

end Progress

/-- **The tree reads all tokens**, also where subtrees are taken over that read theirs. -/
theorem ParseJob.run_reads_of_reuse [Limits] {j : ParseJob} (hj : j.Ready) (ht : j.table.Canonical)
    (hreuse : j.ReuseReads) : j.table.Reads j.run.tree.children j.tokens.tokens.toList := by
  cases hentry : j.table.entry? j.grammar with
  | none =>
    unfold run
    rw [hentry]
    exact withoutEntry_reads hj
  | some entry =>
    by_cases hzero : j.finish = 0
    · unfold run
      rw [hentry]
      dsimp only
      rw [if_pos hzero]
      exact close_reads hj (fun _ hr => absurd hr List.not_mem_nil) (Nat.zero_le _)
    · obtain ⟨log, htour⟩ := exists_tour_of_run ht hentry hzero
      refine htour.turns.rule (P := fun _ s => s.Kept j)
        (Q := fun _ r => j.table.Reads r.tree.children j.tokens.tokens.toList)
        (fun hs hd => hs.goOn hj ht hreuse hd) (fun hs hd => hs.over hj ht hd) [] ?_
      exact (entered_whole j entry.state).kept rfl

end LayeredSyntax
