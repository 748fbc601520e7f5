/-
  EVERY TOKEN IS KEPT — what a parse does to its stacks loses nothing of the text.

  Between two nodes of a stack there is a subtree, and in front of it there may be a gap that is
  still to be filled.  `ReadsBetween` says that the subtree reads its own stretch and ends where the
  upper node is covered up to, so **the subtrees on any way down fit one behind the other**
  (`fits_of_trail`), whatever was left out between them.

  1. Finishing a production and reading a token make such subtrees again (`closed_readsBetween`,
     `closedUnderShift_readsBetween`).
  2. A repair puts a missing node on, or it leaves an error region behind that reads exactly what
     was popped and skipped (`Upright.repair`).

  What a run keeps in every turn is `Progress.Whole`, and the tree in the end reads all tokens
  (`run_reads`).
-/
import LayeredSyntax.Proofs.Parse.Assembling
import LayeredSyntax.Proofs.Parse.Repairing
import LayeredSyntax.Proofs.Parse.Shifting

namespace LayeredSyntax

namespace ParseJob

variable {j : ParseJob} {regions : Regions} {p c : Nat}

/-! ## Subtrees between two nodes -/

/-- **What a subtree between two nodes of a stack is like.** -/
structure ReadsBetween (j : ParseJob) (above below : Face) (label : Label) : Prop where
  below_le : below.covered ≤ label.first
  first_le : label.first ≤ label.stop
  stop_eq : label.stop = above.covered
  reads : j.table.Reads [label.node] (j.tokens.stretch label.first label.stop)

/-- **The subtrees on a trail fit one behind the other.** -/
theorem fits_of_trail {bottom top : Face} {pieces : List Label}
    (h : Trail j.ReadsBetween bottom pieces top) : j.Fits bottom.covered top.covered pieces := by
  induction h with
  | nil => exact Nat.le_refl _
  | snoc _ hlabel ih =>
    exact ih.append ⟨hlabel.below_le, hlabel.first_le, hlabel.reads, Nat.le_of_eq hlabel.stop_eq⟩

/-- The last subtree of a trail ends where the trail ends. -/
theorem stop_of_trail {bottom top : Face} {pieces : List Label} {label : Label}
    (h : Trail j.ReadsBetween bottom pieces top) (hlast : pieces.getLast? = some label) :
    label.stop = top.covered := by
  obtain ⟨front, rfl⟩ := List.getLast?_eq_some_iff.mp hlast
  obtain ⟨_, _, hlabel⟩ := h.last
  exact hlabel.stop_eq

/-- **Finishing a production makes such a subtree.** -/
theorem closed_readsBetween (hj : j.Ready) (ht : j.table.Canonical) (hr : j.RegionsRead regions)
    (hp : p ≤ j.finish) (hc : c ≤ p) : j.ClosedUnder regions p c j.ReadsBetween := by
  intro bottom top pieces q target htrail _ hcovered hq hlength _
  have hne : pieces ≠ [] := List.length_pos_iff.mp (hlength ▸ rhs_length_pos ht hq)
  obtain ⟨piece, rest, rfl⟩ := List.exists_cons_of_ne_nil hne
  obtain ⟨last, hlast⟩ := Option.isSome_iff_exists.mp (List.getLast?_isSome.mpr hne)
  have hstop : last.stop = c := (stop_of_trail htrail hlast).trans hcovered
  obtain ⟨hbelow, hfirst, hreads, hrest⟩ := fits_of_trail htrail
  have hfits : j.Fits piece.first c (piece :: rest) :=
    ⟨Nat.le_refl _, hfirst, hreads, hcovered ▸ hrest⟩
  have hle := Nat.le_trans hc hp
  rw [reduceLabel_eq List.head?_cons hlast, hstop]
  refine ⟨rfl, hbelow, hfits.le, rfl, .node ?_ ?_ (trimmed_stretch hj.regular hle)⟩
  · exact assemble_ne_nil hfits (List.cons_ne_nil _ _)
  · exact assemble_reads hj.regular hr hle hfits

/-- **Reading a token makes such a subtree.** -/
theorem closedUnderShift_readsBetween (hj : j.Ready) (hp : p < j.finish) (hc : c ≤ p) :
    j.ClosedUnderShift p c j.ReadsBetween := by
  intro bottom x target target' state _ hcovered _ hshift
  refine ⟨hcovered ▸ hc, Nat.le_succ _, rfl, ?_⟩
  obtain ⟨token, htoken, _, htrivia⟩ := hj.regular.token p hp
  have hx : x ∈ j.table.terminalsFor token.kind token.text := by
    rw [← hj.terminals htoken]
    exact (mem_shifts.mp hshift).1
  have hstands : (j.leaf p x target').StandsFor j.table token := by
    unfold leaf
    rw [htoken]
    cases j.table.terminal? x with
    | none => exact ⟨htrivia, hx, rfl⟩
    | some terminal => exact ⟨htrivia, hx, rfl⟩
  show j.table.Reads [j.leaf p x target'] _
  rw [hj.regular.stretch_succ htoken hp]
  exact .single hstands

end ParseJob

namespace Progress

variable {j : ParseJob} {s s' : Progress}

/-! ## What is kept -/

/-- **What is kept in every turn.** -/
structure Whole (j : ParseJob) (s : Progress) : Prop where
  stack : ∃ base c, s.stack.Fresh base s.position c ∧ c ≤ s.position
  edges : s.stack.Edges j.ReadsBetween
  regions : j.RegionsRead s.regions
  position_le : s.position ≤ j.finish

/-- **What is left of it in the middle of a turn**, when nodes have been put beside the heads. -/
structure Upright (j : ParseJob) (s : Progress) : Prop where
  standing : ∃ c, s.stack.Standing s.position c ∧ c ≤ s.position
  edges : s.stack.Edges j.ReadsBetween
  regions : j.RegionsRead s.regions
  position_le : s.position ≤ j.finish

theorem Whole.upright (hs : s.Whole j) : s.Upright j := by
  obtain ⟨_, c, hfresh, hc⟩ := hs.stack
  exact ⟨⟨c, hfresh.standing, hc⟩, hs.edges, hs.regions, hs.position_le⟩

theorem Whole.reduceAll (hs : s.Whole j) (hj : j.Ready) (ht : j.table.Canonical) :
    (s.reduceAll j).Whole j := by
  obtain ⟨base, c, hfresh, hc⟩ := hs.stack
  obtain ⟨hfresh', hedges, _⟩ := ParseJob.reduceAll_fresh ht
    (ParseJob.closed_readsBetween hj ht hs.regions hs.position_le hc) hfresh hs.edges
  exact ⟨⟨base, c, hfresh', hc⟩, hedges, hs.regions, hs.position_le⟩

theorem regions_shift (j : ParseJob) (s : Progress) : (s.shift j).2.regions = s.regions := by
  unfold shift mark
  dsimp only
  split <;> split <;> rfl

theorem Upright.read (hs : s.Upright j) (hj : j.Ready) (hne : s.position ≠ j.finish)
    (hreads : (s.shift j).1 = true) : (s.shift j).2.Whole j := by
  obtain ⟨c, hstanding, hc⟩ := hs.standing
  have hlt : s.position < j.finish := Nat.lt_of_le_of_ne hs.position_le hne
  rcases ParseJob.shift_spec (ParseJob.closedUnderShift_readsBetween hj hlt hc) hstanding
      hs.edges with
    ⟨hfalse, _⟩ | ⟨_, _, hposition, hfresh', hedges, _⟩
  · rw [hreads] at hfalse
    cases hfalse
  · refine ⟨⟨_, _, hposition ▸ hfresh', by rw [hposition]⟩, hedges, ?_, ?_⟩
    · rw [regions_shift]
      exact hs.regions
    · rw [hposition]
      exact hlt

theorem Whole.shift (hs : s.Whole j) (hj : j.Ready) (hne : s.position ≠ j.finish) :
    (s.shift j).2.Whole j := by
  cases hreads : (s.shift j).1 with
  | true => exact hs.upright.read hj hne hreads
  | false =>
    -- Where nothing can be read, nothing changes but the marks.
    obtain ⟨marks, hsame⟩ := shift_of_false hreads
    rw [hsame]
    exact ⟨hs.stack, hs.edges, hs.regions, hs.position_le⟩

theorem Upright.insert [Limits] (hs : s.Upright j) {i : Insertion} (hi : i.head ∈ s.stack.heads) :
    (s.insert j i).Whole j := by
  obtain ⟨c, hstanding, hc⟩ := hs.standing
  obtain ⟨hstack, hposition, hregions, _⟩ := insert_spec j s i
  obtain ⟨hlt, _, hcovered⟩ := hstanding.heads i.head hi
  refine ⟨⟨s.stack.nodes.size, s.position, ?_, by rw [hposition]⟩, ?_, ?_, ?_⟩
  · have hbelow : ∀ e ∈ [Edge.mk i.head ⟨.missing (j.insertedKind i.symbol) i.grammar i.symbol,
        s.position, s.position⟩], e.below < s.stack.nodes.size := by
      intro e he
      obtain rfl := List.mem_singleton.mp he
      exact hlt
    rw [hstack, hposition]
    exact hstanding.pushOnly (n := ⟨i.target, s.position, s.position, _⟩) hbelow
  · -- What was made up reads nothing: it stands on the head at the position itself.
    rw [hstack]
    refine hs.edges.pushOnly hstanding fun e he => ?_
    obtain rfl := List.mem_singleton.mp he
    refine ⟨hlt, ?_, Nat.le_refl _, rfl, ?_⟩
    · show (s.stack.face i.head).covered ≤ s.position
      rw [hcovered]
      exact hc
    · show j.table.Reads [_] (j.tokens.stretch s.position s.position)
      rw [TokenStream.stretch_self]
      exact .missing .nil
  · rw [hregions]
    exact hs.regions
  · rw [hposition]
    exact hs.position_le

/-- **A region that is left behind reads what was popped and what was skipped.** -/
theorem leaveRegion_reads (hj : j.Ready) (hs : s.Upright j) {k q : Nat} {popped rest : List Nat}
    (hchain : s.stack.chain = popped ++ k :: rest) (hle : s.position ≤ q) (hq : q ≤ j.finish)
    (cause : RepairCause) :
    j.RegionsRead (s.leaveRegion j (s.stack.face k).covered q popped cause).regions := by
  obtain ⟨c, hstanding, hc⟩ := hs.standing
  obtain ⟨head, hhead, htrail⟩ := ParseJob.trail_of_chain hs.edges hchain
  -- What is popped lies between the state that was found and the first head.
  have hpopped := ParseJob.fits_of_trail htrail
  rw [(hstanding.heads head hhead).2.2] at hpopped
  have hskipped := (ParseJob.fits_skippedPieces hj.regular hle hq).mono hc
  intro r hr hfirst
  rcases List.mem_cons.mp hr with rfl | hr
  · have hreads : j.table.Reads (j.assemble s.regions true (s.stack.face k).covered q
          (poppedPieces s.stack popped ++ j.skippedPieces s.position q)).children
        (j.tokens.stretch (s.stack.face k).covered q) :=
      ParseJob.assemble_reads hj.regular hs.regions hq (hpopped.append hskipped)
    exact .node (hreads.ne_nil (hj.regular.stretch_ne_nil hfirst hq)) hreads
      (ParseJob.trimmed_stretch hj.regular hq)
  · exact hs.regions r hr hfirst

theorem Upright.skip [Limits] (hs : s.Upright j) (hj : j.Ready) (h : s.skip? j = some s') :
    s'.Whole j := by
  obtain ⟨c, hstanding, hc⟩ := hs.standing
  obtain ⟨q, popped, k, rest, cause, hlt, hq, hchain, hstack, hposition, _, _, _, hregions⟩ :=
    skip_spec h
  obtain ⟨head, hhead, htrail⟩ := ParseJob.trail_of_chain hs.edges hchain
  have hcovered := (ParseJob.fits_of_trail htrail).le
  rw [(hstanding.heads head hhead).2.2] at hcovered
  have hdown : ∀ e ∈ s.stack.edges k, e.below < s.stack.nodes.size := by
    intro e he
    exact Nat.lt_trans (hstanding.down k e he) (Stack.lt_of_mem_edges he)
  refine ⟨⟨s.stack.nodes.size, (s.stack.face k).covered, ?_, ?_⟩, ?_, ?_, ?_⟩
  · rw [hstack, hposition]
    exact hstanding.pushOnly
      (n := ⟨(s.stack.face k).state, q, (s.stack.face k).covered, s.stack.edges k⟩) hdown
  · rw [hposition]
    omega
  · -- The new head stands behind the region, with the edges of the state that was found.
    rw [hstack]
    refine hs.edges.pushOnly hstanding fun e he => ⟨hdown e he, ?_⟩
    obtain ⟨hbelow, hfirst, hstop, hreads⟩ := hs.edges k e he
    exact ⟨hbelow, hfirst, hstop, hreads⟩
  · rw [hregions]
    exact leaveRegion_reads hj hs hchain (Nat.le_of_lt hlt) hq _
  · rw [hposition]
    exact hq

theorem wrap_regions (hj : j.Ready) (hs : s.Upright j) (cause : RepairCause) :
    j.RegionsRead (s.wrap j cause).regions := by
  unfold wrap
  split
  · exact hs.regions
  · next bottom hbottom =>
    have hchain : s.stack.chain = s.stack.chain.dropLast ++ bottom :: [] :=
      (List.dropLast_append_getLast? bottom hbottom).symm
    dsimp only
    rw [regions_markAll]
    exact leaveRegion_reads hj hs hchain hs.position_le (Nat.le_refl _) cause

/-- **Repairs keep what is kept.** -/
theorem Upright.repair [Limits] (hs : s.Upright j) (hj : j.Ready) :
    ((s.repair j).1 = true → (s.repair j).2.Whole j) ∧ j.RegionsRead (s.repair j).2.regions := by
  have hs' : s.counted.Upright j := ⟨hs.standing, hs.edges, hs.regions, hs.position_le⟩
  rcases repair_cases j s with ⟨_, _, i, hi, h⟩ | ⟨_, s', h', h⟩ | ⟨events, cause, h⟩
  · have hwhole := hs'.insert (ParseJob.insertions_spec (List.mem_of_head? hi)).1
    rw [h]
    exact ⟨fun _ => hwhole, hwhole.regions⟩
  · have hwhole := hs'.skip hj h'
    rw [h]
    exact ⟨fun _ => hwhole, hwhole.regions⟩
  · rw [h]
    refine ⟨fun h => absurd h Bool.false_ne_true, wrap_regions hj ?_ cause⟩
    exact ⟨hs.standing, hs.edges, hs.regions, hs.position_le⟩

end Progress

namespace ParseJob

variable {j : ParseJob}

/-- What is read in the end. -/
theorem close_reads (hj : j.Ready) {s : Progress} (hr : j.RegionsRead s.regions)
    {pieces : List Label} (hfits : j.Fits 0 j.finish pieces) :
    j.table.Reads (s.close j pieces).tree.children j.tokens.tokens.toList :=
  assembleRoot_reads hj.regular hr hfits

theorem withoutEntry_reads [Limits] (hj : j.Ready) :
    j.table.Reads j.withoutEntry.tree.children j.tokens.tokens.toList := by
  have hnil : j.RegionsRead [] := fun r hr => absurd hr List.not_mem_nil
  have hfront : j.table.Reads (j.triviaOnto 0 []).reverse (j.tokens.lead 0) := by
    rw [reverse_triviaOnto]
    exact reads_lead hj.regular (Nat.zero_le _)
  unfold withoutEntry Assembled.children Node.children
  dsimp only
  split
  · next hzero =>
    rw [← hj.regular.lead_of_empty hzero]
    exact hfront
  · next hpos =>
    have hgap : j.table.Reads (j.fillGap [] 0 0 j.finish ⟨[], 0⟩).children
        (j.tokens.stretch 0 j.finish) := by
      refine fillGap_reads hj.regular hnil (Nat.le_refl _) (Nat.pos_of_ne_zero hpos)
        (Nat.le_refl _) ?_
      rw [TokenStream.stretch_self]
      exact .nil
    have hsplit : (j.fillGap [] 0 0 j.finish ⟨j.triviaOnto 0 [], 0⟩).reversed =
        (j.fillGap [] 0 0 j.finish ⟨[], 0⟩).reversed ++ j.triviaOnto 0 [] := rfl
    rw [← hj.regular.whole (Nat.pos_of_ne_zero hpos), reverse_triviaOnto, hsplit,
      List.reverse_append]
    exact (hfront.append hgap).append (reads_lead hj.regular (Nat.le_refl _))

theorem entered_whole (j : ParseJob) (state : Nat) : (j.entered state).Whole j :=
  ⟨⟨0, 0, entered_fresh j state, Nat.le_refl _⟩, entered_edges j state,
    fun _ hr => absurd hr List.not_mem_nil, Nat.zero_le _⟩

/-- **The tree reads all tokens.** -/
theorem run_reads [Limits] (hj : j.Ready) (ht : j.table.Canonical) (hreuse : j.reuse = none) :
    j.table.Reads j.run.tree.children j.tokens.tokens.toList := by
  have hnil : j.RegionsRead [] := fun r hr => absurd hr List.not_mem_nil
  unfold run
  split
  · exact withoutEntry_reads hj
  · next entry _ =>
    dsimp only
    split
    · next hzero => exact close_reads hj hnil (Nat.zero_le _)
    · refine Progress.run_rule (P := fun _ s => s.Plain ∧ s.Whole j)
        (Q := fun r => j.table.Reads r.tree.children j.tokens.tokens.toList) hreuse
        (fun _ s hs => hs.1) (fun s hs => close_reads hj hs.2.regions (Nat.zero_le _)) ?_ ?_ ?_
        j.turnBound _ ⟨entered_plain j entry.state, entered_whole j entry.state⟩
      · -- What is accepted fits under the root.
        intro _ s label ⟨_, hs⟩ _ haccepted
        have hwhole := hs.reduceAll hj ht
        obtain ⟨head, hhead, e, he, rfl, _⟩ := Progress.exists_of_accepted? haccepted
        obtain ⟨base, c, hfresh, hc⟩ := hwhole.stack
        obtain ⟨hbase, hlt⟩ := hfresh.mem_heads.mp hhead
        obtain ⟨_, hfirst, hstop, hreads⟩ := hwhole.edges head e he
        rw [(hfresh.top _ hbase hlt).2] at hstop
        refine close_reads hj hwhole.regions ⟨Nat.zero_le _, hfirst, hreads, ?_⟩
        rw [hstop]
        exact Nat.le_trans hc hwhole.position_le
      · intro _ s ⟨hplain, hs⟩ hne hreads
        exact ⟨Progress.plain_shift hplain.checkpoint hreads, (hs.reduceAll hj ht).shift hj hne⟩
      · intro _ s s' ⟨hplain, hs⟩ hstuck
        have hwhole : s'.Whole j := by
          cases hstuck with
          | finish => exact hs.reduceAll hj ht
          | token hne => exact (hs.reduceAll hj ht).shift hj hne
        obtain ⟨hon, hregions⟩ := hwhole.upright.repair hj
        have hplain' := Progress.plain_repair (j := j) (hstuck.checkpoint hplain)
        exact ⟨fun h => ⟨hplain' h, hon h⟩, fun _ => close_reads hj hregions (Nat.zero_le _)⟩

/-- Without any tokens there is nothing below the root. -/
theorem run_children_of_empty [Limits] (hj : j.Ready) (hempty : j.tokens.tokens.toList = []) :
    j.run.tree.children = [] := by
  have hzero : j.finish = 0 := by
    rcases Nat.eq_zero_or_pos j.finish with hzero | hpos
    · exact hzero
    · have hwhole := hj.regular.whole hpos
      rw [hempty] at hwhole
      have hnil := (List.append_eq_nil_iff.mp (List.append_eq_nil_iff.mp hwhole).1).2
      exact absurd hnil (hj.regular.stretch_ne_nil hpos (Nat.le_refl _))
  have hfront : j.triviaOnto 0 [] = [] := by
    refine List.reverse_eq_nil_iff.mp ?_
    rw [reverse_triviaOnto, hj.regular.lead_of_empty hzero, hempty]
    rfl
  have hroot : (j.assembleRoot [] []).1.children = [] := by
    unfold assembleRoot
    dsimp only
    rw [if_pos hzero, hfront]
    rfl
  unfold run
  split
  · unfold withoutEntry
    dsimp only
    rw [if_pos hzero, hfront]
    rfl
  · dsimp only
    rw [if_pos hzero]
    exact hroot

end ParseJob

end LayeredSyntax
