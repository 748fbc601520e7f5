/-
  TRACING A PARSE — what is remembered is remembered to the end.

  Whatever a parse does, it goes on remembering what is forced (`Progress.Tracing`):

  1. What has been finished at a position is looked at when the token there is read
     (`Tracing.shift`).  If the position has been marked by then, nothing more is asked; if not, it
     is what a turn without a mark makes.
  2. **A repair marks what it touches**: the position at which a symbol is made up, and all positions
     of an error region up to the one at which the parse is taken up again.

  So it is known of every finished production of the tree, if it stands on a stretch without marks
  with a token behind it, that it is forced (`ParseJob.run_traced`).
-/
import LayeredSyntax.Proofs.Parse.Keeping
import LayeredSyntax.Proofs.Parse.Unmarked

namespace LayeredSyntax

open ParseJob

namespace Progress

variable {j : ParseJob} {s s' : Progress} {i : Insertion}

/-- **What is kept by everything that a parse does.** -/
structure Tracing (j : ParseJob) (s : Progress) : Prop where
  filed : s.Filed j
  size : s.marks.size = j.finish + 1
  edges : s.stack.Edges (j.Remembered s.marks s.position)
  regions : ∀ r ∈ s.regions, ∀ m, r.first ≤ m → m ≤ r.stop → Marked s.marks m
  /-- Where there is a gap in front of the heads, it begins at a mark. -/
  gap : ∀ i ∈ s.stack.heads, (s.stack.face i).covered < s.position →
    Marked s.marks (s.stack.face i).covered

/-- **How a turn is opened** at a position that is not marked: behind a token that was read. -/
def Opens (j : ParseJob) (s : Progress) : Prop :=
  Marked s.marks s.position ∨
    (∀ i < s.stack.nodes.size, i ∉ s.stack.heads → (s.stack.face i).position < s.position) ∧
      s.stack.Edges (j.Opening s.marks s.position)

/-- It is all about the stack, the regions and the position, and marks may be added. -/
theorem Tracing.congr (h : s.Tracing j) (hstack : s'.stack = s.stack)
    (hregions : s'.regions = s.regions) (hposition : s'.position = s.position)
    (hgrows : Grows s.marks s'.marks) : s'.Tracing j := by
  refine ⟨h.filed.congr hstack hregions hposition, hgrows.size.trans h.size, ?_, ?_, ?_⟩
  · rw [hstack, hposition]
    exact fun i e he => (h.edges i e he).grow hgrows fun m hm hlt => absurd hlt (Nat.not_lt.mpr hm)
  · rw [hregions]
    exact fun r hr m hm hle => hgrows.marked m (h.regions r hr m hm hle)
  · rw [hstack, hposition]
    exact fun i hi hlt => hgrows.marked _ (h.gap i hi hlt)

theorem Tracing.position_lt (h : s.Tracing j) : s.position < s.marks.size := by
  rw [h.size]
  exact Nat.lt_succ_of_le h.filed.sound.whole.position_le

theorem entered_tracing (j : ParseJob) (state : Nat) :
    (j.entered state).Tracing j ∧ (j.entered state).Opens j := by
  have hfresh := entered_fresh j state
  refine ⟨⟨entered_filed j state, Array.size_replicate, entered_edges j state, nofun,
    fun i _ hlt => absurd hlt (Nat.not_lt_zero _)⟩, .inr ⟨fun i hi hnot => ?_, entered_edges j state⟩⟩
  exact absurd (hfresh.mem_heads.mpr ⟨Nat.zero_le i, hi⟩) hnot

/-! ## Finishing -/

/-- Finishing marks the position if two ways have met, and nothing else. -/
theorem marks_reduceAll (j : ParseJob) (s : Progress) : Grows s.marks (s.reduceAll j).marks ∧
    ((j.performAll s.regions s.position (j.begin s) (j.taskBound s.stack)).met = true →
      s.position < s.marks.size → Marked (s.reduceAll j).marks s.position) := by
  have hmarks : (s.reduceAll j).marks =
      if (j.performAll s.regions s.position (j.begin s) (j.taskBound s.stack)).met then
        s.marks.setIfInBounds s.position true else s.marks := rfl
  rw [hmarks]
  split
  · exact ⟨grows_set _ _, fun _ hlt => marked_set hlt⟩
  · next hmet => exact ⟨.refl _, fun h => absurd h hmet⟩

/-- The edges are closed under finishing productions. -/
theorem Tracing.closed (h : s.Tracing j) (hj : j.Ready) (ht : j.table.Canonical) {base c : Nat}
    (hfresh : s.stack.Fresh base s.position c) (hc : c ≤ s.position) :
    j.ClosedUnder s.regions s.position c (j.Remembered s.marks s.position) := by
  refine closed_remembered hj ht h.filed.sound.whole.regions h.regions
    h.filed.sound.whole.position_le hc fun hlt => ?_
  obtain ⟨head, hhead⟩ := List.exists_mem_of_ne_nil _ h.filed.sound.heads_ne_nil
  obtain ⟨hbase, hheadlt⟩ := hfresh.mem_heads.mp hhead
  have hcovered := (hfresh.top head hbase hheadlt).2
  have hgap := h.gap head hhead
  rw [hcovered] at hgap
  exact hgap hlt

theorem Tracing.reduceAll (h : s.Tracing j) (hj : j.Ready) (ht : j.table.Canonical) :
    (s.reduceAll j).Tracing j := by
  obtain ⟨base, c, hfresh, hc⟩ := h.filed.sound.whole.stack
  obtain ⟨hfresh', hedges, _⟩ := reduceAll_fresh ht (h.closed hj ht hfresh hc) hfresh h.edges
  have hgrows := (marks_reduceAll j s).1
  refine ⟨h.filed.reduceAll hj ht, hgrows.size.trans h.size, fun i e he => ?_,
    fun r hr m hm hle => hgrows.marked m (h.regions r hr m hm hle), fun i hi hlt => ?_⟩
  · exact (hedges i e he).grow hgrows fun m hm hlt => absurd hlt (Nat.not_lt.mpr hm)
  · -- The heads are covered as far as they were.
    obtain ⟨head, hhead⟩ := List.exists_mem_of_ne_nil _ h.filed.sound.heads_ne_nil
    obtain ⟨hbase, hheadlt⟩ := hfresh.mem_heads.mp hhead
    obtain ⟨hbase', hlt'⟩ := hfresh'.mem_heads.mp hi
    have hgap := h.gap head hhead
    rw [(hfresh.top head hbase hheadlt).2] at hgap
    rw [(hfresh'.top i hbase' hlt').2] at hlt ⊢
    exact hgrows.marked c (hgap hlt)

/-! ## Reading -/

/-- Reading marks the position if there is a choice, and nothing else. -/
theorem marks_shift (j : ParseJob) (s : Progress) : Grows s.marks (s.shift j).2.marks ∧
    (j.isAmbiguous s.stack s.position = true → s.position < s.marks.size →
      Marked (s.shift j).2.marks s.position) := by
  have hmarks : (s.shift j).2.marks = if j.isAmbiguous s.stack s.position then
      s.marks.setIfInBounds s.position true else s.marks := by
    unfold shift
    dsimp only
    generalize s.stack.heads.flatMap _ = steps
    cases j.isAmbiguous s.stack s.position <;> cases steps <;> rfl
  rw [hmarks]
  split
  · exact ⟨grows_set _ _, fun _ hlt => marked_set hlt⟩
  · next hamb => exact ⟨.refl _, fun h => absurd h hamb⟩

/-- Where there is no choice, a head can do one thing at most, and there is at most one way of reading
    the token. -/
theorem of_not_ambiguous {s : Stack} {p : Nat} (h : j.isAmbiguous s p = false) :
    (∀ i ∈ s.heads, (j.actions (s.state i) p).length ≤ 1) ∧ (j.stepsAt s p).length ≤ 1 := by
  unfold isAmbiguous at h
  obtain ⟨hactions, hshifts⟩ := Bool.or_eq_false_iff.mp h
  refine ⟨fun i hi => ?_, ?_⟩
  · have hone := List.any_eq_false.mp hactions (s.state i) (List.mem_map_of_mem hi)
    exact Nat.not_lt.mp fun hlt => hone (decide_eq_true hlt)
  · have hlength : (j.stepsAt s p).length =
        ((s.heads.map s.state).flatMap (j.shifts · p)).length := by
      unfold stepsAt
      rw [List.flatMap_map, List.length_flatMap, List.length_flatMap]
      congr 1
      exact List.map_congr_left fun i _ => List.length_map _
    rw [hlength]
    exact Nat.not_lt.mp (of_decide_eq_false hshifts)

/-- **What is remembered when the position is passed.** -/
theorem Tracing.passed (h : s.Tracing j) (hopens : s.Opens j) (hj : j.Ready)
    (ht : j.table.Canonical) :
    (s.reduceAll j).stack.Edges
      (j.Remembered ((s.reduceAll j).shift j).2.marks (s.position + 1)) := by
  have hgrows₁ := (marks_reduceAll j s).1
  have hgrows₂ := (marks_shift j (s.reduceAll j)).1
  have hgrows := hgrows₁.trans hgrows₂
  have h₁ := h.reduceAll hj ht
  have hlt := h.position_lt
  by_cases hmarked : Marked ((s.reduceAll j).shift j).2.marks s.position
  · intro i e he
    refine (h₁.edges i e he).grow hgrows₂ fun m hm hmlt => ?_
    obtain rfl : m = s.position := by
      have hm : s.position ≤ m := hm
      omega
    exact hmarked
  · obtain ⟨base, c, hfresh, hc⟩ := h.filed.sound.whole.stack
    have hclosed : j.ClosedUnder s.regions s.position c (j.Remembered s.marks s.position) :=
      h.closed hj ht hfresh hc
    obtain ⟨hfresh', _, _⟩ := reduceAll_fresh ht hclosed hfresh h.edges
    obtain ⟨holder, hopening⟩ := hopens.resolve_left fun hm => hmarked (hgrows.marked _ hm)
    have hmet : (j.performAll s.regions s.position (j.begin s) (j.taskBound s.stack)).met =
        false := by
      refine Bool.not_eq_true _ |>.mp fun hmet => hmarked ?_
      exact hgrows₂.marked _ ((marks_reduceAll j s).2 hmet hlt)
    have hunambiguous : j.isAmbiguous (s.reduceAll j).stack s.position = false := by
      refine Bool.not_eq_true _ |>.mp fun hamb => hmarked ?_
      exact (marks_shift j (s.reduceAll j)).2 hamb (hgrows₁.size ▸ hlt)
    obtain ⟨hextends, hmade, hgone⟩ := reduceAll_unmet ht hclosed hfresh h.edges hmet
    have hturned : Turned j ((s.reduceAll j).shift j).2.marks s.regions s.position base c s.stack
        (s.reduceAll j).stack := by
      refine ⟨hfresh', fun i e he => ?_, hextends, hmade, hgone, fun i hi hilt => ?_,
        fun i hi => ?_, fun i e he => (hopening i e he).grow hgrows⟩
      · exact (h₁.edges i e he).grow hgrows₂ fun m hm hmlt => absurd hmlt (Nat.not_lt.mpr hm)
      · exact (of_not_ambiguous hunambiguous).1 i (hfresh'.mem_heads.mpr ⟨hi, hilt⟩)
      · have hilt := Nat.lt_of_lt_of_le hi hfresh.base_le
        have hface : (s.reduceAll j).stack.face i = s.stack.face i :=
          congrArg StackNode.face (hextends.node i hilt)
        rw [hface]
        exact holder i hilt fun hmem => absurd (hfresh.mem_heads.mp hmem).1 (Nat.not_le.mpr hi)
    exact hturned.remembered hj ht h.filed.sound.whole.regions fun r hr m hm hle =>
      hgrows.marked m (h.regions r hr m hm hle)

/-- **The only way of reading a token** where there is no choice: it is all that its head can do. -/
theorem exists_sole_step (hs : ∃ c, s.stack.Standing s.position c) (hreads : (s.shift j).1 = true)
    (hunambiguous : j.isAmbiguous s.stack s.position = false) : ∃ head x target,
      j.stepsAt s.stack s.position = [(head, (x, target))] ∧ head < s.stack.nodes.size ∧
      j.actions (s.stack.state head) s.position = [.shift target] ∧
      (x, target) ∈ j.shifts (s.stack.state head) s.position := by
  obtain ⟨c, hs⟩ := hs
  obtain ⟨hsingle, hlength⟩ := of_not_ambiguous hunambiguous
  have htrue : j.ClosedUnderShift s.position c fun _ _ _ => True := fun _ _ _ _ => trivial
  have hedges : s.stack.Edges fun _ _ _ => True := fun _ _ _ => trivial
  rcases shift_spec htrue hs hedges with ⟨hno, _⟩ | ⟨_, hsteps, _⟩
  · rw [hreads] at hno
    cases hno
  obtain ⟨⟨head, x, target⟩, hstep⟩ := List.length_eq_one_iff.mp
    (Nat.le_antisymm hlength (List.length_pos_iff.mpr hsteps))
  obtain ⟨hhead, hlt, _, _, hshift⟩ := (mem_stepsAt hs).mp
    (hstep ▸ List.mem_cons_self : (head, (x, target)) ∈ j.stepsAt s.stack s.position)
  have hshift : (x, target) ∈ j.shifts (s.stack.state head) s.position := hshift
  have hmem : .shift target ∈ j.actions (s.stack.state head) s.position :=
    mem_actions.mpr ⟨x, mem_shifts.mp hshift⟩
  obtain ⟨a, ha⟩ := List.length_eq_one_iff.mp
    (Nat.le_antisymm (hsingle head hhead) (List.length_pos_iff.mpr (List.ne_nil_of_mem hmem)))
  rw [ha] at hmem
  obtain rfl := List.mem_singleton.mp hmem
  exact ⟨head, x, target, hstep, hlt, ha, hshift⟩

/-- A leaf has no children and is no finished production. -/
theorem leaf_plain (j : ParseJob) (p x target : Nat) :
    (j.leaf p x target).before? = none ∧ (j.leaf p x target).children = [] := by
  unfold leaf
  dsimp only
  split <;> exact ⟨rfl, rfl⟩

/-- **How the next turn is opened.** -/
theorem Tracing.opens_shift (h : s.Tracing j) (hreads : (s.shift j).1 = true) :
    (s.shift j).2.Opens j := by
  obtain ⟨base, c, hfresh, hc⟩ := h.filed.sound.whole.stack
  -- What is there stands in front of the new position.
  have hvacuous : ∀ marks, s.stack.Edges (j.Opening marks (s.position + 1)) := by
    intro marks i e he hposition
    have hle := h.filed.position_le i (Stack.lt_of_mem_edges he)
    omega
  have hlater : ∀ marks, Marked marks s.position →
      j.ClosedUnderShift s.position c (j.Opening marks (s.position + 1)) := by
    intro marks hmarked bottom x target target' state _ _ _ _ _
    obtain ⟨hbefore, hchildren⟩ := leaf_plain j s.position x target'
    exact ⟨hbefore, hchildren, rfl, rfl, .inl hmarked⟩
  have htrue : j.ClosedUnderShift s.position c fun _ _ _ => True := fun _ _ _ _ => trivial
  have hedges : s.stack.Edges fun _ _ _ => True := fun _ _ _ => trivial
  rcases shift_spec htrue hfresh.standing hedges with
    ⟨hno, _⟩ | ⟨_, _, hposition, hfresh', _, hold, _⟩
  · rw [hreads] at hno
    cases hno
  refine .inr ⟨fun i hi hnot => ?_, ?_⟩
  · have hilt : i < s.stack.nodes.size :=
      Nat.lt_of_not_le fun hge => hnot (hfresh'.mem_heads.mpr ⟨hge, hi⟩)
    have hface : (s.shift j).2.stack.face i = s.stack.face i :=
      congrArg StackNode.face (hold i hilt)
    rw [hface, hposition]
    exact Nat.lt_succ_of_le (h.filed.position_le i hilt)
  · rw [hposition]
    by_cases hmarked : Marked (s.shift j).2.marks s.position
    · rcases shift_spec (hlater _ hmarked) hfresh.standing (hvacuous _) with
        ⟨hno, _⟩ | ⟨_, _, _, _, hedges, _⟩
      · rw [hreads] at hno
        cases hno
      · exact hedges
    · have hunambiguous : j.isAmbiguous s.stack s.position = false := by
        refine Bool.not_eq_true _ |>.mp fun hamb => hmarked ?_
        exact (marks_shift j s).2 hamb h.position_lt
      obtain ⟨head, x, target, hstep, hlt, hactions, hshift⟩ :=
        exists_sole_step ⟨c, hfresh.standing⟩ hreads hunambiguous
      have hstack : (s.shift j).2.stack = s.stack.pushOnly ⟨target, s.position + 1, s.position + 1,
          [⟨head, ⟨j.leaf s.position x target, s.position, s.position + 1⟩⟩]⟩ :=
        (shift_of_step hstep).2.2
      rw [hstack]
      refine (hvacuous _).pushOnly hfresh.standing fun e he => ?_
      obtain rfl := List.mem_singleton.mp he
      obtain ⟨hbefore, hchildren⟩ := leaf_plain j s.position x target
      exact ⟨hlt, fun _ => ⟨hbefore, hchildren, rfl, rfl, .inr ((Forced.nil _ _).read hactions hshift)⟩⟩

/-- **Reading a token keeps what is known.** -/
theorem Tracing.shift (h : s.Tracing j) (hopens : s.Opens j) (hj : j.Ready)
    (ht : j.table.Canonical) (hreads : ((s.reduceAll j).shift j).1 = true) :
    ((s.reduceAll j).shift j).2.Tracing j := by
  have h₁ := h.reduceAll hj ht
  have hpassed := h.passed hopens hj ht
  have hgrows := (marks_shift j (s.reduceAll j)).1
  obtain ⟨base, c, hfresh, hc⟩ := h₁.filed.sound.whole.stack
  have hne := position_ne_finish_of_shift hj ht hfresh.standing hreads
  have hlt := Nat.lt_of_le_of_ne h₁.filed.sound.whole.position_le hne
  have hclosed : j.ClosedUnderShift (s.reduceAll j).position c
      (j.Remembered ((s.reduceAll j).shift j).2.marks (s.position + 1)) := by
    intro bottom x target target' state hposition hcovered hshift hshift'
    have hlink := closedUnderShift_links hj ht hlt hc hposition hcovered hshift hshift'
    obtain ⟨hbefore, hchildren⟩ := leaf_plain j s.position x target'
    have htokens : s.position + (j.leaf s.position x target').tokenCount = s.position + 1 := by
      have hcount : (j.leaf s.position x target').tokenCount = s.position + 1 - s.position :=
        hlink.tokenCount hj
      omega
    -- Of the token that ends at the new position nothing is asked yet.
    exact ⟨hlink, fun hgap => absurd hgap (Nat.lt_irrefl _),
      fun _ hlt => absurd hlt (Nat.lt_irrefl _),
      Node.spread_childless (traced_of_before? _ _ hbefore) hchildren htokens⟩
  rcases shift_spec hclosed hfresh.standing hpassed with
    ⟨hno, _⟩ | ⟨_, _, hposition, hfresh', hedges, _⟩
  · rw [hreads] at hno
    cases hno
  refine ⟨h₁.filed.shift hj ht, hgrows.size.trans h₁.size, ?_, ?_, fun i hi hgap => ?_⟩
  · rw [hposition]
    exact hedges
  · rw [regions_shift]
    exact fun r hr m hm hle => hgrows.marked m (h₁.regions r hr m hm hle)
  · obtain ⟨hbase, hilt⟩ := hfresh'.mem_heads.mp hi
    rw [hposition, (hfresh'.top i hbase hilt).2] at hgap
    exact absurd hgap (Nat.lt_irrefl _)

/-! ## Repairs -/

section

variable [Limits]

theorem marks_insert (j : ParseJob) (s : Progress) (i : Insertion) :
    (s.insert j i).marks = s.marks.setIfInBounds s.position true := by
  unfold insert
  dsimp only
  split <;> rfl

/-- **A symbol that was made up** stands at a mark. -/
theorem Tracing.insert (h : s.Tracing j) (hi : i ∈ j.insertions s.stack s.position) :
    (s.insert j i).Tracing j ∧ (s.insert j i).Opens j := by
  obtain ⟨base, c, hfresh, hc⟩ := h.filed.sound.whole.stack
  obtain ⟨hstack, hposition, hregions, _⟩ := insert_spec j s i
  have hmarks := marks_insert j s i
  have hgrows : Grows s.marks (s.insert j i).marks := hmarks ▸ grows_set s.marks s.position
  have hmarked : Marked (s.insert j i).marks s.position := hmarks ▸ marked_set h.position_lt
  have hfiled := h.filed.insert hi
  have hhead := (hfresh.mem_heads.mp (insertions_spec hi).1).2
  have htokens : s.position +
      (Node.missing (j.insertedKind i.symbol) i.grammar i.symbol).tokenCount = s.position := by
    unfold Node.tokenCount
    rw [Node.measure_missing]
    rfl
  refine ⟨⟨hfiled, hgrows.size.trans h.size, fun k e he => ?_, ?_, fun k hk hgap => ?_⟩, .inl ?_⟩
  · have hlink := hfiled.sound.links k e he
    -- That the new edge is a link is known already.
    have hold : s.stack.Edges fun above below label => j.Links above below label →
        j.Remembered (s.insert j i).marks s.position above below label := fun k e he _ =>
      (h.edges k e he).grow hgrows fun m hm hlt => absurd hlt (Nat.not_lt.mpr hm)
    have hedges : (s.insert j i).stack.Edges fun above below label =>
        j.Links above below label →
          j.Remembered (s.insert j i).marks s.position above below label := by
      rw [hstack]
      refine hold.pushOnly hfresh.standing fun e he => ?_
      obtain rfl := List.mem_singleton.mp he
      refine ⟨hhead, fun hlink => ⟨hlink, fun hgap => absurd hgap (Nat.lt_irrefl _),
        fun _ hlt => absurd hlt (Nat.lt_irrefl _),
        Node.spread_childless (traced_of_before? _ _ rfl) rfl htokens⟩⟩
    rw [hposition]
    exact hedges k e he hlink
  · rw [hregions]
    exact fun r hr m hm hle => hgrows.marked m (h.regions r hr m hm hle)
  · rw [hstack] at hk hgap
    obtain rfl := List.mem_singleton.mp hk
    unfold Stack.face at hgap
    rw [Stack.node_pushOnly_self, hposition] at hgap
    exact absurd hgap (Nat.lt_irrefl _)
  · rw [hposition]
    exact hmarked

/-- **Skipping marks everything** from where the new head is covered up to the position at which the
    parse is taken up again. -/
theorem marks_skip (h : s.skip? j = some s') : Grows s.marks s'.marks ∧
    ∀ i ∈ s'.stack.heads, ∀ m, (s'.stack.face i).covered ≤ m → m ≤ s'.position →
      m < s.marks.size → Marked s'.marks m := by
  unfold skip? at h
  obtain ⟨⟨q, popped, k⟩, _, h⟩ := Option.bind_eq_some_iff.mp h
  -- Telling changes none of it.
  have hframe : ∀ s₀ : Progress, some (if j.reportRepairs then
        (s₀.markAll (s.stack.node k).covered q).tell
          ((Event.debug "Skipped to resynchronization token")
          |>.withCount "from" s.position |>.withCount "to" q)
      else s₀.markAll (s.stack.node k).covered q) = some s' →
      s'.marks = (s₀.markAll (s.stack.node k).covered q).marks ∧ s'.stack = s₀.stack ∧
        s'.position = s₀.position := by
    intro s₀ hs₀
    obtain ⟨marks, hall⟩ := markAll_eq s₀ (s.stack.node k).covered q
    rw [hall] at hs₀ ⊢
    split at hs₀ <;> cases hs₀ <;> exact ⟨rfl, rfl, rfl⟩
  obtain ⟨hmarks, hstack, hposition⟩ := hframe _ h
  rw [hmarks, hstack, hposition]
  obtain ⟨hgrows, hmarked⟩ := grows_markAll _ (s.stack.node k).covered q
  refine ⟨hgrows, fun i hi m hm hle hlt => hmarked m ?_ hle hlt⟩
  obtain rfl := List.mem_singleton.mp hi
  unfold Stack.face at hm
  rwa [Stack.node_pushOnly_self] at hm

/-- **What was skipped is marked.** -/
theorem Tracing.skip (h : s.Tracing j) (hj : j.Ready) (hskip : s.skip? j = some s') :
    s'.Tracing j ∧ s'.Opens j := by
  obtain ⟨base, c, hfresh, hc⟩ := h.filed.sound.whole.stack
  obtain ⟨hgrows, hmarked⟩ := marks_skip hskip
  have hfiled := h.filed.skip hj hskip
  obtain ⟨q, popped, k, rest, cause, hlt, hq, hchain, hstack, hposition, _, _, _, hregions⟩ :=
    skip_spec hskip
  obtain ⟨_, hcovered, hklt⟩ := h.filed.of_chain hchain
  have hall : ∀ m, (s.stack.face k).covered ≤ m → m ≤ q → Marked s'.marks m := by
    intro m hm hle
    have hface : (s'.stack.face s.stack.nodes.size).covered = (s.stack.face k).covered := by
      rw [hstack]
      show ((s.stack.pushOnly _).node s.stack.nodes.size).face.covered = _
      rw [Stack.node_pushOnly_self]
      rfl
    refine hmarked s.stack.nodes.size ?_ m (hface.symm ▸ hm) (hposition.symm ▸ hle) ?_
    · rw [hstack]
      exact List.mem_singleton_self _
    · rw [h.size]
      omega
  have hedges : s.stack.Edges (j.Remembered s'.marks q) := fun i e he =>
    (h.edges i e he).grow hgrows fun m hm hmlt => hall m (by omega) (by omega)
  refine ⟨⟨hfiled, hgrows.size.trans h.size, ?_, ?_, fun i hi _ => ?_⟩, .inl ?_⟩
  · rw [hstack, hposition]
    refine hedges.pushOnly hfresh.standing fun e he => ?_
    have hold := hedges k e he
    obtain ⟨hbelow, hfirst, hstop, hread⟩ := hold.links.reads
    have hdown := (hfresh.down k e he).1
    refine ⟨by omega, ⟨⟨hbelow, hfirst, hstop, hread⟩, hold.links.below_covered,
      hold.links.first_eq, ?_, hq, hold.links.symbol⟩, fun _ => ?_, fun hclear _ => ?_, hold.spread⟩
    · show (s.stack.face k).covered ≤ q
      omega
    · exact hall _ (Nat.le_of_eq hstop.symm) (by omega)
    · exact absurd (hall _ (Nat.le_of_eq hstop.symm) (by omega))
        (hclear.not_marked hfirst (Nat.le_refl _))
  · rw [hregions]
    intro r hr m hm hle
    rcases List.mem_cons.mp hr with rfl | hr
    · exact hall m hm hle
    · exact hgrows.marked m (h.regions r hr m hm hle)
  · rw [hstack] at hi ⊢
    obtain rfl := List.mem_singleton.mp hi
    unfold Stack.face
    rw [Stack.node_pushOnly_self]
    exact hall (s.stack.face k).covered (Nat.le_refl _) (by omega)
  · rw [hposition]
    exact hall q (by omega) (Nat.le_refl _)

end

/-- **What is wrapped up is marked**: all regions are, in the end. -/
theorem Tracing.wrap (h : s.Tracing j) (hj : j.Ready) (cause : RepairCause) :
    j.RegionsRead (s.wrap j cause).regions ∧
      ∀ r ∈ (s.wrap j cause).regions, ∀ m, r.first ≤ m → m ≤ r.stop →
        Marked (s.wrap j cause).marks m := by
  refine ⟨wrap_regions hj h.filed.sound.whole.upright cause, ?_⟩
  unfold Progress.wrap
  split
  · exact h.regions
  · next bottom hbottom =>
    dsimp only
    rw [regions_markAll]
    intro r hr m hm hle
    obtain ⟨hgrows, hmarked⟩ := grows_markAll
      (s.leaveRegion j (s.stack.node bottom).covered j.finish s.stack.chain.dropLast cause)
      (min (s.stack.node bottom).covered s.position) j.finish
    rcases List.mem_cons.mp hr with rfl | hr
    · have hm : (s.stack.node bottom).covered ≤ m := hm
      have hle : m ≤ j.finish := hle
      refine hmarked m (Nat.le_trans (Nat.min_le_left _ _) hm) hle ?_
      show m < s.marks.size
      rw [h.size]
      exact Nat.lt_succ_of_le hle
    · exact hgrows.marked m (h.regions r hr m hm hle)

/-- A parse that is stuck. -/
theorem Tracing.stuck (h : s.Tracing j) (hj : j.Ready) (ht : j.table.Canonical)
    (hstuck : Stuck j s s') : s'.Tracing j := by
  have h₁ := h.reduceAll hj ht
  cases hstuck with
  | finish => exact h₁
  | token _ hfail =>
    obtain ⟨marks, hsame⟩ := shift_of_false hfail
    have hgrows := (marks_shift j (s.reduceAll j)).1
    rw [hsame] at hgrows ⊢
    exact h₁.congr rfl rfl rfl hgrows

/-- **Everything that is asked of the nodes of a tree**, when a parse is over. -/
theorem traced_close (hj : j.Ready) (hr : j.RegionsRead s.regions)
    (hmarked : ∀ r ∈ s.regions, ∀ m, r.first ≤ m → m ≤ r.stop → Marked s.marks m)
    {pieces : List Label} (hstrewn : Strewn (j.Traced s.marks j.finish) 0 j.finish pieces) :
    ∀ t d, Node.FoundIn [(s.close j pieces).tree] t d →
      j.Traced (s.close j pieces).marks j.finish t d :=
  assembleRoot_spread traced_of_before? hj.regular (regionsSpread_of_marked hj hr hmarked) hstrewn

end Progress

/-- In a tree that is one error region there are no finished productions. -/
theorem ParseJob.traced_withoutEntry [Limits] {j : ParseJob} (hj : j.Ready) (hpos : j.finish ≠ 0) :
    ∀ t d, Node.FoundIn [j.withoutEntry.tree] t d →
      j.Traced j.withoutEntry.marks j.finish t d := by
  have hfront : Node.Spread (j.Traced j.withoutEntry.marks j.finish) 0 0
      (j.triviaOnto 0 []).reverse :=
    spread_triviaOnto traced_of_before? (Node.spread_nil _ 0) 0
  have htree : Node.Spread (j.Traced j.withoutEntry.marks j.finish) 0 j.finish
      j.withoutEntry.tree.children := by
    have hnil : j.RegionsSpread (j.Traced j.withoutEntry.marks j.finish) [] := nofun
    have hgap : Node.Spread (j.Traced j.withoutEntry.marks j.finish) 0 j.finish
        (j.fillGap [] 0 0 j.finish ⟨j.triviaOnto 0 [], 0⟩).children :=
      fillGap_spread traced_of_before? hj.regular hnil (Nat.pos_of_ne_zero hpos) (Nat.le_refl _)
        hfront
    have hchildren : j.withoutEntry.tree.children =
        (j.triviaOnto j.finish (j.fillGap [] 0 0 j.finish ⟨j.triviaOnto 0 [], 0⟩).reversed).reverse := by
      unfold withoutEntry
      dsimp only
      rw [if_neg hpos]
      rfl
    rw [hchildren]
    exact spread_triviaOnto traced_of_before? hgap j.finish
  intro t d hd
  cases hd with
  | here => exact traced_of_before? _ _ rfl
  | inside hd =>
    have hfound := htree.found t d hd
    rwa [Nat.zero_add] at hfound
  | next hd => exact absurd hd Node.not_foundIn_nil

/-- **Every finished production of the tree is forced**, if it stands on a stretch without marks and
    there is a token behind it. -/
theorem ParseJob.run_traced [Limits] {j : ParseJob} (hj : j.Ready) (ht : j.table.Canonical)
    (hreuse : j.reuse = none) :
    ∀ t d, Node.FoundIn [j.run.tree] t d → j.Traced j.run.marks j.finish t d := by
  by_cases hpos : j.finish = 0
  · intro t d _ _ hlt
    omega
  cases hentry : j.table.entry? j.grammar with
  | none =>
    have hrun : j.run = j.withoutEntry := by
      unfold run
      rw [hentry]
    rw [hrun]
    exact traced_withoutEntry hj hpos
  | some entry =>
    rw [run_eq hentry hpos]
    refine Progress.run_rule (P := fun _ s => s.Plain ∧ s.Tracing j ∧ s.Opens j)
      (Q := fun r => ∀ t d, Node.FoundIn [r.tree] t d → j.Traced r.marks j.finish t d) hreuse
      (fun _ _ h => h.1) ?_ ?_ ?_ ?_ _ _ ⟨entered_plain j entry.state, Progress.entered_tracing j _⟩
    · rintro s ⟨_, h, _⟩
      exact Progress.traced_close hj h.filed.sound.whole.regions h.regions (Nat.zero_le _)
    · rintro _ s label ⟨_, h, _⟩ hfinish haccepted
      have h₁ := h.reduceAll hj ht
      obtain ⟨head, _, e, he, rfl, _⟩ := Progress.exists_of_accepted? haccepted
      have hedge := h₁.edges head e he
      have hspread : Node.Spread (j.Traced (s.reduceAll j).marks s.position) e.label.first
          e.label.stop [e.label.node] := hedge.spread
      rw [hfinish] at hspread
      refine Progress.traced_close hj h₁.filed.sound.whole.regions h₁.regions ?_
      exact ⟨Nat.zero_le _, hedge.links.reads.first_le, hspread, hedge.links.stop_le⟩
    · rintro _ s ⟨hplain, h, hopens⟩ _ hreads
      exact ⟨Progress.plain_shift hplain.checkpoint hreads, h.shift hopens hj ht hreads,
        (h.reduceAll hj ht).opens_shift hreads⟩
    · rintro _ s s' ⟨hplain, h, _⟩ hstuck
      have hcheckpoint := hstuck.checkpoint hplain
      have hstop := h.stuck hj ht hstuck
      have hcounted : s'.counted.Tracing j := hstop.congr rfl rfl rfl (.refl _)
      rcases Progress.repair_cases j s' with
        ⟨_, _, i, hi, heq⟩ | ⟨_, s'', hskip, heq⟩ | ⟨events, cause, heq⟩
      · rw [heq]
        refine ⟨fun _ => ⟨?_, hcounted.insert (List.mem_of_head? hi)⟩,
          fun h => absurd h.symm Bool.false_ne_true⟩
        have hplain' := Progress.plain_repair hcheckpoint (by rw [heq])
        rwa [heq] at hplain'
      · rw [heq]
        refine ⟨fun _ => ⟨?_, hcounted.skip hj hskip⟩, fun h => absurd h.symm Bool.false_ne_true⟩
        have hplain' := Progress.plain_repair hcheckpoint (by rw [heq])
        rwa [heq] at hplain'
      · rw [heq]
        refine ⟨fun h => absurd h Bool.false_ne_true, fun _ => ?_⟩
        have hevents : ({ s'.counted with events } : Progress).Tracing j :=
          hcounted.congr rfl rfl rfl (.refl _)
        obtain ⟨hread, hmarked⟩ := hevents.wrap hj cause
        exact Progress.traced_close hj hread hmarked (Nat.zero_le _)

end LayeredSyntax
