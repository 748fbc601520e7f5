/-
  GAPS — every stretch of skipped tokens is filed under where it begins.

  A node that is covered less far than it stands has a gap in front of it, and a region that was
  left behind fills the gap (`Progress.FilledAt`).  What is kept by everything that a parse does is
  `Progress.Sound`: there are heads, all subtrees link the nodes that they stand between, and the
  gaps of all nodes that count are filled.

  **The crux**: a later repair may file another region under the same position.  Then it has gone on
  from the very node with the gap, and that node is given up.  Whatever still lies below the new
  head stands at or in front of where the new gap begins, so its own gap begins further in front
  (`position_le_of_path`).
-/
import LayeredSyntax.Proofs.Parse.Below
import LayeredSyntax.Proofs.Parse.Linking

namespace LayeredSyntax

namespace Progress

variable {j : ParseJob} {s s' : Progress} {i k n base c : Nat}

/-! ## Gaps -/

/-- Whether the gap of a face is filled. -/
def FilledAt (regions : Regions) (f : Face) : Prop :=
  f.covered < f.position → ∃ r children, regions.at? f.covered = some r ∧ r.stop = f.position ∧
    r.node = .error children

theorem at?_cons (r : Region) (regions : Regions) (p : Nat) :
    Regions.at? (r :: regions) p = if r.first = p then some r else regions.at? p := by
  unfold Regions.at?
  rw [List.find?_cons]
  by_cases h : r.first = p
  · rw [if_pos h, beq_iff_eq.mpr h]
  · rw [if_neg h, beq_eq_false_iff_ne.mpr h]

/-- **What lies below a node stands in front of where the node is covered up to.** -/
theorem position_le_of_path (hE : s.stack.Edges j.Links) (h : s.stack.Path i (n + 1) k) :
    (s.stack.face k).position ≤ (s.stack.face i).covered := by
  induction n generalizing i with
  | zero =>
    obtain ⟨e, he, rfl⟩ := h
    have hlink := hE i e he
    rw [hlink.first_eq, ← hlink.reads.stop_eq]
    exact hlink.reads.first_le
  | succ n ih =>
    obtain ⟨e, he, hpath⟩ := h
    have hlink := hE i e he
    calc (s.stack.face k).position ≤ (s.stack.face e.below).covered := ih hpath
      _ ≤ (s.stack.face e.below).position := hlink.below_covered
      _ = e.label.first := hlink.first_eq
      _ ≤ e.label.stop := hlink.reads.first_le
      _ = (s.stack.face i).covered := hlink.reads.stop_eq

/-! ## What is kept -/

/-- **What is kept by everything that a parse does.** -/
structure Sound (j : ParseJob) (s : Progress) : Prop where
  whole : s.Whole j
  heads_ne_nil : s.stack.heads ≠ []
  links : s.stack.Edges j.Links
  filled : ∀ i, s.stack.Live i → FilledAt s.regions (s.stack.face i)

theorem entered_sound (j : ParseJob) (state : Nat) : (j.entered state).Sound j := by
  have hzero := ParseJob.entered_fresh j state
  refine ⟨ParseJob.entered_whole j state, List.cons_ne_nil _ _, ParseJob.entered_edges j state,
    fun i ⟨head, hhead, n, hpath⟩ hgap => ?_⟩
  obtain ⟨hbase, hlt⟩ := hzero.mem_heads.mp hhead
  cases n with
  | zero =>
    obtain rfl : head = i := hpath
    obtain ⟨hp, hc⟩ := hzero.top head hbase hlt
    rw [hp, hc] at hgap
    exact absurd hgap (Nat.lt_irrefl 0)
  | succ n =>
    obtain ⟨e, he, _⟩ := hpath
    rw [ParseJob.edges_entered] at he
    cases he

/-- Heads go on being there while heads are put beside them. -/
theorem heads_ne_nil_of_fresh {s s' : Stack} {p p' c' : Nat} (hs : s.Fresh base p c)
    (hs' : s'.Fresh base p' c') (hle : s.nodes.size ≤ s'.nodes.size) (hne : s.heads ≠ []) :
    s'.heads ≠ [] := by
  obtain ⟨head, hhead⟩ := List.exists_mem_of_ne_nil _ hne
  obtain ⟨hbase, hlt⟩ := hs.mem_heads.mp hhead
  exact List.ne_nil_of_mem (hs'.mem_heads.mpr ⟨hbase, Nat.lt_of_lt_of_le hlt hle⟩)

theorem Sound.reduceAll (hs : s.Sound j) (hj : j.Ready) (ht : j.table.Canonical) :
    (s.reduceAll j).Sound j := by
  obtain ⟨base, c, hfresh, hc⟩ := hs.whole.stack
  have hE : j.ClosedUnder s.regions s.position c j.Links :=
    ParseJob.closed_links hj ht hs.whole.regions hs.whole.position_le hc
  obtain ⟨hfresh', hlinks, hkept⟩ := ParseJob.reduceAll_fresh ht hE hfresh hs.links
  have hwithin := ParseJob.reduceAll_within ht hE hfresh hs.links
  refine ⟨hs.whole.reduceAll hj ht,
    heads_ne_nil_of_fresh hfresh hfresh' hkept.size_le hs.heads_ne_nil, hlinks, fun i hi => ?_⟩
  show FilledAt s.regions _
  rcases hwithin.live hfresh' hi with ⟨hbase, hlt⟩ | ⟨hlt, hold⟩
  · -- A head stands where the heads stood before, and is covered as far.
    obtain ⟨head, hhead⟩ := List.exists_mem_of_ne_nil _ hs.heads_ne_nil
    obtain ⟨hheadbase, hheadlt⟩ := hfresh.mem_heads.mp hhead
    obtain ⟨hp, hcov⟩ := hfresh.top head hheadbase hheadlt
    obtain ⟨hp', hcov'⟩ := hfresh'.top i hbase hlt
    have hfilled := hs.filled head (Stack.live_of_mem_heads hhead)
    unfold FilledAt at hfilled ⊢
    rw [hp, hcov] at hfilled
    rw [hp', hcov']
    exact hfilled
  · rw [hkept.face i (Nat.lt_of_lt_of_le hlt hfresh.base_le)]
    exact hs.filled i hold

/-- The end of the text is never read. -/
theorem position_ne_finish_of_shift (hj : j.Ready) (ht : j.table.Canonical) {c : Nat}
    (hs : s.stack.Standing s.position c) (hreads : (s.shift j).1 = true) :
    s.position ≠ j.finish := by
  intro hfinish
  have hnone : j.stepsAt s.stack s.position = [] := by
    refine List.eq_nil_iff_forall_not_mem.mpr fun step hstep => ?_
    obtain ⟨_, _, _, _, hshift⟩ := (ParseJob.mem_stepsAt hs).mp hstep
    obtain ⟨hx, haction⟩ := ParseJob.mem_shifts.mp hshift
    rw [hfinish, hj.terminals_finish, List.mem_singleton] at hx
    have hbehind := ParseJob.stateBehind?_of_shift ht haction
    rw [hx] at hbehind
    cases hbehind
  unfold Progress.shift at hreads
  dsimp only at hreads
  split at hreads
  · cases hreads
  · next hsome => exact hsome (List.isEmpty_iff.mpr hnone)

theorem Sound.shift (hs : s.Sound j) (hj : j.Ready) (ht : j.table.Canonical) :
    (s.shift j).2.Sound j := by
  obtain ⟨base, c, hfresh, hc⟩ := hs.whole.stack
  cases hreads : (s.shift j).1 with
  | false =>
    obtain ⟨marks, hsame⟩ := shift_of_false hreads
    rw [hsame]
    exact ⟨⟨hs.whole.stack, hs.whole.edges, hs.whole.regions, hs.whole.position_le⟩,
      hs.heads_ne_nil, hs.links, hs.filled⟩
  | true =>
    have hne := position_ne_finish_of_shift hj ht hfresh.standing hreads
    have hlt := Nat.lt_of_le_of_ne hs.whole.position_le hne
    have hE : j.ClosedUnderShift s.position c j.Links :=
      ParseJob.closedUnderShift_links hj ht hlt hc
    have hwithin := ParseJob.shift_within hE hfresh hs.links hreads
    rcases ParseJob.shift_spec hE hfresh.standing hs.links with
      ⟨hfalse, _⟩ | ⟨_, hsteps, hposition, hfresh', hlinks, hold, _, hjoined⟩
    · rw [hreads] at hfalse
      cases hfalse
    · refine ⟨hs.whole.shift hj hne, ?_, hlinks, fun i hi => ?_⟩
      · obtain ⟨step, hstep⟩ := List.exists_mem_of_ne_nil _ hsteps
        obtain ⟨i, hi, hlt, _⟩ := hjoined step hstep
        exact List.ne_nil_of_mem (hfresh'.mem_heads.mpr ⟨hi, hlt⟩)
      · rw [regions_shift]
        rcases hwithin.live hfresh' hi with ⟨hbase, hlt⟩ | ⟨hlt, hlive⟩
        · obtain ⟨hp, hcov⟩ := hfresh'.top i hbase hlt
          intro hgap
          rw [hp, hcov] at hgap
          exact absurd hgap (Nat.lt_irrefl _)
        · have hface : (s.shift j).2.stack.face i = s.stack.face i :=
            congrArg StackNode.face (hold i hlt)
          rw [hface]
          exact hs.filled i hlive

theorem Sound.insert [Limits] (hs : s.Sound j) {i : Insertion}
    (hi : i ∈ j.insertions s.stack s.position) : (s.insert j i).Sound j := by
  obtain ⟨base, c, hfresh, hc⟩ := hs.whole.stack
  obtain ⟨hstack, hposition, hregions, _⟩ := insert_spec j s i
  obtain ⟨hhead, hbehind⟩ := ParseJob.insertions_spec hi
  obtain ⟨hbase, hlt⟩ := hfresh.mem_heads.mp hhead
  obtain ⟨hp, hcov⟩ := hfresh.top _ hbase hlt
  have hwhole := hs.whole.upright.insert (j := j) hhead
  generalize hn : (⟨i.target, s.position, s.position, [⟨i.head, ⟨.missing (j.insertedKind i.symbol)
    i.grammar i.symbol, s.position, s.position⟩⟩]⟩ : StackNode) = n at hstack
  have hedge : ∀ e ∈ n.edges, e = ⟨i.head, ⟨.missing (j.insertedKind i.symbol) i.grammar i.symbol,
      s.position, s.position⟩⟩ := by
    intro e he
    rw [← hn] at he
    exact List.mem_singleton.mp he
  have hfresh' : (s.stack.pushOnly n).Fresh s.stack.nodes.size n.position n.covered :=
    hfresh.standing.pushOnly fun e he => by
      rw [hedge e he]
      exact hlt
  have hwithin : (s.stack.pushOnly n).Within s.stack.nodes.size s.stack.Live :=
    Stack.within_pushOnly (fun e he => by
      rw [hedge e he]
      exact Stack.live_of_mem_heads hhead) fun _ _ hlive he => hlive.below he
  refine ⟨hwhole, ?_, ?_, fun k hk => ?_⟩
  · rw [hstack]
    exact List.cons_ne_nil _ _
  · rw [hstack]
    refine hs.links.pushOnly hfresh.standing fun e he => ?_
    rw [hedge e he, ← hn]
    refine ⟨hlt, ⟨?_, Nat.le_refl _, rfl, ?_⟩, ?_, hp, Nat.le_refl _, hs.whole.position_le, _, rfl,
      hbehind⟩
    · show (s.stack.face i.head).covered ≤ s.position
      rw [hcov]
      exact hc
    · show j.table.Reads [_] (j.tokens.stretch s.position s.position)
      rw [TokenStream.stretch_self]
      exact .missing .nil
    · show (s.stack.face i.head).covered ≤ (s.stack.face i.head).position
      rw [hp, hcov]
      exact hc
  · rw [hstack] at hk ⊢
    rw [hregions]
    rcases hwithin.live hfresh' hk with ⟨hbase, hlt⟩ | ⟨hlt, hlive⟩
    · -- The new head is covered up to where it stands.
      obtain ⟨hp, hcov⟩ := hfresh'.top k hbase hlt
      intro hgap
      rw [hp, hcov, ← hn] at hgap
      exact absurd hgap (Nat.lt_irrefl _)
    · have hface : (s.stack.pushOnly n).face k = s.stack.face k :=
        Stack.face_pushOnly_of_lt hlt
      rw [hface]
      exact hs.filled k hlive

theorem Sound.skip [Limits] (hs : s.Sound j) (hj : j.Ready) (h : s.skip? j = some s') :
    s'.Sound j := by
  obtain ⟨base, c, hfresh, hc⟩ := hs.whole.stack
  obtain ⟨q, popped, k, rest, cause, hlt, hq, hchain, hstack, hposition, _, _, _, hregions⟩ :=
    skip_spec h
  have hlive : s.stack.Live k :=
    Stack.live_of_mem_chain (by rw [hchain]; exact List.mem_append_right _ List.mem_cons_self)
  have hcovered : (s.stack.face k).covered ≤ q := by
    obtain ⟨head, hhead, htrail⟩ := ParseJob.trail_of_chain hs.whole.edges hchain
    obtain ⟨hbase, hhlt⟩ := hfresh.mem_heads.mp hhead
    have hle := (ParseJob.fits_of_trail htrail).le
    rw [(hfresh.top _ hbase hhlt).2] at hle
    omega
  have hdown : ∀ e ∈ s.stack.edges k, e.below < s.stack.nodes.size := fun e he =>
    Nat.lt_trans (hfresh.down k e he).1 (Stack.lt_of_mem_edges he)
  have hfresh' := hfresh.standing.pushOnly
    (n := ⟨(s.stack.face k).state, q, (s.stack.face k).covered, s.stack.edges k⟩) hdown
  refine ⟨hs.whole.upright.skip hj h, ?_, ?_, fun i hi => ?_⟩
  · rw [hstack]
    exact List.cons_ne_nil _ _
  · -- The copy stands further behind, with the same state and the same cover.
    rw [hstack]
    refine hs.links.pushOnly hfresh.standing fun e he => ⟨hdown e he, ?_⟩
    obtain ⟨⟨hbelow, hfirst, hstop, hreads⟩, hbc, hfe, _, _, hsymbol⟩ := hs.links k e he
    exact ⟨⟨hbelow, hfirst, hstop, hreads⟩, hbc, hfe, hcovered, hq, hsymbol⟩
  · rw [hstack] at hi ⊢
    rw [hregions]
    unfold FilledAt
    show _ → ∃ r children, Regions.at? (⟨(s.stack.face k).covered, q, .error _⟩ :: s.regions) _ =
      some r ∧ _ ∧ _
    rw [at?_cons]
    -- Only what lies below the node that was kept is still live.
    have hwithin : (s.stack.pushOnly ⟨(s.stack.face k).state, q, (s.stack.face k).covered,
        s.stack.edges k⟩).Within s.stack.nodes.size fun b => ∃ n, s.stack.Path k (n + 1) b :=
      Stack.within_pushOnly (fun e he => ⟨0, e, he, rfl⟩)
        fun _ e ⟨n, hpath⟩ he => ⟨n + 1, hpath.trans (m := 1) ⟨e, he, rfl⟩⟩
    rcases hwithin.live hfresh' hi with ⟨hbase, hilt⟩ | ⟨hilt, n, hpath⟩
    · obtain ⟨hp, hcov⟩ := hfresh'.top i hbase hilt
      rw [hp, hcov]
      exact fun _ => ⟨_, _, if_pos rfl, rfl, rfl⟩
    · have hface : (s.stack.pushOnly ⟨(s.stack.face k).state, q, (s.stack.face k).covered,
          s.stack.edges k⟩).face i = s.stack.face i :=
        Stack.face_pushOnly_of_lt hilt
      have hle := position_le_of_path hs.links hpath
      rw [hface]
      intro hgap
      rw [if_neg (Nat.ne_of_gt (Nat.lt_of_lt_of_le hgap hle))]
      exact hs.filled i (hlive.path hpath) hgap

end Progress

end LayeredSyntax
