/-
  TURNS — what each of them needs of a stack, and what it leaves.

  A parse may have taken over any subtrees whatever, so nothing is known of what is on its edges but
  where it ends (`EndsCovered`), and after a subtree was given back there are nodes above the heads.
  That much is enough for a turn (`Progress.Poised`); to finish productions the stack has to be
  fresh as well, and it is, wherever nothing has been finished yet (`Progress.Paced`).

  Each of the things that a turn can do leads from the one to the other and keeps the pace
  (`Poised.takeOver`, `Poised.read`, `Poised.giveBack`, `Poised.insert`, `Poised.skip`).

  **The crux** is the checkpoint: the heads that it remembers go on standing side by side, as
  whatever is done up to when they are put back leaves all nodes below the new ones as they were.
-/
import LayeredSyntax.Parse.Run
import LayeredSyntax.Proofs.Parse.Pacing

namespace LayeredSyntax

/-- What is known of every subtree, wherever it comes from. -/
def EndsCovered (above _ : Face) (label : Label) : Prop := label.stop = above.covered

namespace ParseJob

variable {j : ParseJob} {regions : Regions} {p c : Nat}

theorem closed_endsCovered (ht : j.table.Canonical) : j.ClosedUnder regions p c EndsCovered := by
  intro bottom top pieces q target htrail _ hcovered hq hlength _
  have hne : pieces ≠ [] := List.length_pos_iff.mp (hlength ▸ rhs_length_pos ht hq)
  obtain ⟨first, hfirst⟩ := Option.isSome_iff_exists.mp (List.isSome_head?.mpr hne)
  obtain ⟨last, hlast⟩ := Option.isSome_iff_exists.mp (List.getLast?_isSome.mpr hne)
  obtain ⟨front, rfl⟩ := List.getLast?_eq_some_iff.mp hlast
  obtain ⟨_, _, hend⟩ := htrail.last
  have hstop : last.stop = c := Eq.trans hend hcovered
  rw [reduceLabel_eq hfirst hlast]
  exact ⟨hstop, hstop⟩

theorem closedUnderShift_endsCovered : j.ClosedUnderShift p c EndsCovered :=
  fun _ _ _ _ => rfl

end ParseJob

namespace Stack

variable {s : Stack} {i base p c : Nat}

/-- **The first way down ends**: its last node has no edges, whatever the numbers counted out. -/
theorem Standing.edges_of_getLast?_chain (hs : s.Standing p c) (h : s.chain.getLast? = some i) :
    s.edges i = [] := by
  have hchain : ∀ {fuel k : Nat}, k < fuel → ∀ i ∈ (s.chainFrom k fuel).getLast?,
      s.edges i = [] := by
    intro fuel
    induction fuel with
    | zero => exact fun hk => absurd hk (Nat.not_lt_zero _)
    | succ fuel ih =>
      intro k hk i hi
      unfold chainFrom at hi
      cases hedge : (s.node k).edges.head? with
      | none =>
        rw [hedge] at hi
        obtain rfl : k = i := Option.some.inj hi
        exact List.head?_eq_none_iff.mp hedge
      | some e =>
        have hlt := hs.down k e (List.mem_of_head? hedge)
        rw [hedge] at hi
        refine ih (Nat.lt_of_lt_of_le hlt (Nat.le_of_lt_succ hk)) i ?_
        obtain ⟨n, hn⟩ : ∃ n, fuel = n + 1 := ⟨fuel - 1, by omega⟩
        have hne : s.chainFrom e.below fuel ≠ [] := by
          rw [hn, chainFrom]
          split <;> exact List.cons_ne_nil _ _
        dsimp only at hi
        rwa [List.getLast?_cons_of_ne_nil hne] at hi
  unfold chain at h
  split at h
  · cases h
  · next head rest hheads =>
    refine hchain (hs.heads head ?_).1 i h
    rw [hheads]
    exact List.mem_cons_self

end Stack

namespace Progress

variable {j : ParseJob} {s s' : Progress} {floor : Nat}

/-- The pace of a parse with a floor. -/
def pace (s : Progress) (floor : Nat) : Pace :=
  ⟨s.position, floor, s.reuseFrom, s.lastInsertion, s.insertionsAtEnd, s.repairCount⟩

/-- **Whether a parse could go back to a checkpoint.** -/
structure Resumes (s : Progress) (floor : Nat) (c : Checkpoint) : Prop where
  stop_eq : c.stop = s.position
  first_lt : c.first < c.stop
  reuseFrom_le : s.reuseFrom ≤ c.first
  floor_le : floor ≤ c.first
  standing : ∃ covered, (⟨s.stack.nodes, c.heads, c.byState⟩ : Stack).Standing c.first covered

section

variable [Limits]

/-- **What a parse is like in the middle of a turn.** -/
structure Poised (j : ParseJob) (floor : Nat) (s : Progress) : Prop where
  standing : ∃ c, s.stack.Standing s.position c
  edges : s.stack.Edges EndsCovered
  pace : (s.pace floor).Ok j.finish
  checkpoint : ∀ c, s.checkpoint = some c → s.Resumes floor c

/-- **What a parse is like between turns.** -/
structure Paced (j : ParseJob) (floor : Nat) (s : Progress) : Prop where
  poised : s.Poised j floor
  fresh : s.settled = false → ∃ base c, s.stack.Fresh base s.position c

/-- Between turns, with everything finished at the position. -/
def settle (j : ParseJob) (s : Progress) : Progress := if s.settled then s else s.reduceAll j

/-- **Whether finishing productions comes to an end**: no task is left when it is over. -/
def Finishes (j : ParseJob) (s : Progress) : Prop :=
  (j.performAll s.regions s.position (j.begin s) (j.taskBound s.stack)).waiting = []

/-! ## Finishing productions -/

omit [Limits] in
/-- Heads go on standing while new nodes are put on top of the old ones. -/
theorem standing_of_kept (old : Stack) {new : Stack} {heads : List Nat}
    {byState : List (Nat × Nat)} {p c p' c' base : Nat}
    (h : (⟨old.nodes, heads, byState⟩ : Stack).Standing p c)
    (hle : old.nodes.size ≤ new.nodes.size) (hface : ∀ i < old.nodes.size, new.face i = old.face i)
    (hnew : new.Fresh base p' c') : (⟨new.nodes, heads, byState⟩ : Stack).Standing p c := by
  refine ⟨fun i hi => ?_, fun i e he => (hnew.down i e he).1⟩
  obtain ⟨hlt, hp, hc⟩ := h.heads i hi
  have hsame : (⟨new.nodes, heads, byState⟩ : Stack).face i = old.face i := hface i hlt
  rw [hsame]
  exact ⟨Nat.lt_of_lt_of_le hlt hle, hp, hc⟩

theorem Paced.settle (hs : s.Paced j floor) (ht : j.table.Canonical) :
    (s.settle j).Poised j floor := by
  unfold Progress.settle
  split
  · exact hs.poised
  · next hsettled =>
    obtain ⟨base, c, hfresh⟩ := hs.fresh (Bool.eq_false_iff.mpr hsettled)
    obtain ⟨hfresh', hedges, hkept⟩ := ParseJob.reduceAll_fresh ht
      (ParseJob.closed_endsCovered ht) hfresh hs.poised.edges
    refine ⟨⟨c, hfresh'.standing⟩, hedges, hs.poised.pace, fun check hcheck => ?_⟩
    obtain ⟨hstop, hfirst, hreuse, hfloor, covered, hstanding⟩ := hs.poised.checkpoint check hcheck
    exact ⟨hstop, hfirst, hreuse, hfloor, covered,
      standing_of_kept _ hstanding hkept.size_le hkept.face hfresh'⟩

theorem Paced.finishes (hs : s.Paced j floor) (ht : j.table.Canonical)
    (hsettled : s.settled = false) : s.Finishes j := by
  obtain ⟨base, c, hfresh⟩ := hs.fresh hsettled
  exact (ParseJob.performAll_begin ht (ParseJob.closed_endsCovered ht) hfresh hs.poised.edges).1

end

theorem pace_settle (j : ParseJob) (s : Progress) (floor : Nat) :
    (s.settle j).pace floor = s.pace floor := by
  unfold Progress.settle
  split <;> rfl

/-! ## Taking over and giving back -/

/-- The head that alone can read a token is a head. -/
theorem mem_of_soleReader? {stack : Stack} {p head : Nat}
    (h : j.soleReader? stack p = some head) : head ∈ stack.heads := by
  unfold ParseJob.soleReader? at h
  split at h
  · split at h
    · next only honly =>
      split at h
      · obtain rfl := Option.some.inj h
        have hin : only ∈ [only] := List.mem_singleton.mpr rfl
        rw [← honly] at hin
        exact (List.mem_filter.mp hin).1
      · cases h
    · cases h
  · cases h

/-- A subtree that is put on a state holds a token and ends within the text. -/
theorem of_behind? {state p target stop : Nat} {n : Node}
    (h : j.behind? state p n = some (target, stop)) :
    stop = p + n.tokenCount ∧ p < stop ∧ stop ≤ j.finish := by
  unfold ParseJob.behind? at h
  split at h
  · split at h
    · obtain ⟨_, _, h⟩ := Option.bind_eq_some_iff.mp h
      dsimp only at h
      split at h
      · cases h
      · next hno =>
        cases h
        simp only [Bool.or_eq_true, decide_eq_true_eq, beq_iff_eq, not_or] at hno
        exact ⟨rfl, by omega, by omega⟩
    · cases h
  · cases h

variable [Limits]

/-- What taking a subtree over does. -/
theorem takeOver_spec (h : s.takeOver? j = some s') : ∃ head node target stop,
    s.reuseFrom ≤ s.position ∧ head ∈ s.stack.heads ∧
    (∃ x ∈ j.reuse, node ∈ x.candidatesAt s.position) ∧ stop = s.position + node.tokenCount ∧
    s.position < stop ∧ stop ≤ j.finish ∧
    s' = { s with
      stack := s.stack.pushOnly ⟨target, stop, stop, [⟨head, ⟨node, s.position, stop⟩⟩]⟩
      position := stop
      settled := false
      reused := s.reused + 1
      checkpoint := some ⟨s.position, stop, s.stack.heads, s.stack.byState⟩
      events := reuseEvent node s.position :: s.events } := by
  unfold takeOver? at h
  obtain ⟨index, hindex, h⟩ := Option.bind_eq_some_iff.mp h
  obtain ⟨_, hreuse, h⟩ := Option.bind_eq_some_iff.mp h
  obtain ⟨_, _, h⟩ := Option.bind_eq_some_iff.mp h
  obtain ⟨head, hhead, h⟩ := Option.bind_eq_some_iff.mp h
  obtain ⟨taken, hfound, h⟩ := Option.bind_eq_some_iff.mp h
  obtain ⟨node, hnode, hsome⟩ := List.exists_of_findSome?_eq_some hfound
  obtain ⟨⟨target, stop⟩, hbehind, rfl⟩ := Option.map_eq_some_iff.mp hsome
  obtain ⟨hstop, hlt, hle⟩ := of_behind? hbehind
  have hguard : s.reuseFrom ≤ s.position := by
    by_contra hnot
    rw [guard, if_neg hnot] at hreuse
    cases hreuse
  cases h
  exact ⟨head, node, target, stop, hguard, mem_of_soleReader? hhead, ⟨index, hindex, hnode⟩, hstop,
    hlt, hle, rfl⟩

theorem Poised.takeOver (hs : s.Poised j floor) (h : s.takeOver? j = some s') :
    s'.Paced j floor ∧ Pace.Next j.finish .takeOver (s.pace floor) (s'.pace floor) := by
  obtain ⟨head, node, target, stop, hreuse, hhead, _, _, hlt, hle, rfl⟩ := takeOver_spec h
  obtain ⟨c, hstanding⟩ := hs.standing
  have hnext : Pace.Next j.finish .takeOver (s.pace floor)
      { s.pace floor with position := stop } := .takeOver hlt hle
  have hbelow : ∀ e ∈ [Edge.mk head ⟨node, s.position, stop⟩], e.below < s.stack.nodes.size := by
    intro e he
    obtain rfl := List.mem_singleton.mp he
    exact (hstanding.heads head hhead).1
  have hfresh := hstanding.pushOnly (n := ⟨target, stop, stop, _⟩) hbelow
  refine ⟨⟨⟨⟨stop, hfresh.standing⟩, ?_, hnext.ok hs.pace, fun check hcheck => ?_⟩,
    fun _ => ⟨_, stop, hfresh⟩⟩, hnext⟩
  · refine hs.edges.pushOnly hstanding fun e he => ⟨hbelow e he, ?_⟩
    obtain rfl := List.mem_singleton.mp he
    rfl
  · -- The heads that are remembered are those in front of the subtree.
    obtain rfl := Option.some.inj hcheck
    refine ⟨rfl, hlt, hreuse, hs.pace.floor_le, c, ?_⟩
    refine standing_of_kept s.stack hstanding ?_ (fun i hi => ?_) hfresh
    · show s.stack.nodes.size ≤ (s.stack.nodes.push _).size
      rw [Array.size_push]
      exact Nat.le_succ _
    · exact Stack.face_pushOnly_of_lt hi

/-- What giving a subtree back does. -/
theorem giveBack_spec (h : s.giveBack? = some s') : ∃ c, s.checkpoint = some c ∧
    s' = { s with
      stack := { s.stack with heads := c.heads, byState := c.byState }
      position := c.first
      settled := true
      reused := s.reused - 1
      checkpoint := none
      reuseFrom := c.stop
      events := abandonEvent c.first c.stop :: s.events } := by
  unfold giveBack? at h
  obtain ⟨c, hc, h⟩ := Option.bind_eq_some_iff.mp h
  obtain ⟨_, _, h⟩ := Option.bind_eq_some_iff.mp h
  cases h
  exact ⟨c, hc, rfl⟩

theorem Poised.giveBack (hs : s.Poised j floor) (h : s.giveBack? = some s') :
    s'.Paced j floor ∧ Pace.Next j.finish .giveBack (s.pace floor) (s'.pace floor) := by
  obtain ⟨c, hc, rfl⟩ := giveBack_spec h
  obtain ⟨hstop, hfirst, hreuse, hfloor, covered, hstanding⟩ := hs.checkpoint c hc
  have hnext : Pace.Next j.finish .giveBack (s.pace floor)
      { s.pace floor with position := c.first, reuseFrom := s.position } :=
    .giveBack (show c.first < s.position by omega) hreuse hfloor
  rw [← hstop] at hnext
  exact ⟨⟨⟨⟨covered, hstanding⟩, hs.edges, hnext.ok hs.pace, fun _ h => by cases h⟩,
    fun h => by cases h⟩, hnext⟩

/-! ## Reading -/

theorem Poised.halt (hs : s.Poised j floor) (h : (s.shift j).1 = false) :
    (s.shift j).2.Poised j floor ∧ (s.shift j).2.pace floor = s.pace floor := by
  obtain ⟨marks, hmarks⟩ := shift_of_false h
  rw [hmarks]
  refine ⟨⟨hs.standing, hs.edges, hs.pace, fun c hc => ?_⟩, rfl⟩
  obtain ⟨hstop, hfirst, hreuse, hfloor, hstanding⟩ := hs.checkpoint c hc
  exact ⟨hstop, hfirst, hreuse, hfloor, hstanding⟩

theorem Poised.read (hs : s.Poised j floor) (hne : s.position ≠ j.finish)
    (h : (s.shift j).1 = true) : (s.shift j).2.Paced j floor ∧
      Pace.Next j.finish .read (s.pace floor) ((s.shift j).2.pace floor) := by
  obtain ⟨c, hstanding⟩ := hs.standing
  have hnext : Pace.Next j.finish .read (s.pace floor)
      { s.pace floor with position := s.position + 1 } :=
    .read (Nat.lt_of_le_of_ne hs.pace.position_le hne)
  rcases ParseJob.shift_spec ParseJob.closedUnderShift_endsCovered hstanding hs.edges with
    ⟨hfalse, _⟩ | ⟨_, _, hposition, hfresh, hedges, _⟩
  · rw [h] at hfalse
    cases hfalse
  · have hpace : (s.shift j).2.pace floor = { s.pace floor with position := s.position + 1 } := by
      obtain ⟨stack, marks, hshift⟩ := shift_of_true h
      rw [hshift]
      rfl
    have hcheck : (s.shift j).2.checkpoint = none := by
      obtain ⟨stack, marks, hshift⟩ := shift_of_true h
      rw [hshift]
    rw [← hposition] at hfresh
    rw [← hpace] at hnext
    refine ⟨⟨⟨⟨_, hfresh.standing⟩, hedges, hnext.ok hs.pace, fun c hc => ?_⟩,
      fun _ => ⟨_, _, hfresh⟩⟩, hnext⟩
    rw [hcheck] at hc
    cases hc

/-! ## Repairs -/

/-- Where a parse is repaired, the checkpoint is used up. -/
def givenUp (s : Progress) : Progress := { s with checkpoint := none }

theorem insert_counts (j : ParseJob) (s : Progress) (i : Insertion) :
    (s.insert j i).reuseFrom = s.reuseFrom ∧
    (s.insert j i).lastInsertion =
      (if s.position = j.finish then s.lastInsertion else some s.position) ∧
    (s.insert j i).insertionsAtEnd =
      if s.position = j.finish then s.insertionsAtEnd + 1 else s.insertionsAtEnd := by
  unfold insert
  dsimp only
  split <;> exact ⟨rfl, rfl, rfl⟩

theorem skip_counts (h : s.skip? j = some s') : s'.reuseFrom = s.reuseFrom ∧
    s'.lastInsertion = s.lastInsertion ∧ s'.insertionsAtEnd = s.insertionsAtEnd := by
  obtain ⟨q, popped, k, marks, events, _, rfl⟩ := eq_of_skip? h
  exact ⟨rfl, rfl, rfl⟩

theorem Poised.insert (hs : s.Poised j floor) {i : Insertion} (hmay : s.mayInsert j = true)
    (hlimit : s.repairCount < Limits.repairs) (hi : i ∈ j.insertions s.stack s.position) :
    (s.givenUp.counted.insert j i).Paced j s.position ∧
      Pace.Next j.finish .insert (s.pace floor)
        ((s.givenUp.counted.insert j i).pace s.position) := by
  obtain ⟨c, hstanding⟩ := hs.standing
  obtain ⟨hstack, hposition, _, _, hcheck, hcount⟩ := insert_spec j s.givenUp.counted i
  obtain ⟨hreuse, hlast, hend⟩ := insert_counts j s.givenUp.counted i
  have hhead := (ParseJob.insertions_spec hi).1
  have hbelow : ∀ e ∈ [Edge.mk i.head ⟨.missing (j.insertedKind i.symbol) i.grammar i.symbol,
      s.position, s.position⟩], e.below < s.stack.nodes.size := by
    intro e he
    obtain rfl := List.mem_singleton.mp he
    exact (hstanding.heads _ hhead).1
  have hfresh := hstanding.pushOnly (n := ⟨i.target, s.position, s.position, _⟩) hbelow
  -- In front of a token this is the first symbol that is made up, and at the end one of a few.
  have hnext : Pace.Next j.finish .insert (s.pace floor)
      ((s.givenUp.counted.insert j i).pace s.position) := by
    unfold mayInsert at hmay
    unfold Progress.pace
    rw [hposition, hreuse, hlast, hend, hcount]
    by_cases hfinish : s.position = j.finish
    · have hat : s.givenUp.counted.position = j.finish := hfinish
      rw [if_pos hfinish] at hmay
      rw [if_pos hat, if_pos hat]
      exact .insertAtEnd hfinish (of_decide_eq_true hmay) hlimit
    · have hat : s.givenUp.counted.position ≠ j.finish := hfinish
      rw [if_neg hfinish] at hmay
      rw [if_neg hat, if_neg hat]
      exact .insert (Nat.lt_of_le_of_ne hs.pace.position_le hfinish) (bne_iff_ne.mp hmay) hlimit
  refine ⟨⟨⟨⟨s.position, ?_⟩, ?_, hnext.ok hs.pace, fun c hc => ?_⟩, fun _ =>
    ⟨s.stack.nodes.size, s.position, ?_⟩⟩, hnext⟩
  · rw [hstack, hposition]
    exact hfresh.standing
  · rw [hstack]
    refine hs.edges.pushOnly hstanding fun e he => ⟨hbelow e he, ?_⟩
    obtain rfl := List.mem_singleton.mp he
    rfl
  · rw [hcheck] at hc
    cases hc
  · rw [hstack, hposition]
    exact hfresh

theorem Poised.skip (hs : s.Poised j floor) (hlimit : s.repairCount < Limits.repairs)
    (h : s.givenUp.counted.skip? j = some s') :
    s'.Paced j s'.position ∧ Pace.Next j.finish .skip (s.pace floor) (s'.pace s'.position) := by
  obtain ⟨c, hstanding⟩ := hs.standing
  obtain ⟨q, popped, k, rest, cause, hlt, hle, hchain, hstack, hposition, _, hcheck, hcount, _⟩ :=
    skip_spec h
  obtain ⟨hreuse, hlast, hend⟩ := skip_counts h
  have hdown : ∀ e ∈ s.stack.edges k, e.below < s.stack.nodes.size := fun e he =>
    Nat.lt_trans (hstanding.down k e he) (Stack.lt_of_mem_edges he)
  have hfresh := hstanding.pushOnly
    (n := ⟨(s.stack.face k).state, q, (s.stack.face k).covered, s.stack.edges k⟩) hdown
  have hnext : Pace.Next j.finish .skip (s.pace floor) (s'.pace s'.position) := by
    unfold Progress.pace
    rw [hposition, hreuse, hlast, hend, hcount]
    exact .skip (a := s.pace floor) hlt hle hlimit
  refine ⟨⟨⟨⟨(s.stack.face k).covered, ?_⟩, ?_, hnext.ok hs.pace, fun c hc => ?_⟩, fun _ =>
    ⟨s.stack.nodes.size, (s.stack.face k).covered, ?_⟩⟩, hnext⟩
  · rw [hstack, hposition]
    exact hfresh.standing
  · rw [hstack]
    exact hs.edges.pushOnly hstanding fun e he => ⟨hdown e he, hs.edges k e he⟩
  · rw [hcheck] at hc
    cases hc
  · rw [hstack, hposition]
    exact hfresh

end Progress

end LayeredSyntax
