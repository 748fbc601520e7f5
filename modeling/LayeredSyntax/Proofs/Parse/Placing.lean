/-
  SUBTREE BY SUBTREE — how to know something of a stack while subtrees are put on it.

  What holds of all edges by the faces of their ends is known from `reduceAll_fresh` and
  `shift_spec`.  Where the number of a node counts, or which nodes can be reached, this is not
  enough.  Then two things are asked of what is to be kept, and no more:

  1. While productions are finished, every way down from a head is of some kind, and a subtree over
     a way of that kind can be put on (`ParseJob.KeptByPlacing`).
  2. While a token is read, a leaf can be put on a head.

  **What is kept in each of these steps is kept by all of them** (`reduceAll_rule`, `shift_rule`).
-/
import LayeredSyntax.Proofs.Parse.Shifting

namespace LayeredSyntax

namespace ParseJob

variable {j : ParseJob} {p q base c : Nat} {E : Face → Face → Label → Prop} {regions : Regions}
  {K : Stack → Prop} {W : Nat × List Label → Prop} {r : Reducing}

/-! ## Finishing productions -/

/-- **Whether something is kept while productions are finished**, along ways of a kind. -/
structure KeptByPlacing (j : ParseJob) (regions : Regions) (p base c : Nat)
    (E : Face → Face → Label → Prop) (K : Stack → Prop) (W : Nat × List Label → Prop) : Prop where
  /-- The ways down from the heads are of the kind. -/
  ways : ∀ {r : Reducing} {head n : Nat} {way : Nat × List Label}, r.Ok j p base c E →
    K r.stack → head ∈ r.stack.heads → way ∈ r.stack.ways [] head n → way.1 < base → W way
  /-- A subtree over a way of the kind can be put on. -/
  place : ∀ {r : Reducing} {q target : Nat} {way : Nat × List Label}, r.Ok j p base c E →
    K r.stack → Way j p base c E q r way → W way →
    j.table.goto? (r.stack.face way.1).state (j.table.production q).lhs = some target →
    K (r.stack.placed p way.1 target (j.reduceLabel regions q (r.stack.face way.1).state way.2).1)

theorem reduceAlong_rule (hK : j.KeptByPlacing regions p base c E K W) (hr : r.Ok j p base c E)
    (h : K r.stack) {way : Nat × List Label} (hway : Way j p base c E q r way) (hW : W way) :
    K (j.reduceAlong regions p q r way).stack := by
  rcases reduceAlong_cases j regions p q r way with ⟨_, heq⟩ | ⟨target, work, hgoto, heq⟩
  · rw [heq]
    exact h
  · have hr' : Reducing.Ok j p base c E { r with assembled := r.assembled + work } :=
      ⟨hr.fresh, hr.edges, hr.tasks⟩
    obtain ⟨_, hstack, _⟩ := place_spec j hr'.fresh way.1 target
      (j.reduceLabel regions q (r.stack.face way.1).state way.2).1
    rw [heq, hstack]
    exact hK.place hr' h ⟨hway.bottom_lt, hway.trail, hway.length⟩ hW hgoto

theorem foldl_reduceAlong_rule (hK : j.KeptByPlacing regions p base c E K W)
    (hE : j.ClosedUnder regions p c E) (ways : List (Nat × List Label)) :
    ∀ r : Reducing, r.Ok j p base c E → K r.stack →
      (∀ way ∈ ways, Way j p base c E q r way ∧ W way) →
      K (ways.foldl (j.reduceAlong regions p q) r).stack := by
  induction ways with
  | nil => exact fun r _ h _ => h
  | cons way ways ih =>
    intro r hr h hways
    obtain ⟨hway, hW⟩ := hways way List.mem_cons_self
    obtain ⟨hok, hkept, _⟩ := reduceAlong_ok hE hr hway
    refine ih _ hok (reduceAlong_rule hK hr h hway hW) fun way' hway' => ?_
    obtain ⟨hold, hW'⟩ := hways way' (List.mem_cons_of_mem _ hway')
    exact ⟨hold.kept hr hkept, hW'⟩

/-- Seeing to a task keeps what is kept. -/
theorem perform_rule (hK : j.KeptByPlacing regions p base c E K W) (ht : j.table.Canonical)
    (hE : j.ClosedUnder regions p c E) (hr : r.Ok j p base c E) (h : K r.stack) {t : ReduceTask}
    (htask : t ∈ r.tasks.toList) : K (j.perform regions p r t).stack := by
  rw [perform_eq]
  refine foldl_reduceAlong_rule hK hE _ _ ⟨hr.fresh, hr.edges, hr.tasks⟩ h fun way hway => ?_
  have hgood := way_of_mem_waysOf ht hr htask hway
  obtain ⟨hbase, hlt, _⟩ := hr.tasks t htask
  exact ⟨⟨hgood.bottom_lt, hgood.trail, hgood.length⟩,
    hK.ways hr h (hr.fresh.mem_heads.mpr ⟨hbase, hlt⟩) (mem_ways_of_mem_waysOf hway)
      hgood.bottom_lt⟩

theorem performAll_rule (hK : j.KeptByPlacing regions p base c E K W) (ht : j.table.Canonical)
    (hE : j.ClosedUnder regions p c E) (fuel : Nat) :
    ∀ r : Reducing, r.Ok j p base c E → K r.stack →
      K (j.performAll regions p r fuel).stack := by
  induction fuel with
  | zero => exact fun r _ h => h
  | succ fuel ih =>
    intro r hr h
    unfold performAll
    split
    · exact h
    · next t ht' =>
      have hr' : Reducing.Ok j p base c E { r with begun := r.begun + 1 } :=
        ⟨hr.fresh, hr.edges, hr.tasks⟩
      have htask := Array.mem_toList_iff.mpr (Array.mem_of_getElem? ht')
      exact ih _ (perform_ok ht hE hr' htask).1 (perform_rule hK ht hE hr' h htask)

/-- **The rule of finishing everything.** -/
theorem reduceAll_rule {s : Progress} (hK : j.KeptByPlacing s.regions s.position base c E K W)
    (ht : j.table.Canonical) (hE : j.ClosedUnder s.regions s.position c E)
    (hs : s.stack.Fresh base s.position c) (hedges : s.stack.Edges E) (h : K s.stack) :
    K (s.reduceAll j).stack := by
  have hbegin : (j.begin s).stack = s.stack := by rw [begin_eq]
  refine performAll_rule hK ht hE (j.taskBound s.stack) (j.begin s) (begin_ok hs hedges) ?_
  rw [hbegin]
  exact h

/-! ## Reading a token -/

variable {old : Stack}

theorem foldl_shiftTo_rule (hE : j.ClosedUnderShift p c E)
    (hplace : ∀ {s : Shifting} {head x target target' : Nat}, s.Ok j p old E → K s.stack →
      head ∈ old.heads →
      K (s.stack.placed (p + 1) head target ⟨j.leaf p x target', p, p + 1⟩))
    (steps : List (Nat × (Nat × Nat))) : ∀ s : Shifting, s.Ok j p old E → K s.stack →
      (∀ step ∈ steps, step.1 ∈ old.heads ∧ j.Reads p c old step) →
      K (steps.foldl (fun r step => j.shiftTo p step.1 r step.2) s).stack := by
  induction steps with
  | nil => exact fun s _ h _ => h
  | cons step steps ih =>
    intro s hs h hsteps
    obtain ⟨hhead, hstep⟩ := hsteps step List.mem_cons_self
    refine ih _ (shiftTo_ok hE hs hstep).1 ?_ fun step' h' =>
      hsteps step' (List.mem_cons_of_mem _ h')
    obtain ⟨_, _, _, hstack, _⟩ := shiftTo_stack hs.leaves hstep.2.2.2
    rw [hstack]
    exact hplace hs h hhead

/-- **The rule of reading a token.** -/
theorem shift_rule {s : Progress} (hE : j.ClosedUnderShift s.position c E)
    (hs : s.stack.Fresh base s.position c) (hedges : s.stack.Edges E)
    (hplace : ∀ {r : Shifting} {head x target target' : Nat}, r.Ok j s.position s.stack E →
      K r.stack → head ∈ s.stack.heads → K (r.stack.placed (s.position + 1) head target
        ⟨j.leaf s.position x target', s.position, s.position + 1⟩))
    (h : K ⟨s.stack.nodes, [], []⟩) (hreads : (s.shift j).1 = true) :
    K (s.shift j).2.stack := by
  have hstart : (⟨⟨s.stack.nodes, [], []⟩, []⟩ : Shifting).Ok j s.position s.stack E :=
    ⟨fresh_without_heads hs.standing, fun i e he => hedges i e he,
      fun _ hi hlt => absurd hlt (Nat.not_lt.mpr hi), fun _ _ => rfl, fun x node h => by cases h⟩
  have hstack : (if j.isAmbiguous s.stack s.position then s.mark s.position else s).stack =
      s.stack := by split <;> rfl
  have hfold := foldl_shiftTo_rule hE hplace (j.stepsAt s.stack s.position) _ hstart h
    fun step h => (mem_stepsAt hs.standing).mp h
  unfold Progress.shift at hreads ⊢
  dsimp only at hreads ⊢
  rw [hstack] at hreads ⊢
  split
  · next hempty =>
    rw [if_pos hempty] at hreads
    cases hreads
  · exact hfold

end ParseJob

end LayeredSyntax
