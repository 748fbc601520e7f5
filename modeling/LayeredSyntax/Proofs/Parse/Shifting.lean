/-
  READING A TOKEN — what is kept while the heads go on to the next position.

  Reading a token puts leaves between the heads and the heads at the next position, so it is made of
  the same change as finishing productions (`shiftTo_stack`).  The old heads are older nodes then.

  1. The stack is fresh again, one position further, and its edges go on satisfying whatever holds
     of the new leaves (`ParseJob.ClosedUnderShift`).
  2. **Every way of reading the token is taken**: for each there is a head at the next position that
     has an edge to the head that read it (`shift_spec`).
-/
import LayeredSyntax.Parse.Shift
import LayeredSyntax.Proofs.Parse.Reducing

namespace LayeredSyntax

namespace ParseJob

variable {j : ParseJob} {p base c : Nat} {E : Face → Face → Label → Prop}

theorem mem_shifts {state : Nat} {step : Nat × Nat} : step ∈ j.shifts state p ↔
    step.1 ∈ j.terminalsAt p ∧ .shift step.2 ∈ j.table.actionsAt state step.1 := by
  unfold shifts
  rw [List.mem_flatMap]
  constructor
  · rintro ⟨x, hx, h⟩
    obtain ⟨a, ha, h⟩ := List.mem_filterMap.mp h
    cases a with
    | shift m =>
      cases h
      exact ⟨hx, ha⟩
    | reduce q => cases h
    | accept => cases h
  · rintro ⟨hx, h⟩
    exact ⟨step.1, hx, List.mem_filterMap.mpr ⟨_, h, rfl⟩⟩

theorem production?_leaf (j : ParseJob) (p x target : Nat) :
    (j.leaf p x target).production? = none := by
  unfold leaf
  dsimp only
  split <;> rfl

/-- **Whether a property of edges holds of the leaves** of the token of a position that is covered
    up to `c`. -/
def ClosedUnderShift (j : ParseJob) (p c : Nat) (E : Face → Face → Label → Prop) : Prop :=
  ∀ {bottom : Face} {x target target' state : Nat}, bottom.position = p → bottom.covered = c →
    (x, target) ∈ j.shifts bottom.state p → (x, target') ∈ j.shifts state p →
    E ⟨target, p + 1, p + 1⟩ bottom ⟨j.leaf p x target', p, p + 1⟩


/-- Whether the leaves made so far are leaves of the token. -/
def LeavesFit (j : ParseJob) (p : Nat) (leaves : List (Nat × Node)) : Prop :=
  ∀ x node, leaves.lookup x = some node →
    ∃ state target, (x, target) ∈ j.shifts state p ∧ node = j.leaf p x target

/-- **Reading a token at a head puts a leaf on it.** -/
theorem shiftTo_stack {s : Shifting} {head state x target : Nat}
    (hleaves : j.LeavesFit p s.leaves) (hstep : (x, target) ∈ j.shifts state p) :
    ∃ state' target', (x, target') ∈ j.shifts state' p ∧
      (j.shiftTo p head s (x, target)).stack =
        s.stack.placed (p + 1) head target ⟨j.leaf p x target', p, p + 1⟩ ∧
      j.LeavesFit p (j.shiftTo p head s (x, target)).leaves := by
  -- The leaf is an older one of the same terminal, or a new one.
  have hnode : ∃ state' target', (x, target') ∈ j.shifts state' p ∧
      (s.leaves.lookup x).getD (j.leaf p x target) = j.leaf p x target' := by
    cases hlook : s.leaves.lookup x with
    | none => exact ⟨state, target, hstep, rfl⟩
    | some node => exact hleaves x node hlook
  obtain ⟨state', target', hshift, hnode⟩ := hnode
  refine ⟨state', target', hshift, ?_, ?_⟩
  · have hwins : ∀ old : Label,
        winsOver ⟨j.leaf p x target', p, p + 1⟩ old = false := by
      intro old
      unfold winsOver
      dsimp only
      rw [production?_leaf]
    unfold shiftTo Stack.placed
    dsimp only
    rw [hnode]
    cases hhead : s.stack.headIn? target with
    | none => rfl
    | some next =>
      dsimp only
      cases hedge : s.stack.edge? next head with
      | none => rfl
      | some e =>
        dsimp only
        rw [hwins]
        rfl
  · intro y node hy
    unfold shiftTo at hy
    dsimp only at hy
    split at hy
    · exact hleaves y node hy
    · rw [List.lookup_cons] at hy
      split at hy
      · next heq =>
        cases hy
        rw [eq_of_beq heq]
        exact ⟨state', target', hshift, hnode⟩
      · exact hleaves y node hy

/-- The heads of a stack, taken down. -/
theorem fresh_without_heads {s : Stack} (hs : s.Standing p c) :
    (⟨s.nodes, [], []⟩ : Stack).Fresh s.nodes.size (p + 1) (p + 1) := by
  refine ⟨Nat.le_refl _, ?_, fun i hi hlt => absurd hlt (Nat.not_lt.mpr hi),
    fun i k hi hilt _ _ _ => absurd hilt (Nat.not_lt.mpr hi), fun i e he => ?_,
    fun state i => ?_⟩
  · show [] = List.range' s.nodes.size (s.nodes.size - s.nodes.size)
    rw [Nat.sub_self]
    rfl
  · have hlt := Stack.lt_of_mem_edges he
    exact ⟨hs.down i e he, fun hi => absurd hlt (Nat.not_lt.mpr hi)⟩
  · constructor
    · intro h
      cases h
    · rintro ⟨hi, hlt, _⟩
      exact absurd hlt (Nat.not_lt.mpr hi)

end ParseJob

/-- **What is kept while a token is read at the heads of a stack.** -/
structure Shifting.Ok (j : ParseJob) (p : Nat) (old : Stack) (E : Face → Face → Label → Prop)
    (s : Shifting) : Prop where
  fresh : s.stack.Fresh old.nodes.size (p + 1) (p + 1)
  edges : s.stack.Edges E
  new : ∀ i, old.nodes.size ≤ i → i < s.stack.nodes.size → s.stack.edges i ≠ []
  old : ∀ i < old.nodes.size, s.stack.node i = old.node i
  leaves : j.LeavesFit p s.leaves

namespace ParseJob

variable {j : ParseJob} {p base c : Nat} {E : Face → Face → Label → Prop} {old : Stack}

/-- A head and a way of reading the token at it. -/
def Reads (j : ParseJob) (p c : Nat) (old : Stack) (step : Nat × (Nat × Nat)) : Prop :=
  step.1 < old.nodes.size ∧ (old.face step.1).position = p ∧ (old.face step.1).covered = c ∧
    step.2 ∈ j.shifts (old.face step.1).state p

theorem shiftTo_ok {s : Shifting} (hE : j.ClosedUnderShift p c E) (hs : s.Ok j p old E)
    {step : Nat × (Nat × Nat)} (hstep : j.Reads p c old step) :
    (j.shiftTo p step.1 s step.2).Ok j p old E ∧
      (j.shiftTo p step.1 s step.2).stack.Joined old.nodes.size ⟨step.2.2, p + 1, p + 1⟩ step.1 ∧
      ∀ f b, s.stack.Joined old.nodes.size f b →
        (j.shiftTo p step.1 s step.2).stack.Joined old.nodes.size f b := by
  obtain ⟨head, x, target⟩ := step
  obtain ⟨hlt, hp, hc, hshift⟩ := hstep
  obtain ⟨state', target', hshift', hstack, hleaves⟩ := shiftTo_stack hs.leaves hshift
  have hface : s.stack.face head = old.face head := congrArg StackNode.face (hs.old head hlt)
  have hnew := hE hp hc hshift hshift'
  dsimp only at hlt hstack hnew ⊢
  rw [← hface] at hnew
  rw [hstack]
  have hkept := hs.fresh.kept_placed head target ⟨j.leaf p x target', p, p + 1⟩
  refine ⟨⟨hstack ▸ hs.fresh.placed hlt rfl, ?_, fun i hi hilt => ?_, fun i hi => ?_, hleaves⟩,
    hs.fresh.joined_placed rfl, fun f b h => h.kept hkept⟩
  · rw [hstack]
    exact hs.edges.placed hs.fresh hlt rfl hnew
  · rw [hstack] at hilt ⊢
    rcases Nat.lt_or_ge i s.stack.nodes.size with hold | hnew
    · exact hkept.edges_ne_nil (hs.new i hi hold)
    · exact hkept.new i hnew hilt
  · rw [hstack, hs.fresh.node_placed_of_lt hi]
    exact hs.old i hi

/-- Reading a token at several heads. -/
theorem foldl_shiftTo_ok (hE : j.ClosedUnderShift p c E) (steps : List (Nat × (Nat × Nat))) :
    ∀ s : Shifting, s.Ok j p old E → (∀ step ∈ steps, j.Reads p c old step) →
      let r := steps.foldl (fun r step => j.shiftTo p step.1 r step.2) s
      r.Ok j p old E ∧ (∀ f b, s.stack.Joined old.nodes.size f b →
          r.stack.Joined old.nodes.size f b) ∧
        ∀ step ∈ steps, r.stack.Joined old.nodes.size ⟨step.2.2, p + 1, p + 1⟩ step.1 := by
  induction steps with
  | nil =>
    intro s hs _
    exact ⟨hs, fun _ _ h => h, fun step h => absurd h List.not_mem_nil⟩
  | cons step steps ih =>
    intro s hs hsteps
    obtain ⟨hok, hjoined, hkeep⟩ := shiftTo_ok hE hs (hsteps step List.mem_cons_self)
    obtain ⟨hok', hkeep', hjoined'⟩ := ih _ hok fun step' h =>
      hsteps step' (List.mem_cons_of_mem _ h)
    refine ⟨hok', fun f b h => hkeep' f b (hkeep f b h), fun step' h => ?_⟩
    rcases List.mem_cons.mp h with rfl | h
    · exact hkeep' _ _ hjoined
    · exact hjoined' step' h

/-- The ways of reading the token of a position at the heads. -/
def stepsAt (j : ParseJob) (s : Stack) (p : Nat) : List (Nat × (Nat × Nat)) :=
  s.heads.flatMap fun head => (j.shifts (s.state head) p).map (head, ·)

theorem mem_stepsAt {s : Stack} (hs : s.Standing p c) {step : Nat × (Nat × Nat)} :
    step ∈ j.stepsAt s p ↔ step.1 ∈ s.heads ∧ j.Reads p c s step := by
  unfold stepsAt Reads
  rw [List.mem_flatMap]
  constructor
  · rintro ⟨head, hhead, h⟩
    obtain ⟨step', hstep', rfl⟩ := List.mem_map.mp h
    obtain ⟨hlt, hp, hc⟩ := hs.heads head hhead
    exact ⟨hhead, hlt, hp, hc, hstep'⟩
  · rintro ⟨hhead, hlt, _, _, h⟩
    exact ⟨step.1, hhead, List.mem_map.mpr ⟨step.2, h, rfl⟩⟩

/-- **What reading the token at the position does.** -/
theorem shift_spec {s : Progress} (hE : j.ClosedUnderShift s.position c E)
    (hs : s.stack.Standing s.position c) (hedges : s.stack.Edges E) :
    ((s.shift j).1 = false ∧ j.stepsAt s.stack s.position = [] ∧
        (s.shift j).2.stack = s.stack ∧ (s.shift j).2.position = s.position) ∨
      ((s.shift j).1 = true ∧ j.stepsAt s.stack s.position ≠ [] ∧
        (s.shift j).2.position = s.position + 1 ∧
        (s.shift j).2.stack.Fresh s.stack.nodes.size (s.position + 1) (s.position + 1) ∧
        (s.shift j).2.stack.Edges E ∧
        (∀ i < s.stack.nodes.size, (s.shift j).2.stack.node i = s.stack.node i) ∧
        (∀ i, s.stack.nodes.size ≤ i → i < (s.shift j).2.stack.nodes.size →
          (s.shift j).2.stack.edges i ≠ []) ∧
        ∀ step ∈ j.stepsAt s.stack s.position, (s.shift j).2.stack.Joined s.stack.nodes.size
          ⟨step.2.2, s.position + 1, s.position + 1⟩ step.1) := by
  have hsteps : (s.stack.heads.flatMap fun head =>
      (j.shifts (s.stack.state head) s.position).map (head, ·)) =
        j.stepsAt s.stack s.position := rfl
  -- The mark changes nothing that is read here.
  have hstart : ∀ m : Progress, m.stack = s.stack →
      (⟨⟨m.stack.nodes, [], []⟩, []⟩ : Shifting).Ok j s.position s.stack E := by
    intro m hm
    rw [hm]
    exact ⟨fresh_without_heads hs, fun i e he => hedges i e he,
      fun _ hi hlt => absurd hlt (Nat.not_lt.mpr hi), fun _ _ => rfl, fun x node h => by cases h⟩
  unfold Progress.shift
  dsimp only
  rw [hsteps]
  split
  · next hempty =>
    refine .inl ⟨rfl, List.isEmpty_iff.mp hempty, ?_, ?_⟩
    · split <;> rfl
    · split <;> rfl
  · next hne =>
    refine .inr ⟨rfl, fun h => hne (List.isEmpty_iff.mpr h), rfl, ?_⟩
    have hstack : (if j.isAmbiguous s.stack s.position then s.mark s.position else s).stack =
        s.stack := by split <;> rfl
    obtain ⟨hok, _, hjoined⟩ := foldl_shiftTo_ok hE (j.stepsAt s.stack s.position) _
      (hstart _ hstack) fun step h => ((mem_stepsAt hs).mp h).2
    exact ⟨hok.fresh, hok.edges, hok.old, hok.new, hjoined⟩

end ParseJob

namespace Progress

variable {j : ParseJob} {s : Progress}

/-- Where nothing can be read, nothing changes but the marks. -/
theorem shift_of_false (h : (s.shift j).1 = false) : ∃ marks, (s.shift j).2 = { s with marks } := by
  unfold shift mark at h ⊢
  dsimp only at h ⊢
  split
  · split
    · exact ⟨_, rfl⟩
    · exact ⟨_, rfl⟩
  · next hsome =>
    rw [if_neg hsome] at h
    cases h

/-- What reading a token leaves as it is, and what it begins anew. -/
theorem shift_of_true (h : (s.shift j).1 = true) : ∃ stack marks, (s.shift j).2 = { s with
    stack, marks, position := s.position + 1, settled := false, checkpoint := none } := by
  unfold shift mark at h ⊢
  dsimp only at h ⊢
  split
  · next hempty =>
    rw [if_pos hempty] at h
    cases h
  · split
    · exact ⟨_, _, rfl⟩
    · exact ⟨_, _, rfl⟩

end Progress

end LayeredSyntax
