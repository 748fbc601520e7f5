/-
  WHAT THE SEARCH MARKS — the marks of `reach` are the nodes that can be reached.

  1. Soundness: whatever holds of the origins and goes over from a node to its successors holds of
     every marked node (`reachFrom_sound`).
  2. Completeness: when the search ends, every origin is marked, and with a node all its successors
     are (`reachFrom_closed`).

  **The crux** is what holds in the middle of a search: a successor of a marked node is marked
  itself or still on the list of nodes to visit.  Nodes past the bound have no marks, so a graph
  must not lead through them; the graphs of a grammar give them no successors.
-/
import LayeredSyntax.Table.Reach

namespace LayeredSyntax

variable {next : Nat → List Nat} {marks : Array Bool} {todo origins : List Nat} {bound x y : Nat}

/-- Whether a node has its mark. -/
def IsMarked (marks : Array Bool) (x : Nat) : Prop := marks[x]? = some true

theorem mem_marked : x ∈ marked marks ↔ IsMarked marks x := by
  unfold marked IsMarked
  constructor
  · intro h
    simpa using (List.mem_filter.mp h).2
  · intro h
    obtain ⟨hx, _⟩ := Array.getElem?_eq_some_iff.mp h
    exact List.mem_filter.mpr ⟨List.mem_range.mpr hx, by simpa using h⟩

/-- Setting a mark keeps the others. -/
theorem IsMarked.set (h : IsMarked marks y) : IsMarked (marks.setIfInBounds x true) y := by
  unfold IsMarked at *
  rw [Array.getElem?_setIfInBounds]
  split
  · next heq =>
    subst heq
    obtain ⟨hx, _⟩ := Array.getElem?_eq_some_iff.mp h
    rw [if_pos hx]
  · exact h

/-- A mark is new or was there before. -/
theorem IsMarked.of_set (h : IsMarked (marks.setIfInBounds x true) y) :
    y = x ∨ IsMarked marks y := by
  unfold IsMarked at *
  rw [Array.getElem?_setIfInBounds] at h
  split at h
  · next heq => exact .inl heq.symm
  · exact .inr h

theorem isMarked_set_self (h : x < marks.size) : IsMarked (marks.setIfInBounds x true) x := by
  unfold IsMarked
  rw [Array.getElem?_setIfInBounds, if_pos rfl, if_pos h]

/-! ## The search -/

theorem size_reachFrom (next : Nat → List Nat) (marks : Array Bool) (todo : List Nat) :
    (reachFrom next marks todo).size = marks.size := by
  fun_induction reachFrom next marks todo with
  | case1 marks => rfl
  | case2 marks x rest h ih => rw [ih, Array.size_setIfInBounds]
  | case3 marks x rest h ih => exact ih

/-- **What goes over to successors holds of all marked nodes.** -/
theorem reachFrom_sound {P : Nat → Prop} (hstep : ∀ x y, P x → y ∈ next x → P y)
    (htodo : ∀ x ∈ todo, P x) (hmarks : ∀ x, IsMarked marks x → P x)
    (h : IsMarked (reachFrom next marks todo) y) : P y := by
  fun_induction reachFrom next marks todo with
  | case1 marks => exact hmarks y h
  | case2 marks x rest hx ih =>
    have hPx : P x := htodo x List.mem_cons_self
    refine ih (fun z hz => ?_) (fun z hz => ?_) h
    · rcases List.mem_append.mp hz with hz | hz
      · exact hstep x z hPx hz
      · exact htodo z (List.mem_cons_of_mem _ hz)
    · rcases hz.of_set with rfl | hz
      · exact hPx
      · exact hmarks z hz
  | case3 marks x rest hx ih =>
    exact ih (fun z hz => htodo z (List.mem_cons_of_mem _ hz)) hmarks h

/-- A mark is never taken back. -/
theorem reachFrom_keeps (h : IsMarked marks y) : IsMarked (reachFrom next marks todo) y := by
  fun_induction reachFrom next marks todo with
  | case1 marks => exact h
  | case2 marks x rest hx ih => exact ih h.set
  | case3 marks x rest hx ih => exact ih h

/-- Every node on the list is marked in the end. -/
theorem reachFrom_visits (hy : y ∈ todo) (hlt : y < marks.size) :
    IsMarked (reachFrom next marks todo) y := by
  fun_induction reachFrom next marks todo with
  | case1 marks => cases hy
  | case2 marks x rest hx ih =>
    rcases List.mem_cons.mp hy with rfl | hy
    · exact reachFrom_keeps (isMarked_set_self hlt)
    · exact ih (List.mem_append_right _ hy) (by rwa [Array.size_setIfInBounds])
  | case3 marks x rest hx ih =>
    rcases List.mem_cons.mp hy with rfl | hy
    · -- The node has a mark, and it is not unset: it was visited before.
      refine reachFrom_keeps ?_
      unfold IsMarked
      rw [Array.getElem?_eq_getElem hlt] at hx ⊢
      cases hval : marks[y] with
      | true => rfl
      | false => exact absurd (congrArg some hval) hx
    · exact ih hy hlt

/-- **With a node all its successors are marked.** -/
theorem reachFrom_closed
    (hopen : ∀ x, IsMarked marks x → ∀ y ∈ next x, y < marks.size → IsMarked marks y ∨ y ∈ todo)
    (hx : IsMarked (reachFrom next marks todo) x) (hy : y ∈ next x) (hlt : y < marks.size) :
    IsMarked (reachFrom next marks todo) y := by
  fun_induction reachFrom next marks todo with
  | case1 marks =>
    rcases hopen x hx y hy hlt with h | h
    · exact h
    · cases h
  | case2 marks z rest hz ih =>
    refine ih (fun u hu v hv hvlt => ?_) hx (by rwa [Array.size_setIfInBounds])
    rw [Array.size_setIfInBounds] at hvlt
    rcases hu.of_set with rfl | hu
    · exact .inr (List.mem_append_left _ hv)
    · rcases hopen u hu v hv hvlt with h | h
      · exact .inl h.set
      · rcases List.mem_cons.mp h with rfl | h
        · exact .inl (isMarked_set_self hvlt)
        · exact .inr (List.mem_append_right _ h)
  | case3 marks z rest hz ih =>
    refine ih (fun u hu v hv hvlt => ?_) hx hlt
    rcases hopen u hu v hv hvlt with h | h
    · exact .inl h
    · rcases List.mem_cons.mp h with rfl | h
      · refine .inl ?_
        unfold IsMarked
        rw [Array.getElem?_eq_getElem hvlt] at hz ⊢
        cases hval : marks[v] with
        | true => rfl
        | false => exact absurd (congrArg some hval) hz
      · exact .inr h

/-! ## Everything that can be reached -/

theorem not_isMarked_replicate : ¬ IsMarked (Array.replicate bound false) x := by
  unfold IsMarked
  intro h
  obtain ⟨hx, hval⟩ := Array.getElem?_eq_some_iff.mp h
  simp at hval

/-- **The marked nodes are those below the bound that can be reached.** -/
theorem mem_marked_reach (hnext : ∀ x, bound ≤ x → next x = []) :
    x ∈ marked (reach bound next origins) ↔ x < bound ∧ Reached next origins x := by
  rw [mem_marked]
  unfold reach
  constructor
  · intro h
    refine ⟨?_, reachFrom_sound (P := Reached next origins) (fun x y hx hy => hx.step hy)
      (fun x hx => .start hx) (fun x hx => absurd hx not_isMarked_replicate) h⟩
    have hlt := (Array.getElem?_eq_some_iff.mp h).1
    rwa [size_reachFrom, Array.size_replicate] at hlt
  · rintro ⟨hlt, hx⟩
    induction hx with
    | start hx => exact reachFrom_visits hx (by rwa [Array.size_replicate])
    | @step u v hu hv ih =>
      have hult : u < bound := by
        rcases Nat.lt_or_ge u bound with h | h
        · exact h
        · rw [hnext u h] at hv; cases hv
      exact reachFrom_closed (fun w hw => absurd hw not_isMarked_replicate) (ih hult) hv
        (by rwa [Array.size_replicate])

/-- One more step at the beginning. -/
theorem Reached.head (hy : y ∈ next x) {z : Nat} (h : Reached next [y] z) : Reached next [x] z := by
  induction h with
  | start hz =>
    obtain rfl := List.mem_singleton.mp hz
    exact .step (.start List.mem_cons_self) hy
  | step _ hv ih => exact .step ih hv

end LayeredSyntax
